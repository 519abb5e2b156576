import Myrmidon.Network.Writing

namespace Myrmidon.Network

open Data Transition Program

namespace Call

/-- The steps a call has before it, its retry included. -/
def ahead (call : Call) : Nat :=
  (if call.retried then 0 else 10) +
    match call.stage with
    | .check => 9
    | .lookup => 8
    | .connect => 7
    | .version => 6
    | .insert _ => 5
    | .send _ => 4
    | .evict => 3
    | .returned _ => 0

def Returned (call : Call) : Prop := ∃ result, call.stage = .returned result

/-- A call evicts a connection at most once. -/
def RetriesOnce (call : Call) : Prop := call.stage = .evict → call.retried = false

theorem retriesOnce_of_isNew {call : Call} (new : call.isNew = true) : call.RetriesOnce := by
  intro evicting
  rw [(idle_of_isNew new).2] at evicting
  cases evicting

variable {self : Nat} {peers later : Peers} {call next : Call}

theorem Advances.descends (advances : call.Advances self peers later next) (once : call.RetriesOnce) :
    next.RetriesOnce ∧ next.ahead < call.ahead := by
  cases advances with
  | accepted checking within => exact ⟨nofun, by simp [ahead, checking]⟩
  | missed looking => exact ⟨nofun, by simp [ahead, looking]⟩
  | dialled dialling => exact ⟨nofun, by simp [ahead, dialling]⟩
  | aborted early =>
    refine ⟨nofun, ?_⟩
    rcases early with stage | stage | stage | ⟨id, stage⟩ <;> simp [ahead, stage]
  | queued sending found alive => exact ⟨nofun, by simp [ahead, sending]⟩
  | found looking pooled => exact ⟨nofun, by simp [ahead, looking]⟩
  | opened ready => exact ⟨nofun, by simp [ahead, ready]⟩
  | inserted inserting => exact ⟨nofun, by simp [ahead, inserting]⟩
  | failed sending first found ended => exact ⟨fun _ => first, by simp [ahead, sending]⟩
  | evicted evicting => exact ⟨nofun, by simp [ahead, evicting, once evicting]⟩

theorem Advances.request (advances : call.Advances self peers later next) : next.request = call.request := by
  cases advances <;> rfl

/-- A call moves on unless it waits for room in a queue. -/
theorem exists_advance (self : Nat) (peers : Peers) (unreturned : ¬ call.Returned)
    (room : ∀ id, call.stage = .send id → ∃ connection, peers.connections[id]? = some connection ∧
      (connection.writer = .finished ∨ connection.queue.length < queueCapacity)) :
    (call.advance self peers .done).isSome = true := by
  unfold advance
  cases stage : call.stage with
  | check =>
    dsimp only
    split <;> rfl
  | lookup =>
    dsimp only
    split <;> rfl
  | send id =>
    obtain ⟨connection, found, ended | free⟩ := room id stage
    · simp only [found, ended, if_true]
      split <;> rfl
    · simp only [found, free, if_true]
      split
      · split <;> rfl
      · rfl
  | returned result => exact absurd ⟨result, stage⟩ unreturned
  | _ => rfl

/-- A call that has queued its frame found room for it. -/
theorem room_of_queued {io : Io} (advanced : call.advance self peers io = some (later, next)) {id : Nat}
    (sending : call.stage = .send id) (ok : next.stage = .returned (.ok ())) :
    ∃ connection, peers.connections[id]? = some connection ∧ connection.queue.length < queueCapacity := by
  unfold advance at advanced
  rw [sending] at advanced
  dsimp only at advanced
  split at advanced
  · cases advanced
  · rename_i connection found
    split at advanced
    · split at advanced <;> cases advanced <;> cases ok
    · split at advanced
      · rename_i room
        exact ⟨connection, found, room⟩
      · cases advanced

end Call

/-- No queue has more frames than it may. -/
def Capped (peers : Peers) : Prop := ∀ connection ∈ peers.connections, connection.queue.length ≤ queueCapacity

namespace Capped

variable {peers later : Peers} {id : Nat}

theorem modify (capped : Capped peers) (change : Connection → Connection)
    (fits : ∀ connection, peers.connections[id]? = some connection → connection.queue.length ≤ queueCapacity →
      (change connection).queue.length ≤ queueCapacity) : Capped (peers.modify id change) := by
  intro connection member
  obtain ⟨index, found⟩ := List.mem_iff_getElem?.mp member
  by_cases own : id = index
  · subst own
    cases before : peers.connections[id]? with
    | none =>
      rw [Peers.modify, List.getElem?_modify_eq, before] at found
      cases found
    | some old =>
      rw [Peers.modify, List.getElem?_modify_eq, before] at found
      cases found
      exact fits old before (capped old (List.mem_of_getElem? before))
  · rw [peers.getElem?_modify_ne own] at found
    exact capped connection (List.mem_of_getElem? found)

theorem dropSenders (capped : Capped peers) (ids : List Nat) : Capped (peers.dropSenders ids) := by
  induction ids generalizing peers with
  | nil => exact capped
  | cons first rest ih => exact ih (capped.modify _ fun _ _ fits => fits)

theorem remove (capped : Capped peers) (addr : String) : Capped (peers.remove addr) := by
  unfold Peers.remove
  split
  · exact capped
  · rename_i other pooled
    exact Capped.modify capped (fun connection => { connection with senders := connection.senders - 1 })
      fun _ _ fits => fits

theorem insert (capped : Capped peers) (addr : String) (other : Nat) : Capped (peers.insert addr other) :=
  Capped.modify (capped.remove addr) (fun connection => { connection with senders := connection.senders + 1 })
    fun _ _ fits => fits

theorem advance {self : Nat} {call next : Call} {io : Io} (capped : Capped peers)
    (advanced : call.advance self peers io = some (later, next)) : Capped later := by
  have advances := Call.advances_of_advance advanced
  cases advances with
  | aborted early => exact capped.dropSenders _
  | @queued other connection sending found alive =>
    obtain ⟨same, there, room⟩ := Call.room_of_queued advanced sending rfl
    apply Capped.dropSenders
    apply capped.modify
    intro old before fits
    cases there.symm.trans before
    rw [List.length_append]
    exact room
  | found looking pooled => exact capped.modify _ fun _ _ fits => fits
  | opened ready =>
    intro connection member
    rcases List.mem_append.mp member with old | new
    · exact capped connection old
    · cases List.mem_singleton.mp new
      exact Nat.zero_le _
  | inserted inserting => exact capped.insert _ _
  | evicted evicting => exact capped.remove _
  | _ => exact capped

theorem write {connection : Connection} (capped : Capped peers) (found : peers.connections[id]? = some connection)
    (writes : Peers.Writes peers id connection later) : Capped later := by
  cases writes with
  | took receiving queued =>
    apply capped.modify
    intro old before fits
    cases found.symm.trans before
    rw [queued] at fits
    exact Nat.le_of_succ_le fits
  | removed leaving =>
    apply Capped.remove
    exact capped.modify _ fun _ _ fits => fits
  | closed closing => exact capped.modify _ fun _ _ _ => Nat.zero_le _
  | _ => exact capped.modify _ fun _ _ fits => fits

theorem move {c d : Config Peers Call} {move : Move Call Io (Nat × WriteIo)} (capped : Capped c.shared)
    (moves : sendRemote.Moves c move d) : Capped d.shared := by
  cases moves with
  | start allowed => exact capped
  | step stepped =>
    obtain ⟨advanced, rfl⟩ := sendRemote_step stepped
    exact capped.advance advanced
  | ambient done =>
    obtain ⟨connection, found, writes⟩ := Peers.writes_of_write done
    exact capped.write found writes

end Capped

/-- The frame of the call is among those that a connection accepted. -/
def Queued (peers : Peers) (self : Nat) (call : Call) : Prop :=
  ∃ (id : Nat) (connection : Connection), peers.connections[id]? = some connection ∧
    ⟨self, call.frame⟩ ∈ connection.accepted

theorem Call.Advances.queues {self : Nat} {peers later : Peers} {call next : Call}
    (advances : call.Advances self peers later next) (ok : next.stage = .returned (.ok ())) :
    Queued later self next := by
  cases advances with
  | @queued id connection sending found alive =>
    have pushed : (peers.push id ⟨self, call.frame⟩).connections[id]? = some { connection with
        queue := connection.queue ++ [⟨self, call.frame⟩],
        accepted := connection.accepted ++ [⟨self, call.frame⟩] } := by
      rw [Peers.push, Peers.modify, List.getElem?_modify_eq, found]
      rfl
    obtain ⟨now, here, fills⟩ := (peers.push id ⟨self, call.frame⟩).fills_dropSenders call.held id _ pushed
    exact ⟨id, now, here, fills.accepted.subset (List.mem_append_right _ List.mem_cons_self)⟩
  | _ => cases ok

namespace Returning

variable {e : sendRemote.Execution} {self : Nat} {call : Call}

theorem capped (initial : e.config 0 = ⟨.empty, []⟩) (n : Nat) : Capped (e.config n).shared := by
  apply e.always (I := fun c => Capped c.shared) (fun c move d old moves => old.move moves) _ (Nat.zero_le n)
  rw [initial]
  exact List.forall_mem_nil _

theorem queued_next {n : Nat} (queued : Queued (e.config n).shared self call) :
    Queued (e.config (n + 1)).shared self call := by
  obtain ⟨id, connection, found, member⟩ := queued
  obtain ⟨now, here, grown, -⟩ := Writing.connection_later found (Nat.le_succ n)
  exact ⟨id, now, here, grown.subset member⟩

/-- A call that has returned `Ok` queued its frame when it did. -/
theorem queued_of_ok (initial : e.config 0 = ⟨.empty, []⟩) {n : Nat}
    (found : (e.config n).threads[self]? = some call) (ok : call.stage = .returned (.ok ())) :
    Queued (e.config n).shared self call := by
  induction n generalizing call with
  | zero =>
    rw [initial] at found
    cases found
  | succ n ih =>
    cases taken : e.move n with
    | none =>
      rw [e.idle taken] at found ⊢
      exact ih found ok
    | some move =>
      rcases (e.moves taken).thread_from found with same | ⟨earlier, input, started, before, stepped⟩ | new |
        ⟨own, input, earlier, next, started, -, stepped, member⟩
      · exact queued_next (ih same ok)
      · exact (Call.advances_of_advance (sendRemote_step stepped).1).queues ok
      · rw [(Call.idle_of_isNew new).2] at ok
        cases ok
      · rw [(sendRemote_step stepped).2] at member
        cases member

/-- The writer's way to a frame less in the queue, or to its end. -/
def toRoom (connection : Connection) : Nat :=
  match connection.writer with
  | .writing left => left.length + 4
  | .receiving => 3
  | .leaving => 2
  | .closing => 1
  | .finished => 0

/-- A call that waits to queue its frame can do so or fails. -/
def Room (id : Nat) (c : Config Peers Call) : Prop := ∃ connection, c.shared.connections[id]? = some connection ∧
  (connection.writer = .finished ∨ connection.queue.length < queueCapacity)

theorem toRoom_turns {connection now : Connection} {io : WriteIo} (turns : connection.Turns io now)
    (full : connection.queue.length = queueCapacity) (missed : ¬ now.queue.length < queueCapacity) :
    toRoom now < toRoom connection := by
  cases turns with
  | took receiving queued =>
    rw [queued] at full
    exact absurd (full ▸ Nat.lt_succ_self _) missed
  | drained receiving empty unused =>
    rw [empty] at full
    cases full
  | @wrote left count writing some inside =>
    simp only [toRoom, writing]
    split
    · rename_i left later
      split at later
      · cases later
      · cases later
        rw [List.length_drop]
        omega
    all_goals omega
  | broke writing => simp [toRoom, writing]
  | removed leaving fewer => simp [toRoom, leaving]
  | closed closing => simp [toRoom, closing]

theorem eventually_room (initial : e.config 0 = ⟨.empty, []⟩) (writers : WritersFair e) {start id : Nat}
    {connection : Connection} (found : (e.config start).shared.connections[id]? = some connection) :
    ∃ n, start ≤ n ∧ Room id (e.config n) := by
  have waits : ∀ n, start ≤ n → ¬ Room id (e.config n) → ∃ now, (e.config n).shared.connections[id]? = some now ∧
      now.writer ≠ .finished ∧ now.queue.length = queueCapacity := by
    intro n later early
    obtain ⟨now, here, -⟩ := Writing.connection_later found later
    have atMost := capped initial n now (List.mem_of_getElem? here)
    refine ⟨now, here, fun finished => early ⟨now, here, .inl finished⟩, ?_⟩
    by_contra different
    exact early ⟨now, here, .inr (Nat.lt_of_le_of_ne atMost different)⟩
  apply e.reaches_on (writers id) _ fun c => ((c.shared.connections[id]?).map toRoom).getD 0
  · intro n later early
    obtain ⟨now, here, alive, full⟩ := waits n later early
    have ready : now.writer = .receiving → now.queue ≠ [] := by
      rintro - empty
      rw [empty] at full
      cases full
    obtain ⟨peers, wrote⟩ := Option.isSome_iff_exists.mp (Peers.exists_write now here ready alive)
    refine ⟨_, ⟨.failed, rfl⟩, ?_⟩
    show (Option.map _ ((e.config n).shared.write id .failed)).isSome = true
    rw [wrote]
    rfl
  · intro n later early still
    obtain ⟨now, here, alive, full⟩ := waits n later early
    obtain ⟨next, after, going, -⟩ := waits (n + 1) (Nat.le_succ_of_le later) still
    obtain ⟨same, there, fills | ⟨io, -, turns⟩⟩ := Writing.connection_next here
    · cases after.symm.trans there
      rw [here, after]
      show toRoom next ≤ toRoom now
      rw [toRoom, toRoom, fills.writer]
    · cases after.symm.trans there
      rw [here, after]
      exact (toRoom_turns turns full fun room => still ⟨next, after, .inr room⟩).le
  · rintro n _ later early still ⟨io, rfl⟩ taken
    obtain ⟨now, here, alive, full⟩ := waits n later early
    obtain ⟨same, next, there, after, turns⟩ := Writing.turns_next taken
    cases here.symm.trans there
    rw [here, after]
    exact toRoom_turns turns full fun room => still ⟨next, after, .inr room⟩

theorem can_of_advance {n : Nat} (found : (e.config n).threads[self]? = some call)
    (possible : (call.advance self (e.config n).shared .done).isSome = true) : sendRemote.Can self (e.config n) := by
  obtain ⟨⟨peers, next⟩, advanced⟩ := Option.isSome_iff_exists.mp possible
  refine ⟨.done, ?_⟩
  simp only [machine, found, sendRemote, advanced]
  rfl

/-- A call that has not returned moves on, though it may have to wait for room. -/
theorem turn (initial : e.config 0 = ⟨.empty, []⟩) (fair : e.StronglyFair) (writers : WritersFair e) {start : Nat}
    (found : (e.config start).threads[self]? = some call) (unreturned : ¬ call.Returned) :
    ∃ n input, start ≤ n ∧ e.move n = some (.step self input) := by
  apply fair.takes_turn found
  intro stays n later
  by_cases sending : ∃ id, call.stage = .send id
  · obtain ⟨id, stage⟩ := sending
    have known := (Writing.counted initial n).knows call (List.mem_of_getElem? (stays n later)) id (.inr stage)
    obtain ⟨writer, status⟩ := known
    obtain ⟨connection, there, -, -⟩ := Peers.exists_of_status status
    obtain ⟨m, after, room⟩ := eventually_room initial writers there
    refine ⟨m, after, can_of_advance (stays m (by omega)) ?_⟩
    apply call.exists_advance self _ unreturned
    intro other same
    cases stage.symm.trans same
    exact room
  · refine ⟨n, Nat.le_refl _, can_of_advance (stays n later) ?_⟩
    exact call.exists_advance self _ unreturned fun id stage => absurd ⟨id, stage⟩ sending

theorem eventually_returned (initial : e.config 0 = ⟨.empty, []⟩) (fair : e.StronglyFair) (writers : WritersFair e)
    {start : Nat} (called : (e.config start).threads[self]? = some call) (once : call.RetriesOnce) :
    ∃ n last, start ≤ n ∧ (e.config n).threads[self]? = some last ∧
      (last.RetriesOnce ∧ last.request = call.request) ∧ last.Returned := by
  apply e.eventually_of_turns (measure Call.ahead).wf _ _ called ⟨once, rfl⟩
  · intro n thread later found _ unreturned
    exact turn initial fair writers found unreturned
  · intro peers thread io later next started holds _ stepped
    obtain ⟨advanced, rfl⟩ := sendRemote_step stepped
    have advances := Call.advances_of_advance advanced
    obtain ⟨kept, lower⟩ := advances.descends holds.1
    exact ⟨⟨kept, advances.request.trans holds.2⟩, lower⟩

/-- A frame that a call has queued is written in the end, behind those queued before it, or a write fails. -/
theorem frame_written (initial : e.config 0 = ⟨.empty, []⟩) (writers : WritersFair e) {n : Nat}
    (found : (e.config n).threads[self]? = some call) (ok : call.stage = .returned (.ok ())) :
    ∃ id connection before after, (e.config n).shared.connections[id]? = some connection ∧
      connection.accepted = before ++ ⟨self, call.frame⟩ :: after ∧
      ((∃ m now, n ≤ m ∧ (e.config m).shared.connections[id]? = some now ∧
        protocolVersion :: (frames before ++ call.frame) <+: now.written) ∨ ∃ m, WriteFails e id m) := by
  obtain ⟨id, connection, there, member⟩ := queued_of_ok initial found ok
  obtain ⟨before, after, split⟩ := List.append_of_mem member
  have inside : protocolVersion :: (frames before ++ call.frame) <+: protocolVersion :: frames connection.accepted := by
    have cut : frames connection.accepted = (frames before ++ call.frame) ++ frames after := by
      rw [split, frames_append, List.append_assoc]
      rfl
    rw [cut]
    exact List.prefix_append (protocolVersion :: (frames before ++ call.frame)) (frames after)
  refine ⟨id, connection, before, after, there, split, ?_⟩
  obtain ⟨m, much, now, here, wrote | dying⟩ := Writing.eventually_wroteOrLeft initial writers there
  · exact .inl ⟨m, now, much, here, inside.trans wrote⟩
  · rcases Writing.written_of_dying initial there much here dying with fails | wrote
    · exact .inr fails
    · exact .inl ⟨m, now, much, here, inside.trans wrote⟩

end Returning

end Myrmidon.Network
