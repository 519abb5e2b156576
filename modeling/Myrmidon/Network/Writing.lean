import Myrmidon.Network.Framing
import Myrmidon.Network.Senders
import Myrmidon.Transition.Fair

namespace Myrmidon.Network

open Data Transition Program

/-- One step of the writer task of a connection, as the connection sees it. -/
inductive Connection.Turns (connection : Connection) : WriteIo → Connection → Prop where
  | took {envelope : Envelope} {queue : List Envelope} {io : WriteIo} (receiving : connection.writer = .receiving)
      (queued : connection.queue = envelope :: queue) :
      Turns connection io { connection with writer := .writing envelope.frame, queue }
  | drained {io : WriteIo} (receiving : connection.writer = .receiving) (empty : connection.queue = [])
      (unused : connection.senders = 0) : Turns connection io { connection with writer := .leaving }
  | wrote {left : Bytes} {count : Nat} (writing : connection.writer = .writing left) (some : 0 < count)
      (inside : count ≤ left.length) : Turns connection (.wrote count)
        { connection with
          written := connection.written ++ left.take count
          writer := if left.drop count = [] then .receiving else .writing (left.drop count) }
  | broke {left : Bytes} (writing : connection.writer = .writing left) :
      Turns connection .failed { connection with writer := .leaving }
  | removed {io : WriteIo} {senders : Nat} (leaving : connection.writer = .leaving)
      (fewer : senders ≤ connection.senders) :
      Turns connection io { connection with writer := .closing, senders }
  | closed {io : WriteIo} (closing : connection.writer = .closing) :
      Turns connection io { connection with writer := .finished, queue := [] }

/-- What others do to a connection: they change its senders and fill its queue. -/
structure Connection.Fills (connection later : Connection) : Prop where
  writer : later.writer = connection.writer
  written : later.written = connection.written
  accepted : connection.accepted <+: later.accepted

namespace Peers

variable {peers later : Peers} {id : Nat}

theorem getElem?_removed (peers : Peers) (addr : String) (id : Nat) : (peers.remove addr).connections[id]? =
    (peers.connections[id]?).map fun connection =>
      { connection with senders := connection.senders - if peers.pool addr = some id then 1 else 0 } := by
  unfold remove
  split
  · rename_i absent
    cases found : peers.connections[id]? with
    | none => rfl
    | some connection => simp [absent]
  · rename_i other pooled
    show (peers.connections.modify other _)[id]? = _
    rw [List.getElem?_modify]
    cases found : peers.connections[id]? with
    | none => simp
    | some connection => by_cases own : other = id <;> simp [own, pooled]

theorem turns_of_write {io : WriteIo} (done : peers.write id io = some later) :
    ∃ connection now, peers.connections[id]? = some connection ∧ later.connections[id]? = some now ∧
      connection.Turns io now := by
  unfold write at done
  split at done
  · cases done
  rename_i connection found
  have changed : ∀ change : Connection → Connection,
      (peers.modify id change).connections[id]? = some (change connection) := by
    intro change
    rw [modify, List.getElem?_modify_eq, found]
    rfl
  refine ⟨connection, ?_⟩
  split at done
  · rename_i receiving
    split at done
    · rename_i envelope queue queued
      cases done
      exact ⟨_, found, changed _, .took receiving queued⟩
    · rename_i empty
      split at done
      · rename_i unused
        cases done
        exact ⟨_, found, changed _, .drained receiving empty unused⟩
      · cases done
  · rename_i left writing
    split at done
    · split at done
      · rename_i count within
        cases done
        exact ⟨_, found, changed _, .wrote writing within.1 within.2⟩
      · cases done
    · cases done
      exact ⟨_, found, changed _, .broke writing⟩
  · rename_i leaving
    cases done
    have gone := (peers.modify id fun connection => { connection with writer := .closing }).getElem?_removed
      connection.addr id
    rw [changed] at gone
    exact ⟨_, found, gone, .removed leaving (Nat.sub_le _ _)⟩
  · rename_i closing
    cases done
    exact ⟨_, found, changed _, .closed closing⟩
  · cases done

theorem exists_write (connection : Connection) (found : peers.connections[id]? = some connection)
    (ready : connection.writer = .receiving → connection.queue ≠ []) (alive : connection.writer ≠ .finished) :
    (peers.write id .failed).isSome = true := by
  unfold write
  rw [found]
  cases writer : connection.writer with
  | receiving =>
    cases queue : connection.queue with
    | nil => exact absurd queue (ready writer)
    | cons envelope rest => simp [writer, queue]
  | finished => exact absurd writer alive
  | _ => simp [writer]

/-- Whatever a step does to the connections, it does to each of them by itself. -/
def Fills (peers later : Peers) : Prop :=
  ∀ (id : Nat) (connection : Connection), peers.connections[id]? = some connection →
    ∃ now, later.connections[id]? = some now ∧ connection.Fills now

theorem Fills.refl (peers : Peers) : Fills peers peers :=
  fun _ connection found => ⟨connection, found, rfl, rfl, List.prefix_refl _⟩

theorem Fills.trans {first second third : Peers} (one : Fills first second) (two : Fills second third) :
    Fills first third := by
  intro id connection found
  obtain ⟨middle, there, before⟩ := one id connection found
  obtain ⟨now, here, after⟩ := two id middle there
  exact ⟨now, here, after.writer.trans before.writer, after.written.trans before.written,
    before.accepted.trans after.accepted⟩

theorem fills_modify (peers : Peers) (other : Nat) {change : Connection → Connection}
    (fills : ∀ connection : Connection, connection.Fills (change connection)) :
    Fills peers (peers.modify other change) := by
  intro id connection found
  by_cases own : other = id
  · subst own
    refine ⟨change connection, ?_, fills connection⟩
    rw [modify, List.getElem?_modify_eq, found]
    rfl
  · exact ⟨connection, (peers.getElem?_modify_ne own change).trans found, rfl, rfl, List.prefix_refl _⟩

theorem fills_senders (peers : Peers) (other : Nat) (count : Connection → Nat) :
    Fills peers (peers.modify other fun connection => { connection with senders := count connection }) :=
  peers.fills_modify other fun _ => ⟨rfl, rfl, List.prefix_refl _⟩

theorem fills_push (peers : Peers) (other : Nat) (envelope : Envelope) : Fills peers (peers.push other envelope) :=
  peers.fills_modify other fun _ => ⟨rfl, rfl, List.prefix_append _ _⟩

theorem fills_dropSenders (peers : Peers) (ids : List Nat) : Fills peers (peers.dropSenders ids) := by
  induction ids generalizing peers with
  | nil => exact .refl peers
  | cons first rest ih => exact (peers.fills_senders first _).trans (ih (peers.dropSender first))

theorem fills_remove (peers : Peers) (addr : String) : Fills peers (peers.remove addr) := by
  intro id connection found
  have gone := peers.getElem?_removed addr id
  rw [found] at gone
  exact ⟨_, gone, rfl, rfl, List.prefix_refl _⟩

theorem fills_insert (peers : Peers) (addr : String) (other : Nat) : Fills peers (peers.insert addr other) := by
  have both : Fills peers ((peers.remove addr).cloneSender other) :=
    (peers.fills_remove addr).trans ((peers.remove addr).fills_senders other _)
  exact both

theorem fills_connected (peers : Peers) (addr : String) : Fills peers (peers.connected addr) := by
  intro id connection found
  refine ⟨connection, ?_, rfl, rfl, List.prefix_refl _⟩
  exact (List.getElem?_append_left (List.getElem?_eq_some_iff.mp found).1).trans found

/-- A writer task has no part in the other connections, but it may drop the sender in the pool. -/
theorem write_elsewhere {connection : Connection} {other : Nat} (writes : Writes peers id connection later)
    (different : id ≠ other) {before : Connection} (found : peers.connections[other]? = some before) :
    ∃ senders ≤ before.senders, later.connections[other]? = some { before with senders } := by
  have apart : ∀ change : Connection → Connection, (peers.modify id change).connections[other]? = some before :=
    fun change => (peers.getElem?_modify_ne different change).trans found
  cases writes with
  | removed leaving =>
    refine ⟨_, ?_, by rw [getElem?_removed, apart]; rfl⟩
    exact Nat.sub_le _ _
  | _ => exact ⟨_, Nat.le_refl _, apart _⟩

end Peers

theorem Call.Advances.fills {self : Nat} {peers later : Peers} {call next : Call}
    (advances : call.Advances self peers later next) : peers.Fills later := by
  cases advances with
  | aborted early => exact peers.fills_dropSenders _
  | queued sending found alive => exact (peers.fills_push _ _).trans (Peers.fills_dropSenders _ _)
  | found looking pooled => exact peers.fills_senders _ _
  | opened ready => exact peers.fills_connected _
  | inserted inserting => exact peers.fills_insert _ _
  | evicted evicting => exact peers.fills_remove _
  | _ => exact .refl peers

/-- Every stream is framed, whatever the limits. -/
structure Streams (c : Config Peers Call) : Prop where
  framed : c.shared.Framed
  checked : ∀ call ∈ c.threads, call.Checked

theorem Streams.move {c d : Config Peers Call} {move : Move Call Io (Nat × WriteIo)} (streams : Streams c)
    (moves : sendRemote.Moves c move d) : Streams d := by
  obtain ⟨framed, checked⟩ := streams
  cases moves with
  | start allowed =>
    refine ⟨framed, ?_⟩
    rw [List.forall_mem_append, List.forall_mem_singleton, Call.Checked, (Call.idle_of_isNew allowed).2]
    exact ⟨checked, trivial⟩
  | @step peers later before after new call next input stepped =>
    obtain ⟨advanced, rfl⟩ := sendRemote_step stepped
    rw [List.append_nil]
    have steps := (Call.advances_of_advance advanced).steps (checked call (by simp))
    refine ⟨?_, forall_replace checked steps.checked⟩
    rcases steps.effect with ⟨quiet, -⟩ | ⟨queues, -⟩
    · exact quiet.framed framed
    · exact queues.framed framed
  | ambient done =>
    obtain ⟨connection, found, writes⟩ := Peers.writes_of_write done
    exact ⟨(writes.quiet found).framed framed, checked⟩

theorem Connection.Framed.whole {connection : Connection} (framed : connection.Framed)
    (receiving : connection.writer = .receiving) (empty : connection.queue = []) :
    connection.written = protocolVersion :: frames connection.accepted := by
  obtain ⟨taken, rest, cut, splits⟩ := framed
  have waiting : [] = rest := by
    rw [← empty]
    exact splits.queued (by rw [receiving]; decide)
  have caught : cut = [] := by
    rcases splits.live with dying | same
    · rw [receiving] at dying
      cases dying
    · rw [same, receiving]
      rfl
  have stream := splits.stream
  rw [caught, List.append_nil] at stream
  rw [splits.history, ← waiting, List.append_nil]
  exact stream

/-- A write of the connection fails in this move. -/
def WriteFails (e : sendRemote.Execution) (id n : Nat) : Prop :=
  e.move n = some (.ambient (id, .failed)) ∧
    ∃ connection left, (e.config n).shared.connections[id]? = some connection ∧ connection.writer = .writing left

/-- The writer tasks get their turns. -/
def WritersFair (e : sendRemote.Execution) : Prop := ∀ id, e.FairOn fun move => ∃ io, move = .ambient (id, io)

namespace Writing

variable {e : sendRemote.Execution}

theorem counted (initial : e.config 0 = ⟨.empty, []⟩) (n : Nat) : Counted (e.config n) := by
  apply e.always (fun c move d old moves => old.move moves) _ (Nat.zero_le n)
  rw [initial]
  exact counted_empty

theorem streams (initial : e.config 0 = ⟨.empty, []⟩) (n : Nat) : Streams (e.config n) := by
  apply e.always (fun c move d old moves => old.move moves) _ (Nat.zero_le n)
  rw [initial]
  exact ⟨by simp [Peers.Framed, Peers.empty], by simp⟩

/-- What a move does to one connection. -/
theorem connection_next {n id : Nat} {connection : Connection}
    (found : (e.config n).shared.connections[id]? = some connection) :
    ∃ now, (e.config (n + 1)).shared.connections[id]? = some now ∧
      (connection.Fills now ∨ ∃ io, e.move n = some (.ambient (id, io)) ∧ connection.Turns io now) := by
  cases taken : e.move n with
  | none =>
    rw [e.idle taken]
    exact ⟨connection, found, .inl ⟨rfl, rfl, List.prefix_refl _⟩⟩
  | some move =>
    have moves := e.moves taken
    generalize e.config (n + 1) = d at moves
    generalize e.config n = c at moves found
    cases moves with
    | start allowed => exact ⟨connection, found, .inl ⟨rfl, rfl, List.prefix_refl _⟩⟩
    | step stepped =>
      obtain ⟨advanced, rfl⟩ := sendRemote_step stepped
      obtain ⟨now, here, fills⟩ := (Call.advances_of_advance advanced).fills id connection found
      exact ⟨now, here, .inl fills⟩
    | @ambient peers later threads operation done =>
      obtain ⟨other, io⟩ := operation
      by_cases own : other = id
      · subst own
        obtain ⟨before, now, there, here, turns⟩ := Peers.turns_of_write done
        cases found.symm.trans there
        exact ⟨now, here, .inr ⟨io, rfl, turns⟩⟩
      · obtain ⟨_, _, writes⟩ := Peers.writes_of_write done
        obtain ⟨senders, -, here⟩ := Peers.write_elsewhere writes own found
        exact ⟨_, here, .inl ⟨rfl, rfl, List.prefix_refl _⟩⟩

theorem connection_later {start n id : Nat} {connection : Connection}
    (found : (e.config start).shared.connections[id]? = some connection) (later : start ≤ n) :
    ∃ now, (e.config n).shared.connections[id]? = some now ∧ connection.accepted <+: now.accepted ∧
      connection.written <+: now.written := by
  induction n, later using Nat.le_induction with
  | base => exact ⟨connection, found, List.prefix_refl _, List.prefix_refl _⟩
  | succ n _ ih =>
    obtain ⟨now, here, grown, further⟩ := ih
    obtain ⟨next, after, fills | ⟨io, -, turns⟩⟩ := connection_next here
    · refine ⟨next, after, grown.trans fills.accepted, ?_⟩
      rw [fills.written]
      exact further
    · refine ⟨next, after, ?_⟩
      cases turns with
      | wrote writing some inside => exact ⟨grown, further.trans (List.prefix_append _ _)⟩
      | _ => exact ⟨grown, further⟩

theorem senders_of_held {c : Config Peers Call} (counted : Counted c) {call : Call} (member : call ∈ c.threads)
    {id : Nat}
    (holds : id ∈ call.held) {connection : Connection} (found : c.shared.connections[id]? = some connection) :
    0 < connection.senders := by
  have senders := counted.senders id _ _ (Peers.status_of_getElem? found)
  have counts : c.shared.sendersOf id = connection.senders := by
    rw [Peers.sendersOf, found]
    rfl
  have positive : 0 < total (fun call : Call => call.held.count id) c.threads :=
    total_pos_of_mem member (List.count_pos_iff.mpr holds)
  omega

/-- A connection that nobody has a sender of is left alone by the calls. -/
theorem untouched {c : Config Peers Call} (counted : Counted c) {later : Peers} {self id : Nat} {call next : Call}
    (member : call ∈ c.threads) (advances : call.Advances self c.shared later next) {connection : Connection}
    (found : c.shared.connections[id]? = some connection) (unused : connection.senders = 0) :
    later.connections[id]? = some connection := by
  have status := Peers.status_of_getElem? found
  have unheld : id ∉ call.held := by
    intro holds
    have positive := senders_of_held counted member holds found
    omega
  have unpooled : ∀ addr, c.shared.pool addr ≠ some id := by
    intro addr entry
    obtain ⟨writer, same⟩ := counted.pooled addr id entry
    cases status.symm.trans same
    have senders := counted.senders id _ _ status
    rw [if_pos entry, Peers.sendersOf, found] at senders
    have none : ((some connection).map Connection.senders).getD 0 = 0 := unused
    omega
  rw [← found]
  exact (advances.untouched_of_placed (counted.placed call member) (by rw [status]; rfl) unheld unpooled).1

/-- A writer that has left its queue has written everything, or has failed to. -/
def LeftWhole (e : sendRemote.Execution) (n : Nat) : Prop :=
  ∀ id connection, (e.config n).shared.connections[id]? = some connection → connection.writer.dying = true →
    (∃ m, WriteFails e id m) ∨
      connection.senders = 0 ∧ connection.written = protocolVersion :: frames connection.accepted

theorem left_turn {n id : Nat} {connection now : Connection} {io : WriteIo} (whole : LeftWhole e n)
    (framed : connection.Framed) (found : (e.config n).shared.connections[id]? = some connection)
    (taken : e.move n = some (.ambient (id, io))) (turns : connection.Turns io now) (dying : now.writer.dying = true) :
    (∃ m, WriteFails e id m) ∨ now.senders = 0 ∧ now.written = protocolVersion :: frames now.accepted := by
  cases turns with
  | took receiving queued => cases dying
  | drained receiving empty unused => exact .inr ⟨unused, framed.whole receiving empty⟩
  | @wrote left count writing some inside =>
    dsimp only at dying
    split at dying <;> cases dying
  | broke writing => exact .inl ⟨n, taken, connection, _, found, writing⟩
  | removed leaving fewer =>
    rcases whole id connection found (by rw [leaving]; rfl) with fails | ⟨unused, written⟩
    · exact .inl fails
    · exact .inr ⟨Nat.eq_zero_of_le_zero (unused ▸ fewer), written⟩
  | closed closing => exact whole id connection found (by rw [closing]; rfl)

theorem leftWhole (initial : e.config 0 = ⟨.empty, []⟩) (n : Nat) : LeftWhole e n := by
  induction n with
  | zero =>
    intro id connection found
    rw [initial] at found
    cases found
  | succ n ih =>
    intro id connection found dying
    have counts := counted initial n
    have framed := (streams initial n).framed
    cases taken : e.move n with
    | none =>
      rw [e.idle taken] at found
      exact ih id connection found dying
    | some move =>
      have moves := e.moves taken
      generalize after : e.config (n + 1) = d at moves found
      generalize before : e.config n = c at moves counts framed
      cases moves with
      | start allowed => exact ih id connection (by rw [before]; exact found) dying
      | @step peers later earlier rest new call next input stepped =>
        obtain ⟨advanced, rfl⟩ := sendRemote_step stepped
        have advances := Call.advances_of_advance advanced
        rcases Counted.status_before advances (Peers.status_of_getElem? found) with former | ⟨rfl, -, rfl, -⟩
        · obtain ⟨old, there, -, writer⟩ := Peers.exists_of_status former
          have here : (e.config n).shared.connections[id]? = some old := by rw [before]; exact there
          rcases ih id old here (by rw [writer]; exact dying) with fails | ⟨unused, written⟩
          · exact .inl fails
          · have same := untouched counts (by simp) advances there unused
            cases same.symm.trans found
            exact .inr ⟨unused, written⟩
        · rw [peers.getElem?_connected_length] at found
          cases found
          cases dying
      | @ambient peers later threads operation done =>
        obtain ⟨other, io⟩ := operation
        by_cases own : other = id
        · subst own
          obtain ⟨old, now, there, here, turns⟩ := Peers.turns_of_write done
          cases found.symm.trans here
          have here : (e.config n).shared.connections[other]? = some old := by rw [before]; exact there
          exact left_turn ih (framed old (List.mem_of_getElem? there)) here taken turns dying
        · obtain ⟨serving, served, writes⟩ := Peers.writes_of_write done
          have status := (Counted.status_write served writes).mp ⟨_, Peers.status_of_getElem? found⟩
          obtain ⟨former, status⟩ := status
          obtain ⟨old, there, -, -⟩ := Peers.exists_of_status status
          obtain ⟨senders, fewer, here⟩ := Peers.write_elsewhere writes own there
          cases found.symm.trans here
          rcases ih id old (by rw [before]; exact there) dying with fails | ⟨unused, written⟩
          · exact .inl fails
          · exact .inr ⟨Nat.eq_zero_of_le_zero (unused ▸ fewer), written⟩

theorem turns_next {n id : Nat} {io : WriteIo} (taken : e.move n = some (.ambient (id, io))) :
    ∃ connection now, (e.config n).shared.connections[id]? = some connection ∧
      (e.config (n + 1)).shared.connections[id]? = some now ∧ connection.Turns io now := by
  have moves := e.moves taken
  generalize e.config (n + 1) = d at moves
  generalize e.config n = c at moves
  cases moves with
  | ambient done => exact Peers.turns_of_write done

/-- Twice the bytes that are missing, and the writer's way to the next frame. -/
def toWrite (target : Bytes) (connection : Connection) : Nat :=
  2 * (target.length - connection.written.length) + if connection.writer = .receiving then 1 else 0

theorem toWrite_le (target : Bytes) (connection : Connection) :
    toWrite target connection ≤ 2 * (target.length - connection.written.length) + 1 := by
  unfold toWrite
  split <;> omega

theorem toWrite_turns {target : Bytes} {connection now : Connection} {io : WriteIo} (turns : connection.Turns io now)
    (missing : connection.written.length < target.length) (alive : connection.writer.dying = false)
    (still : now.writer.dying = false) : toWrite target now < toWrite target connection := by
  cases turns with
  | took receiving queued =>
    simp only [toWrite, receiving, if_true, reduceCtorEq, if_false]
    omega
  | drained receiving empty unused => cases still
  | @wrote left count writing some inside =>
    refine Nat.lt_of_le_of_lt (toWrite_le target _) (Nat.lt_of_lt_of_le ?_ (Nat.le_add_right _ _))
    rw [List.length_append, List.length_take, Nat.min_eq_left inside]
    omega
  | broke writing => cases still
  | removed leaving fewer =>
    rw [leaving] at alive
    cases alive
  | closed closing =>
    rw [closing] at alive
    cases alive

/-- Everything of it is on the wire, or the writer has left the queue. -/
def WroteOrLeft (target : Bytes) (id : Nat) (c : Config Peers Call) : Prop :=
  ∃ now, c.shared.connections[id]? = some now ∧ (target <+: now.written ∨ now.writer.dying = true)

variable {start id : Nat} {connection : Connection}

/-- Before that, bytes are missing and the writer has something to do. -/
theorem missing (initial : e.config 0 = ⟨.empty, []⟩)
    (found : (e.config start).shared.connections[id]? = some connection)
    {n : Nat} (later : start ≤ n)
    (early : ¬ WroteOrLeft (protocolVersion :: frames connection.accepted) id (e.config n)) :
    ∃ now, (e.config n).shared.connections[id]? = some now ∧ now.writer.dying = false ∧
      now.written.length < (protocolVersion :: frames connection.accepted).length ∧
      (now.writer = .receiving → now.queue ≠ []) := by
  obtain ⟨now, here, grown, -⟩ := connection_later found later
  have framed := (streams initial n).framed now (List.mem_of_getElem? here)
  have unfinished : ¬ protocolVersion :: frames connection.accepted <+: now.written := fun whole =>
    early ⟨now, here, .inl whole⟩
  have target : protocolVersion :: frames connection.accepted <+: protocolVersion :: frames now.accepted := by
    obtain ⟨more, same⟩ := grown
    rw [← same, frames_append]
    exact List.prefix_append (protocolVersion :: frames connection.accepted) (frames more)
  refine ⟨now, here, ?_, ?_, ?_⟩
  · by_contra dying
    exact early ⟨now, here, .inr (eq_true_of_ne_false dying)⟩
  · by_contra enough
    obtain ⟨body, written, inside⟩ := framed.exists_body
    have onWire : now.written <+: protocolVersion :: frames now.accepted := by
      rw [written]
      exact (List.prefix_cons_inj _).mpr inside
    exact unfinished (List.prefix_of_prefix_length_le target onWire (Nat.not_lt.mp enough))
  · intro receiving empty
    rw [framed.whole receiving empty] at unfinished
    exact unfinished target

theorem eventually_wroteOrLeft (initial : e.config 0 = ⟨.empty, []⟩) (writers : WritersFair e)
    (found : (e.config start).shared.connections[id]? = some connection) :
    ∃ n, start ≤ n ∧ WroteOrLeft (protocolVersion :: frames connection.accepted) id (e.config n) := by
  have moved : ∀ n now next, (e.config n).shared.connections[id]? = some now →
      (e.config (n + 1)).shared.connections[id]? = some next →
      ¬ WroteOrLeft (protocolVersion :: frames connection.accepted) id (e.config (n + 1)) →
        next.writer.dying = false := by
    intro n now next here after early
    by_contra dying
    exact early ⟨next, after, .inr (eq_true_of_ne_false dying)⟩
  apply e.reaches_on (writers id) _ fun c =>
    ((c.shared.connections[id]?).map (toWrite (protocolVersion :: frames connection.accepted))).getD 0
  · intro n later early
    obtain ⟨now, here, alive, -, ready⟩ := missing initial found later early
    refine ⟨_, ⟨.failed, rfl⟩, ?_⟩
    have possible := Peers.exists_write now here ready (by rintro finished; rw [finished] at alive; cases alive)
    obtain ⟨peers, wrote⟩ := Option.isSome_iff_exists.mp possible
    show (Option.map _ ((e.config n).shared.write id .failed)).isSome = true
    rw [wrote]
    rfl
  · intro n later early still
    obtain ⟨now, here, alive, less, -⟩ := missing initial found later early
    obtain ⟨next, after, fills | ⟨io, -, turns⟩⟩ := connection_next here
    · rw [here, after]
      show toWrite _ next ≤ toWrite _ now
      rw [toWrite, toWrite, fills.writer, fills.written]
    · rw [here, after]
      exact (toWrite_turns turns less alive (moved n now next here after still)).le
  · rintro n _ later early still ⟨io, rfl⟩ taken
    obtain ⟨now, here, alive, less, -⟩ := missing initial found later early
    obtain ⟨same, next, there, after, turns⟩ := turns_next taken
    cases here.symm.trans there
    rw [here, after]
    exact toWrite_turns turns less alive (moved n now next here after still)

/-- A writer that has left the queue has written what the queue accepted before, or a write has failed. -/
theorem written_of_dying (initial : e.config 0 = ⟨.empty, []⟩)
    (found : (e.config start).shared.connections[id]? = some connection) {n : Nat} {now : Connection}
    (later : start ≤ n)
    (here : (e.config n).shared.connections[id]? = some now) (dying : now.writer.dying = true) :
    (∃ m, WriteFails e id m) ∨ protocolVersion :: frames connection.accepted <+: now.written := by
  rcases leftWhole initial n id now here dying with fails | ⟨-, written⟩
  · exact .inl fails
  · obtain ⟨same, there, ⟨more, whole⟩, -⟩ := connection_later found later
    cases here.symm.trans there
    rw [written, ← whole, frames_append]
    exact .inr (List.prefix_append (protocolVersion :: frames connection.accepted) (frames more))

end Writing

/-- In an execution in which the writer tasks get their turns, everything that a
    connection has accepted is written in the end, unless one of its writes fails. -/
theorem accepted_frames_are_written {e : sendRemote.Execution} (initial : e.config 0 = ⟨.empty, []⟩)
    (writers : WritersFair e) {start id : Nat} {connection : Connection}
    (found : (e.config start).shared.connections[id]? = some connection) :
    (∃ n now, start ≤ n ∧ (e.config n).shared.connections[id]? = some now ∧
      protocolVersion :: frames connection.accepted <+: now.written) ∨ ∃ n, WriteFails e id n := by
  obtain ⟨n, later, now, here, wrote | dying⟩ := Writing.eventually_wroteOrLeft initial writers found
  · exact .inl ⟨n, now, later, here, wrote⟩
  · rcases Writing.written_of_dying initial found later here dying with fails | wrote
    · exact .inr fails
    · exact .inl ⟨n, now, later, here, wrote⟩

def sendWhole : List (Move Call Io (Nat × WriteIo)) :=
  [.start ⟨⟨"node:9000", 7, [42], 1024⟩, false, [], .check⟩, .step 0 .done, .step 0 .done, .step 0 .done,
    .step 0 .done, .step 0 .done, .step 0 .done, .ambient (0, .wrote 0), .ambient (0, .wrote 9), .ambient (0, .wrote 5)]

theorem not_can_of_returned {c : Config Peers Call}
    (returned : ∀ call ∈ c.threads, ∃ result, call.stage = .returned result) (index : Nat) :
    ¬ sendRemote.Can index c := by
  rintro ⟨input, possible⟩
  obtain ⟨d, taken⟩ := Option.isSome_iff_exists.mp possible
  have moves := sendRemote.moves_of_step taken
  generalize same : Move.step index input = move at moves
  cases moves with
  | step stepped =>
    obtain ⟨advanced, -⟩ := sendRemote_step stepped
    obtain ⟨result, stage⟩ := returned _ (List.mem_append_right _ List.mem_cons_self)
    unfold Call.advance at advanced
    rw [stage] at advanced
    cases advanced
  | _ => cases same

theorem stuck_of_write {c : Config Peers Call} {id : Nat} (stuck : ∀ io, c.shared.write id io = none)
    (move : Move Call Io (Nat × WriteIo)) (own : ∃ io, move = .ambient (id, io)) :
    (sendRemote.machine.step c move).isSome = false := by
  obtain ⟨io, rfl⟩ := own
  show (Option.map _ (c.shared.write id io)).isSome = false
  rw [stuck io]
  rfl

theorem exists_of_sendWhole : ∃ d, sendRemote.machine.run ⟨.empty, []⟩ sendWhole = some d ∧
    (∀ call ∈ d.threads, ∃ result, call.stage = .returned result) ∧ ∀ id io, d.shared.write id io = none := by
  refine ⟨_, rfl, ?_, ?_⟩
  · exact List.forall_mem_singleton.mpr ⟨_, rfl⟩
  · intro id io
    cases id with
    | zero => rfl
    | succ id => rfl

theorem accepted_frames_are_written_sendWhole :
    ∃ (e : sendRemote.Execution) (connection : Connection), e.config 0 = ⟨.empty, []⟩ ∧
      (e.config 7).shared.connections[0]? = some connection ∧ connection.written = [protocolVersion] ∧
      ((∃ n now, 7 ≤ n ∧ (e.config n).shared.connections[0]? = some now ∧
        protocolVersion :: frames connection.accepted <+: now.written) ∨ ∃ n, WriteFails e 0 n) := by
  obtain ⟨d, reached, -, stuck⟩ := exists_of_sendWhole
  have writers : WritersFair (Execution.ofRun sendRemote reached) := fun id =>
    Execution.ofRun_fairOn reached (stuck_of_write (stuck id))
  exact ⟨.ofRun sendRemote reached, _, rfl, rfl, rfl, accepted_frames_are_written rfl writers rfl⟩

end Myrmidon.Network
