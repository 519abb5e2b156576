import Mathlib.Data.List.Nodup
import Myrmidon.Network.Framing

namespace Myrmidon.Network

open Data Transition

/-- Every frame in a queue is that of a call that returned `Ok`, once. -/
structure Accounted (c : Config Peers Call) : Prop where
  framed : c.shared.Framed
  checked : ∀ call ∈ c.threads, call.Checked
  placed : ∀ id, (c.shared.history.map Envelope.call).count id = (c.threads[id]?.map Call.placed).getD 0
  sent : ∀ envelope ∈ c.shared.history, ∃ call, c.threads[envelope.call]? = some call ∧
    envelope.frame = call.frame ∧ call.request.data.length ≤ call.request.maxPayload
  limited : ∀ call ∈ c.threads, call.request.maxPayload < 2^32

def Limited (_ : Config Peers Call) : Move Call Io (Nat × WriteIo) → Prop
  | .start call => call.request.maxPayload < 2^32
  | _ => True

theorem Call.Checked.within_of_placed {call : Call} (checked : call.Checked) (placed : call.placed = 1) :
    call.request.data.length ≤ call.request.maxPayload := by
  unfold Call.placed at placed
  unfold Call.Checked at checked
  split at placed
  · rename_i returned
    rw [returned] at checked
    exact checked
  · cases placed

theorem accounted_start {peers : Peers} {calls : List Call} {call : Call} (new : call.isNew = true)
    (limited : call.request.maxPayload < 2^32) (old : Accounted ⟨peers, calls⟩) :
    Accounted ⟨peers, calls ++ [call]⟩ := by
  have stage := (Call.idle_of_isNew new).2
  refine ⟨old.framed, ?_, ?_, ?_, ?_⟩
  · rw [List.forall_mem_append, List.forall_mem_singleton, Call.Checked, stage]
    exact ⟨old.checked, trivial⟩
  · intro id
    rw [old.placed id]
    by_cases inside : id < calls.length
    · rw [List.getElem?_append_left inside]
    · rw [List.getElem?_append_right (Nat.not_lt.mp inside), List.getElem?_eq_none (Nat.not_lt.mp inside)]
      cases id - calls.length with
      | zero =>
        simp only [List.getElem?_cons_zero, Option.map_some, Option.map_none, Call.placed, stage]
        rfl
      | succ index => rfl
  · intro envelope member
    obtain ⟨sender, found, rest⟩ := old.sent envelope member
    have inside := (List.getElem?_eq_some_iff.mp found).1
    exact ⟨sender, by rw [List.getElem?_append_left inside]; exact found, rest⟩
  · rw [List.forall_mem_append, List.forall_mem_singleton]
    exact ⟨old.limited, limited⟩

theorem accounted_quiet {peers later : Peers} {calls : List Call} (quiet : Peers.Quiet peers later)
    (old : Accounted ⟨peers, calls⟩) : Accounted ⟨later, calls⟩ := by
  refine ⟨quiet.framed old.framed, old.checked, ?_, ?_, old.limited⟩
  · intro id
    rw [quiet.history]
    exact old.placed id
  · rw [quiet.history]
    exact old.sent

/-- The frames queued so far are those of calls whose requests do not change. -/
theorem Accounted.sent_replace {peers : Peers} {before after : List Call} {call next : Call}
    (old : Accounted ⟨peers, before ++ call :: after⟩) (request : next.request = call.request) :
    ∀ envelope ∈ peers.history, ∃ other, (before ++ next :: after)[envelope.call]? = some other ∧
      envelope.frame = other.frame ∧ other.request.data.length ≤ other.request.maxPayload := by
  intro envelope member
  obtain ⟨other, found, frame, within⟩ := old.sent envelope member
  rw [Program.getElem?_replace before after call next]
  split
  · rename_i mine
    rw [mine] at found
    have same : call = other := by simpa using found
    subst same
    refine ⟨next, rfl, ?_, ?_⟩
    · rw [frame, Call.frame, Call.frame, request]
    · rw [request]
      exact within
  · exact ⟨other, found, frame, within⟩

/-- What the stepping call has queued, counted from what it had queued before. -/
theorem Accounted.placed_replace {peers : Peers} {before after : List Call} {call : Call}
    (old : Accounted ⟨peers, before ++ call :: after⟩) (unplaced : call.placed = 0) (next : Call) (id : Nat) :
    ((before ++ next :: after)[id]?.map Call.placed).getD 0 =
      (peers.history.map Envelope.call).count id + if before.length = id then next.placed else 0 := by
  have count := old.placed id
  dsimp only at count
  rw [count, Program.getElem?_replace before after call next]
  by_cases mine : id = before.length
  · subst mine
    simp [unplaced]
  · rw [if_neg mine, if_neg (Ne.symm mine), Nat.add_zero]

theorem accounted_step {peers later : Peers} {before after : List Call} {call next : Call}
    (steps : Call.Steps before.length peers later call next) (old : Accounted ⟨peers, before ++ call :: after⟩) :
    Accounted ⟨later, before ++ next :: after⟩ := by
  have present : call ∈ before ++ call :: after := List.mem_append_right _ List.mem_cons_self
  have sent := old.sent_replace steps.request
  have placed := old.placed_replace steps.unplaced next
  have checked := Program.forall_replace old.checked steps.checked
  have limited := Program.forall_replace old.limited (steps.request ▸ old.limited call present)
  rcases steps.effect with ⟨quiet, none⟩ | ⟨queues, one⟩
  · refine ⟨quiet.framed old.framed, checked, ?_, ?_, limited⟩
    · intro id
      dsimp only
      rw [quiet.history, placed, none, ite_self, Nat.add_zero]
    · rw [quiet.history]
      exact sent
  · refine ⟨queues.framed old.framed, checked, ?_, ?_, limited⟩
    · intro id
      dsimp only
      rw [queues.count, placed, one]
    · intro envelope member
      rcases queues.mem member with rfl | member
      · have within := steps.checked.within_of_placed one
        refine ⟨next, ?_, ?_, within⟩
        · rw [Program.getElem?_replace before after call next, if_pos rfl]
        · rw [Call.frame, Call.frame, steps.request]
      · exact sent envelope member

theorem accounted_move {c d : Config Peers Call} {move : Move Call Io (Nat × WriteIo)} (old : Accounted c)
    (limited : Limited c move) (moves : sendRemote.Moves c move d) : Accounted d := by
  cases moves with
  | start allowed => exact accounted_start allowed limited old
  | @step shared later before after new call next input stepped =>
    obtain ⟨⟨peers, call⟩, advanced, same⟩ := Option.map_eq_some_iff.mp stepped
    cases same
    rw [List.append_nil]
    have present := old.checked _ (List.mem_append_right _ List.mem_cons_self)
    exact accounted_step ((Call.advances_of_advance advanced).steps present) old
  | ambient done =>
    obtain ⟨connection, found, writes⟩ := Peers.writes_of_write done
    exact accounted_quiet (writes.quiet found) old

theorem accounted_empty : Accounted ⟨.empty, []⟩ := by
  constructor <;> simp [Peers.empty, Peers.Framed, Peers.history]

theorem run_accounted {moves : List (Move Call Io (Nat × WriteIo))} {d : Config Peers Call}
    (limited : ∀ call, Move.start call ∈ moves → call.request.maxPayload < 2^32)
    (reached : sendRemote.machine.run ⟨.empty, []⟩ moves = some d) : Accounted d := by
  have meets : sendRemote.machine.Meets Limited ⟨.empty, []⟩ moves := by
    apply Machine.meets_of_forall
    intro move member c
    cases move with
    | start call => exact limited call member
    | step index input => trivial
    | ambient operation => trivial
  exact sendRemote.run_invariant_of_meets (fun c move d old held => accounted_move old held) accounted_empty meets reached

def wide : Server := ⟨2^32, 2^32, fun _ _ => none⟩

theorem valid_wide {server : Server} {frame : Frame} (valid : frame.Valid server) : frame.Valid wide := by
  cases frame with
  | user pid payload => exact ⟨Nat.le_of_lt valid.2, valid.2⟩
  | resolve name => exact ⟨Nat.le_of_lt valid.2, valid.2⟩
  | ping => trivial

theorem handleConnection_of_prefix (server : Server) {r : Reader} {sent : List Frame}
    (fits : ∀ frame ∈ sent, frame.Valid wide) (cut : r.bytes <+: protocolVersion :: encodeAll sent) :
    ∃ count, (handleConnection server r).1 = effects server 0 (sent.take count) := by
  by_cases version : r.bytes.head? = some protocolVersion
  · obtain ⟨got, tail, result, parsed, ends⟩ := parsed_exists server r.ending version
    obtain ⟨more, whole⟩ := cut
    rw [parsed.split, List.cons_append, List.append_assoc] at whole
    have same : encodeAll got ++ (tail ++ more) = encodeAll sent ++ [] := by
      rw [List.append_nil]
      exact (List.cons.inj whole).2
    have atEnd : Ends wide .closed [] (.ok ()) := .boundary
    have shorter := longest_of_ends atEnd fits (fun frame member => valid_wide (parsed.valid frame member)) same
    refine ⟨got.length, ?_⟩
    rw [handleConnection_of_frames parsed.valid parsed.split ends, ← List.prefix_iff_eq_take.mp shorter]
  · exact ⟨0, by rw [handleConnection_of_version version, List.take_zero]; rfl⟩

def sentBy (calls : List Call) (id : Nat) : Option Effect :=
  calls[id]?.map fun call => .send call.request.pid (.user call.request.data)

theorem exists_user_frames (calls : List Call) {envelopes : List Envelope}
    (sent : ∀ envelope ∈ envelopes, ∃ call, calls[envelope.call]? = some call ∧
      envelope.frame = call.frame ∧ call.request.data.length < 2^32) :
    ∃ users : List Frame, frames envelopes = encodeAll users ∧ (∀ frame ∈ users, frame.Valid wide) ∧
      ∀ server served count, (effects server served (users.take count)).map some =
        ((envelopes.map Envelope.call).take count).map (sentBy calls) := by
  induction envelopes with
  | nil => exact ⟨[], rfl, by simp, by simp [effects]⟩
  | cons envelope envelopes ih =>
    obtain ⟨call, found, frame, small⟩ := sent envelope List.mem_cons_self
    obtain ⟨users, bytes, fits, later⟩ := ih fun other member => sent other (List.mem_cons_of_mem _ member)
    have wire : envelope.frame = (Frame.user call.request.pid call.request.data).encode := by
      rw [frame, Call.frame, userWire, asU32_of_lt small, Frame.encode]
    refine ⟨.user call.request.pid call.request.data :: users, ?_, ?_, ?_⟩
    · rw [frames, encodeAll, List.flatMap_cons, List.flatMap_cons, wire]
      exact congrArg _ bytes
    · exact List.forall_mem_cons.mpr ⟨⟨Nat.le_of_lt small, small⟩, fits⟩
    · intro server served count
      cases count with
      | zero => simp [effects]
      | succ count =>
        simp only [List.take_succ_cons, List.map_cons, effects, later, Frame.effect, sentBy, found, Option.map_some]

theorem mapIdx_take_sublist {α β : Type*} (source : α → List β) (counts : Nat → Nat) (items : List α) :
    (items.mapIdx fun index item => (source item).take (counts index)).flatten.Sublist (items.flatMap source) := by
  induction items generalizing counts with
  | nil => exact List.Sublist.refl _
  | cons item items ih =>
    rw [List.mapIdx_cons, List.flatten_cons, List.flatMap_cons]
    exact (List.take_sublist _ _).append (ih fun index => counts (index + 1))

theorem Accounted.small {c : Config Peers Call} (accounted : Accounted c) {envelope : Envelope}
    (member : envelope ∈ c.shared.history) : ∃ call, c.threads[envelope.call]? = some call ∧
      envelope.frame = call.frame ∧ call.request.data.length < 2^32 := by
  obtain ⟨call, found, frame, within⟩ := accounted.sent envelope member
  have limit := accounted.limited call (List.mem_of_getElem? found)
  exact ⟨call, found, frame, Nat.lt_of_le_of_lt within limit⟩

theorem mem_history {peers : Peers} {connection : Connection} (present : connection ∈ peers.connections)
    {envelope : Envelope} (member : envelope ∈ connection.accepted) : envelope ∈ peers.history :=
  List.mem_flatMap.mpr ⟨connection, present, member⟩

theorem Accounted.nodup {c : Config Peers Call} (accounted : Accounted c) :
    (c.shared.connections.flatMap fun connection => connection.accepted.map Envelope.call).Nodup := by
  rw [← List.map_flatMap, List.nodup_iff_count_le_one]
  intro id
  have count := accounted.placed id
  rw [Peers.history] at count
  rw [count]
  cases c.threads[id]? with
  | none => exact Nat.zero_le _
  | some call =>
    rw [Option.map_some, Option.getD_some]
    unfold Call.placed
    split
    · exact Nat.le_refl _
    · exact Nat.zero_le _

theorem Accounted.received {c : Config Peers Call} (accounted : Accounted c) {connection : Connection}
    (present : connection ∈ c.shared.connections) (server : Server) {r : Reader} (seen : r.bytes <+: connection.written) :
    (handleConnection server r).1.map some =
      ((connection.accepted.map Envelope.call).take (handleConnection server r).1.length).map (sentBy c.threads) := by
  obtain ⟨users, bytes, fits, later⟩ := exists_user_frames c.threads
    fun envelope member => accounted.small (mem_history present member)
  obtain ⟨body, written, inside⟩ := (accounted.framed connection present).exists_body
  have cut : r.bytes <+: protocolVersion :: encodeAll users := by
    rw [written] at seen
    rw [← bytes]
    exact seen.trans ((List.prefix_cons_inj _).mpr inside)
  obtain ⟨count, effects⟩ := handleConnection_of_prefix server fits cut
  have delivered := later server 0 count
  have length := congrArg List.length delivered
  rw [List.length_map, List.length_map, List.length_take] at length
  rw [effects, delivered, length, List.take_eq_take_min]

/-- Remote sends are framed atomically and delivered at most once: over every interleaving of the callers
    with the writer tasks, and whatever part of each stream the receiving connections see. -/
theorem remote_sends_framed_at_most_once {moves : List (Move Call Io (Nat × WriteIo))} {d : Config Peers Call}
    (limited : ∀ call, Move.start call ∈ moves → call.request.maxPayload < 2^32)
    (reached : sendRemote.machine.run ⟨.empty, []⟩ moves = some d) :
    -- A call that returned `Ok` has its frame in exactly one queue, one that failed in none.
    (∀ id call, d.threads[id]? = some call →
      (call.stage = .returned (.ok ()) → (d.shared.history.map Envelope.call).count id = 1) ∧
      (∀ error, call.stage = .returned (.error error) → (d.shared.history.map Envelope.call).count id = 0)) ∧
    -- Each stream is the version byte and whole frames in queue order, but for a part of the last.
    (∀ connection ∈ d.shared.connections, ∃ whole rest part, connection.accepted = whole ++ rest ∧
      connection.written = protocolVersion :: (frames whole ++ part) ∧
      (part = [] ∨ ∃ envelope, rest.head? = some envelope ∧ part <+: envelope.frame) ∧
      ∀ envelope ∈ connection.accepted, ∃ call, d.threads[envelope.call]? = some call ∧
        sendFrame call.request.maxPayload call.request.pid call.request.data = .ok envelope.frame) ∧
    -- The receivers deliver distinct calls, bit for bit, in queue order on each connection.
    (∀ (servers : Nat → Server) (readers : Nat → Reader),
      (∀ index connection, d.shared.connections[index]? = some connection →
        (readers index).bytes <+: connection.written) →
      ∃ delivered : List (List Nat), delivered.length = d.shared.connections.length ∧ delivered.flatten.Nodup ∧
        ∀ index connection ids, d.shared.connections[index]? = some connection → delivered[index]? = some ids →
          ids <+: connection.accepted.map Envelope.call ∧
          (handleConnection (servers index) (readers index)).1.map some = ids.map (sentBy d.threads)) := by
  have accounted := run_accounted limited reached
  refine ⟨?_, ?_, ?_⟩
  · intro id call found
    have count := accounted.placed id
    rw [found, Option.map_some, Option.getD_some, Call.placed] at count
    constructor
    · intro returned
      rw [count, returned]
    · intro error returned
      rw [count, returned]
  · intro connection present
    obtain ⟨body, written, inside⟩ := (accounted.framed connection present).exists_body
    obtain ⟨whole, rest, part, split, rfl, last⟩ := exists_whole_frames connection.accepted inside
    refine ⟨whole, rest, part, split, written, last, ?_⟩
    intro envelope member
    obtain ⟨call, found, frame, within⟩ := accounted.sent envelope (mem_history present member)
    refine ⟨call, found, ?_⟩
    rw [sendFrame, if_neg (Nat.not_lt.mpr within), frame, Call.frame]
  · intro servers readers seen
    refine ⟨d.shared.connections.mapIdx fun index connection => (connection.accepted.map Envelope.call).take
      (handleConnection (servers index) (readers index)).1.length, List.length_mapIdx, ?_, ?_⟩
    · apply List.Nodup.sublist _ accounted.nodup
      exact mapIdx_take_sublist (fun connection : Connection => connection.accepted.map Envelope.call)
        (fun index => (handleConnection (servers index) (readers index)).1.length) d.shared.connections
    · intro index connection ids found taken
      rw [List.getElem?_mapIdx, found, Option.map_some] at taken
      cases taken
      refine ⟨List.take_prefix _ _, ?_⟩
      exact accounted.received (List.mem_of_getElem? found) (servers index) (seen index connection found)

def singleSend : List (Move Call Io (Nat × WriteIo)) :=
  [.start ⟨⟨"node:9000", 7, [42], 1024⟩, false, [], .check⟩, .step 0 .done, .step 0 .done, .step 0 .done,
    .step 0 .done, .step 0 .done, .step 0 .done, .ambient (0, .wrote 0), .ambient (0, .wrote 9), .ambient (0, .failed)]

theorem remote_sends_framed_singleSend : ∃ d, sendRemote.machine.run ⟨.empty, []⟩ singleSend = some d ∧
    (d.shared.history.map Envelope.call).count 0 = 1 := by
  have limited : ∀ call, Move.start call ∈ singleSend → call.request.maxPayload < 2^32 := by
    simp [singleSend]
  exact ⟨_, rfl, ((remote_sends_framed_at_most_once limited rfl).1 0 _ rfl).1 rfl⟩

end Myrmidon.Network
