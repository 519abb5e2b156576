import Myrmidon.Network.Delivery
import Myrmidon.Network.Idle
import Myrmidon.Network.Returning

namespace Myrmidon.Network

open Data Transition Program

theorem le_wholeFrames {frames : List Frame} {room count : Nat}
    (inside : (encodeAll (frames.take count)).length ≤ room) :
    min count frames.length ≤ wholeFrames room frames := by
  induction frames generalizing room count with
  | nil => simp [wholeFrames]
  | cons frame frames ih =>
    cases count with
    | zero => simp
    | succ count =>
      have longer : (encodeAll ((frame :: frames).take (count + 1))).length =
          frame.encode.length + (encodeAll (frames.take count)).length := by
        rw [List.take_succ_cons, encodeAll, encodeAll, List.flatMap_cons, List.length_append]
      rw [longer] at inside
      have rest : min count frames.length ≤ wholeFrames (room - frame.encode.length) frames := ih (by omega)
      unfold wholeFrames
      rw [if_pos (by omega), List.length_cons]
      omega

/-- The queued frames, as the receiving node reads them. -/
theorem exists_users {server : Server} (calls : List Call) {envelopes : List Envelope}
    (sent : ∀ envelope ∈ envelopes, ∃ call, calls[envelope.call]? = some call ∧ envelope.frame = call.frame ∧
      call.request.data.length ≤ server.maxPayload ∧ call.request.data.length < 2^32) :
    ∃ users : List Frame, users.length = envelopes.length ∧ (∀ frame ∈ users, frame.Valid server) ∧
      ∀ count, frames (envelopes.take count) = encodeAll (users.take count) ∧
        ∀ served, (effects server served (users.take count)).map some =
          ((envelopes.map Envelope.call).take count).map (sentBy calls) := by
  induction envelopes with
  | nil => exact ⟨[], rfl, by simp, by simp [frames, encodeAll, effects]⟩
  | cons envelope envelopes ih =>
    obtain ⟨call, found, frame, fits, small⟩ := sent envelope List.mem_cons_self
    obtain ⟨users, length, valid, read⟩ := ih fun other member => sent other (List.mem_cons_of_mem _ member)
    have wire : envelope.frame = (Frame.user call.request.pid call.request.data).encode := by
      rw [frame, Call.frame, userWire, asU32_of_lt small, Frame.encode]
    refine ⟨.user call.request.pid call.request.data :: users, ?_, ?_, ?_⟩
    · rw [List.length_cons, List.length_cons, length]
    · exact List.forall_mem_cons.mpr ⟨⟨fits, small⟩, valid⟩
    · intro count
      cases count with
      | zero => exact ⟨rfl, fun served => rfl⟩
      | succ count =>
        constructor
        · rw [List.take_succ_cons, List.take_succ_cons, frames, encodeAll, List.flatMap_cons, List.flatMap_cons, wire]
          exact congrArg _ (read count).1
        · intro served
          simp only [List.take_succ_cons, List.map_cons, effects, (read count).2, Frame.effect, sentBy, found,
            Option.map_some]

/-- The messages that a server gets are those of different calls, this one among them. -/
def Gets (calls : List Call) (self : Nat) (effects : List Effect) : Prop :=
  ∃ ids : List Nat, self ∈ ids ∧ ids.Nodup ∧ effects.map some = ids.map (sentBy calls)

theorem gets_of_written {c : Config Peers Call} (accounted : Accounted c) {limit : Nat}
    (limits : ∀ call ∈ c.threads, call.request.maxPayload ≤ limit) {id self : Nat} {connection : Connection}
    (found : c.shared.connections[id]? = some connection) {frame : Bytes} {before after : List Envelope}
    (split : connection.accepted = before ++ ⟨self, frame⟩ :: after)
    (written : protocolVersion :: (frames before ++ frame) <+: connection.written) {server : Server}
    (wider : limit ≤ server.maxPayload) {r : Reader} (reads : r.bytes = connection.written) :
    Gets c.threads self (handleConnection server r).1 := by
  have present := List.mem_of_getElem? found
  have sent : ∀ envelope ∈ connection.accepted, ∃ call, c.threads[envelope.call]? = some call ∧
      envelope.frame = call.frame ∧ call.request.data.length ≤ server.maxPayload ∧ call.request.data.length < 2^32 := by
    intro envelope member
    obtain ⟨call, found, frame, within⟩ := accounted.sent envelope (mem_history present member)
    have mine := List.mem_of_getElem? found
    have less := accounted.limited call mine
    have bound := limits call mine
    exact ⟨call, found, frame, by omega, by omega⟩
  obtain ⟨users, length, valid, read⟩ := exists_users c.threads sent
  obtain ⟨body, stream, rest, whole⟩ := (accounted.framed connection present).exists_body
  have all : frames connection.accepted = encodeAll users := by
    have both := (read connection.accepted.length).1
    rwa [List.take_length, ← length, List.take_length] at both
  have cut : protocolVersion :: encodeAll users = r.bytes ++ rest := by
    rw [reads, stream, ← all, ← whole]
    rfl
  have heard := heard_of_prefix valid cut
  refine ⟨(connection.accepted.map Envelope.call).take (wholeFrames (r.bytes.length - 1) users), ?_, ?_, ?_⟩
  · have first : frames (connection.accepted.take (before.length + 1)) = frames before ++ frame := by
      rw [split, List.take_append, List.take_of_length_le (Nat.le_succ _), Nat.add_sub_cancel_left, frames_append]
      simp [frames]
    have room : (encodeAll (users.take (before.length + 1))).length ≤ r.bytes.length - 1 := by
      have shorter := written.length_le
      rw [List.length_cons] at shorter
      rw [← (read _).1, first, reads]
      omega
    have many := le_wholeFrames room
    have size : connection.accepted.length = before.length + (after.length + 1) := by
      rw [split, List.length_append, List.length_cons]
    have mine : (connection.accepted.map Envelope.call)[before.length]? = some self := by
      rw [split]
      simp
    apply List.mem_of_getElem? (i := before.length)
    rw [List.getElem?_take_of_lt (by omega)]
    exact mine
  · have distinct := accounted.nodup
    rw [List.nodup_flatMap] at distinct
    exact (distinct.1 connection present).sublist (List.take_sublist _ _)
  · rw [heard.effects]
    exact (read _).2 0

theorem Call.failed_of_advance {call next : Call} {self : Nat} {peers later : Peers} {io : Io} {error : IoError}
    (advanced : call.advance self peers io = some (later, next)) (failed : next.stage = .returned (.error error)) :
    (call.stage = .check ∧ call.request.maxPayload < call.request.data.length) ∨ (∃ reason, io = .failed reason) ∨
      ∃ id connection, call.stage = .send id ∧ peers.connections[id]? = some connection ∧
        connection.writer = .finished := by
  unfold advance at advanced
  cases stage : call.stage with
  | check =>
    rw [stage] at advanced
    dsimp only [sendFrame] at advanced
    split at advanced
    · rename_i refused
      split at refused
      · rename_i large
        exact .inl ⟨rfl, large⟩
      · cases refused
    · cases advanced
      cases failed
  | lookup =>
    rw [stage] at advanced
    dsimp only at advanced
    split at advanced <;> cases advanced <;> cases failed
  | send id =>
    rw [stage] at advanced
    dsimp only at advanced
    split at advanced
    · cases advanced
    · rename_i connection found
      split at advanced
      · rename_i ended
        exact .inr (.inr ⟨id, connection, rfl, found, ended⟩)
      · split at advanced <;> cases advanced
        cases failed
  | returned result =>
    rw [stage] at advanced
    cases advanced
  | insert id =>
    rw [stage] at advanced
    cases advanced
    cases failed
  | evict =>
    rw [stage] at advanced
    cases advanced
    cases failed
  | _ =>
    rw [stage] at advanced
    dsimp only at advanced
    cases io with
    | failed reason => exact .inr (.inl ⟨reason, rfl⟩)
    | done =>
      cases advanced
      cases failed

namespace Arriving

variable {e : sendRemote.Execution} {limit : Nat}

def Within (e : sendRemote.Execution) (limit : Nat) : Prop :=
  ∀ n call, e.move n = some (.start call) → call.request.maxPayload ≤ limit

theorem within (initial : e.config 0 = ⟨.empty, []⟩) (limits : Within e limit) (n : Nat) :
    ∀ call ∈ (e.config n).threads, call.request.maxPayload ≤ limit := by
  apply e.along (I := fun c => ∀ call ∈ c.threads, call.request.maxPayload ≤ limit) _ _ (Nat.zero_le n)
  · intro n move taken fit
    apply (e.moves taken).forall_threads fit
    · rintro call rfl -
      exact limits n call taken
    · intro index call input later next new fits stepped
      obtain ⟨advanced, rfl⟩ := sendRemote_step stepped
      rw [(Call.advances_of_advance advanced).request]
      exact ⟨fits, List.forall_mem_nil _⟩
  · rw [initial]
    exact List.forall_mem_nil _

theorem accounted (initial : e.config 0 = ⟨.empty, []⟩) (limits : Within e limit) (small : limit < 2^32) (n : Nat) :
    Accounted (e.config n) := by
  apply e.along _ _ (Nat.zero_le n)
  · intro n move taken accounted
    apply accounted_move accounted _ (e.moves taken)
    cases move with
    | start call => exact Nat.lt_of_le_of_lt (limits n call taken) small
    | _ => trivial
  · rw [initial]
    exact accounted_empty

/-- While no write fails, a writer does not leave before the last sender is dropped. -/
theorem writer_stays (initial : e.config 0 = ⟨.empty, []⟩) (wrote : ∀ id n, ¬ WriteFails e id n) {n self id : Nat}
    {call : Call} (found : (e.config n).threads[self]? = some call) (sending : call.stage = .send id)
    {connection : Connection} (there : (e.config n).shared.connections[id]? = some connection) :
    connection.writer.dying = false := by
  have counted := Writing.counted initial n
  have member := List.mem_of_getElem? found
  have holds := List.mem_of_mem_head? (counted.placed call member id (.inr sending))
  have positive := Writing.senders_of_held counted member holds there
  by_contra dying
  rcases Writing.leftWhole initial n id connection there (eq_true_of_ne_false dying) with ⟨m, fails⟩ | ⟨unused, -⟩
  · exact wrote id m fails
  · omega

theorem no_error (initial : e.config 0 = ⟨.empty, []⟩) (wrote : ∀ id n, ¬ WriteFails e id n) {start self : Nat}
    {call : Call} (called : (e.config start).threads[self]? = some call) (new : call.isNew = true)
    (fits : call.request.data.length ≤ call.request.maxPayload)
    (dialled : ∀ n reason, e.move n ≠ some (.step self (.failed reason))) {n : Nat} (later : start ≤ n) :
    ∃ now, (e.config n).threads[self]? = some now ∧ now.request = call.request ∧
      ∀ error, now.stage ≠ .returned (.error error) := by
  induction n, later using Nat.le_induction with
  | base =>
    refine ⟨call, called, rfl, fun error failed => ?_⟩
    rw [(Call.idle_of_isNew new).2] at failed
    cases failed
  | succ n later ih =>
    obtain ⟨now, here, request, fine⟩ := ih
    rcases e.thread_next here with ⟨io, next, started, taken, stepped, after⟩ | same
    · obtain ⟨advanced, rfl⟩ := sendRemote_step stepped
      refine ⟨next, after, (Call.advances_of_advance advanced).request.trans request, fun error failed => ?_⟩
      rcases Call.failed_of_advance advanced failed with ⟨-, large⟩ | ⟨reason, rfl⟩
        | ⟨id, connection, sending, there, ended⟩
      · rw [request] at large
        omega
      · exact dialled n reason taken
      · have stays := writer_stays initial wrote here sending there
        rw [ended] at stays
        cases stays
    · exact ⟨now, same, request, fine⟩

end Arriving

/-- From this moment on, a node that reads what is on the stream without a pause gets the
    message of the call, and each message once. -/
def Arrives (e : sendRemote.Execution) (limit self id start : Nat) : Prop :=
  (∃ now : Connection, (e.config start).shared.connections[id]? = some now) ∧
  ∀ (n : Nat) (now : Connection) (server : Server) (ioTimeoutMs : Nat) (s : TimedStream), start ≤ n →
    (e.config n).shared.connections[id]? = some now → limit ≤ server.maxPayload → s.bytes = now.written →
    s.Steady ioTimeoutMs → Gets (e.config n).threads self (handleConnection server (s.hear ioTimeoutMs)).1

/-- Between nodes with the same limits a message arrives, if nothing fails on the way. -/
theorem remote_message_arrives {e : sendRemote.Execution} (initial : e.config 0 = ⟨.empty, []⟩) (fair : e.StronglyFair)
    (writers : WritersFair e) {limit : Nat}
    (limits : ∀ n call, e.move n = some (.start call) → call.request.maxPayload ≤ limit)
    (small : limit < 2^32) (wrote : ∀ id n, ¬ WriteFails e id n) {start self : Nat} {call : Call}
    (called : (e.config start).threads[self]? = some call) (new : call.isNew = true)
    (fits : call.request.data.length ≤ call.request.maxPayload)
    (dialled : ∀ n reason, e.move n ≠ some (.step self (.failed reason))) :
    ∃ n last id m, start ≤ n ∧ (e.config n).threads[self]? = some last ∧ last.stage = .returned (.ok ()) ∧ n ≤ m ∧
      Arrives e limit self id m := by
  obtain ⟨n, last, later, found, -, result, stage⟩ :=
    Returning.eventually_returned initial fair writers called (Call.retriesOnce_of_isNew new)
  obtain ⟨same, there, -, fine⟩ := Arriving.no_error initial wrote called new fits dialled later
  cases found.symm.trans there
  cases result with
  | error error => exact absurd stage (fine error)
  | ok =>
    obtain ⟨id, connection, before, after, queued, split, ⟨m, now, much, here, written⟩ | ⟨m, fails⟩⟩ :=
      Returning.frame_written initial writers found stage
    · refine ⟨n, last, id, m, later, found, stage, much, ⟨now, here⟩, ?_⟩
      intro k latest server ioTimeoutMs s late present wider bytes steady
      obtain ⟨_, same, ⟨more, grown⟩, -⟩ := Writing.connection_later queued (Nat.le_trans much late)
      cases present.symm.trans same
      obtain ⟨_, same, -, further⟩ := Writing.connection_later here late
      cases present.symm.trans same
      rw [split, List.append_assoc] at grown
      obtain ⟨missed, heard, complete⟩ := s.hear_bytes ioTimeoutMs
      rw [complete.mpr steady, List.append_nil] at heard
      exact gets_of_written (Arriving.accounted initial limits small k) (Arriving.within initial limits k) present
        grown.symm (written.trans further) wider (heard.symm.trans bytes)
    · exact absurd fails (wrote id m)

theorem remote_message_arrives_sendWhole :
    ∃ e : sendRemote.Execution, e.config 0 = ⟨.empty, []⟩ ∧ ∃ n last id m, 1 ≤ n ∧
      (e.config n).threads[0]? = some last ∧
      last.stage = .returned (.ok ()) ∧ n ≤ m ∧ Arrives e 1024 0 id m := by
  obtain ⟨d, reached, returned, stuck⟩ := exists_of_sendWhole
  have fair := Execution.ofRun_stronglyFair reached (not_can_of_returned returned)
  have writers : WritersFair (Execution.ofRun sendRemote reached) := fun id =>
    Execution.ofRun_fairOn reached (stuck_of_write (stuck id))
  have taken : ∀ n move, (Execution.ofRun sendRemote reached).move n = some move → move ∈ sendWhole :=
    fun n move taken => List.mem_of_getElem? taken
  refine ⟨.ofRun sendRemote reached, rfl, remote_message_arrives rfl fair writers ?_ (by decide) ?_ rfl rfl ?_ ?_⟩
  · intro n call started
    have member := taken n _ started
    simp only [sendWhole, List.mem_cons, Move.start.injEq, reduceCtorEq, List.not_mem_nil, or_false] at member
    subst member
    exact Nat.le_refl _
  · rintro id n ⟨failed, -⟩
    have member := taken n _ failed
    simp [sendWhole] at member
  · decide
  · intro n reason failed
    have member := taken n _ failed
    simp [sendWhole] at member

end Myrmidon.Network
