import Myrmidon.Network.Peers

namespace Myrmidon.Network

open Data Transition

def frames (envelopes : List Envelope) : Bytes := envelopes.flatMap Envelope.frame

theorem frames_append (first second : List Envelope) : frames (first ++ second) = frames first ++ frames second :=
  List.flatMap_append

namespace Writer

def pending : Writer → Bytes
  | .writing left => left
  | _ => []

def dying : Writer → Bool
  | .leaving => true
  | .closing => true
  | .finished => true
  | _ => false

end Writer

/-- The frames taken from the queue are on the wire up to `cut`, which a live
    writer is still writing; the others wait in the queue. -/
structure Connection.Splits (connection : Connection) (taken rest : List Envelope) (cut : Bytes) : Prop where
  history : connection.accepted = taken ++ rest
  queued : connection.writer ≠ .finished → connection.queue = rest
  opened : connection.written ≠ []
  stream : connection.written ++ cut = protocolVersion :: frames taken
  live : connection.writer.dying = true ∨ cut = connection.writer.pending

def Connection.Framed (connection : Connection) : Prop := ∃ taken rest cut, connection.Splits taken rest cut

theorem Connection.Framed.exists_body {connection : Connection} (framed : connection.Framed) :
    ∃ body, connection.written = protocolVersion :: body ∧ body <+: frames connection.accepted := by
  obtain ⟨taken, rest, cut, splits⟩ := framed
  have stream := splits.stream
  cases written : connection.written with
  | nil => exact absurd written splits.opened
  | cons first body =>
    rw [written, List.cons_append] at stream
    obtain ⟨version, body'⟩ := List.cons.inj stream
    rw [version]
    refine ⟨body, rfl, cut ++ frames rest, ?_⟩
    rw [← List.append_assoc, body', splits.history, frames_append]

/-- A prefix of a sequence of frames is whole frames and at most one part of the next. -/
theorem exists_whole_frames (envelopes : List Envelope) {body : Bytes} (cut : body <+: frames envelopes) :
    ∃ whole rest part, envelopes = whole ++ rest ∧ body = frames whole ++ part ∧
      (part = [] ∨ ∃ envelope, rest.head? = some envelope ∧ part <+: envelope.frame) := by
  induction envelopes generalizing body with
  | nil => exact ⟨[], [], [], rfl, List.prefix_nil.mp cut, .inl rfl⟩
  | cons envelope envelopes ih =>
    have split : frames (envelope :: envelopes) = envelope.frame ++ frames envelopes := List.flatMap_cons
    rw [split] at cut
    rcases List.prefix_or_prefix_of_prefix cut (List.prefix_append _ _) with inside | ⟨later, rfl⟩
    · exact ⟨[], envelope :: envelopes, body, rfl, rfl, .inr ⟨envelope, rfl, inside⟩⟩
    · obtain ⟨whole, rest, part, rfl, rfl, last⟩ := ih ((List.prefix_append_right_inj _).mp cut)
      refine ⟨envelope :: whole, rest, part, rfl, ?_, last⟩
      rw [← List.append_assoc]
      rfl

namespace Peers

def history (peers : Peers) : List Envelope := peers.connections.flatMap Connection.accepted

def Framed (peers : Peers) : Prop := ∀ connection ∈ peers.connections, connection.Framed

/-- The step queues nothing and keeps every stream framed. -/
structure Quiet (old new : Peers) : Prop where
  history : new.history = old.history
  framed : old.Framed → new.Framed

theorem Quiet.refl (peers : Peers) : Quiet peers peers := ⟨rfl, id⟩

theorem Quiet.trans {first second third : Peers} (one : Quiet first second) (two : Quiet second third) :
    Quiet first third :=
  ⟨two.history.trans one.history, fun framed => two.framed (one.framed framed)⟩

theorem modify_split (peers : Peers) {id : Nat} {connection : Connection}
    (found : peers.connections[id]? = some connection) (change : Connection → Connection) :
    ∃ before after, peers.connections = before ++ connection :: after ∧
      (peers.modify id change).connections = before ++ change connection :: after := by
  obtain ⟨inside, value⟩ := List.getElem?_eq_some_iff.mp found
  obtain ⟨before, same, after, split, length, changed⟩ := List.exists_of_modify change inside
  have same : same = connection := by
    rw [← value]
    simp only [split, ← length]
    simp
  subst same
  exact ⟨before, after, split, changed⟩

theorem framed_of_split {old new : Peers} {before after : List Connection} {connection changed : Connection}
    (split : old.connections = before ++ connection :: after)
    (replaced : new.connections = before ++ changed :: after) (keeps : connection.Framed → changed.Framed)
    (all : old.Framed) : new.Framed := by
  unfold Framed at all ⊢
  rw [split] at all
  rw [replaced]
  exact Program.forall_replace all (keeps (all connection (List.mem_append_right _ List.mem_cons_self)))

theorem quiet_modify (peers : Peers) (id : Nat) (change : Connection → Connection)
    (keeps : ∀ connection, peers.connections[id]? = some connection →
      (change connection).accepted = connection.accepted ∧ (connection.Framed → (change connection).Framed)) :
    Quiet peers (peers.modify id change) := by
  cases found : peers.connections[id]? with
  | none =>
    have outside := List.getElem?_eq_none_iff.mp found
    have same : peers.modify id change = peers := by rw [modify, List.modify_eq_self outside]
    rw [same]
    exact Quiet.refl peers
  | some connection =>
    obtain ⟨accepted, framed⟩ := keeps connection found
    obtain ⟨before, after, split, changed⟩ := peers.modify_split found change
    constructor
    · rw [history, history, split, changed]
      simp only [List.flatMap_append, List.flatMap_cons, accepted]
    · exact framed_of_split split changed framed

theorem quiet_senders (peers : Peers) (id : Nat) (count : Connection → Nat) :
    Quiet peers (peers.modify id fun connection => { connection with senders := count connection }) := by
  apply quiet_modify
  rintro connection -
  refine ⟨rfl, ?_⟩
  rintro ⟨taken, rest, cut, splits⟩
  exact ⟨taken, rest, cut, splits.history, splits.queued, splits.opened, splits.stream, splits.live⟩

theorem quiet_cloneSender (peers : Peers) (id : Nat) : Quiet peers (peers.cloneSender id) := quiet_senders peers id _

theorem quiet_dropSender (peers : Peers) (id : Nat) : Quiet peers (peers.dropSender id) := quiet_senders peers id _

theorem quiet_dropSenders (peers : Peers) (ids : List Nat) : Quiet peers (peers.dropSenders ids) := by
  induction ids generalizing peers with
  | nil => exact Quiet.refl peers
  | cons id ids ih => exact (quiet_dropSender peers id).trans (ih (peers.dropSender id))

theorem quiet_remove (peers : Peers) (addr : String) : Quiet peers (peers.remove addr) := by
  unfold remove
  split
  · exact Quiet.refl peers
  · rename_i id found
    exact ⟨(quiet_dropSender peers id).history, (quiet_dropSender peers id).framed⟩

theorem quiet_insert (peers : Peers) (addr : String) (id : Nat) : Quiet peers (peers.insert addr id) := by
  have both := (quiet_remove peers addr).trans (quiet_cloneSender (peers.remove addr) id)
  exact ⟨both.history, both.framed⟩

theorem quiet_connected (peers : Peers) (addr : String) : Quiet peers (peers.connected addr) := by
  constructor
  · simp [history, connected]
  · intro all
    rw [Framed, connected, List.forall_mem_append, List.forall_mem_singleton]
    exact ⟨all, [], [], [], rfl, fun _ => rfl, List.cons_ne_nil _ _, rfl, .inr rfl⟩

end Peers

namespace Connection

theorem Framed.take {connection : Connection} {envelope : Envelope} {queue : List Envelope}
    (receiving : connection.writer = .receiving) (queued : connection.queue = envelope :: queue)
    (framed : connection.Framed) : Framed { connection with writer := .writing envelope.frame, queue } := by
  obtain ⟨taken, rest, cut, splits⟩ := framed
  have waiting : envelope :: queue = rest := by
    rw [← queued]
    exact splits.queued (by rw [receiving]; decide)
  have caught : cut = [] := by
    rcases splits.live with dying | same
    · rw [receiving] at dying
      cases dying
    · rw [same, receiving]
      rfl
  refine ⟨taken ++ [envelope], queue, envelope.frame, ?_, fun _ => rfl, splits.opened, ?_, .inr rfl⟩
  · rw [splits.history, ← waiting, List.append_assoc]
    rfl
  · have stream := splits.stream
    rw [caught, List.append_nil] at stream
    rw [stream, frames_append, List.cons_append]
    simp [frames]

theorem Framed.wrote {connection : Connection} {left : Bytes} (writing : connection.writer = .writing left)
    (count : Nat) (framed : connection.Framed) :
    Framed { connection with
      written := connection.written ++ left.take count
      writer := if left.drop count = [] then .receiving else .writing (left.drop count) } := by
  obtain ⟨taken, rest, cut, splits⟩ := framed
  have current : cut = left := by
    rcases splits.live with dying | same
    · rw [writing] at dying
      cases dying
    · rw [same, writing]
      rfl
  refine ⟨taken, rest, left.drop count, splits.history, ?_,
    List.append_ne_nil_of_left_ne_nil splits.opened _, ?_, .inr ?_⟩
  · intro _
    exact splits.queued (by rw [writing]; exact Writer.noConfusion)
  · rw [List.append_assoc, List.take_append_drop, ← current]
    exact splits.stream
  · dsimp only
    split
    · rename_i done
      exact done
    · rfl

theorem Framed.leave {connection : Connection} {writer : Writer} (alive : connection.writer ≠ .finished)
    (dying : writer.dying = true) (framed : connection.Framed) : Framed { connection with writer } := by
  obtain ⟨taken, rest, cut, splits⟩ := framed
  exact ⟨taken, rest, cut, splits.history, fun _ => splits.queued alive, splits.opened, splits.stream, .inl dying⟩

theorem Framed.close {connection : Connection} (framed : connection.Framed) :
    Framed { connection with writer := .finished, queue := [] } := by
  obtain ⟨taken, rest, cut, splits⟩ := framed
  exact ⟨taken, rest, cut, splits.history, fun alive => absurd rfl alive, splits.opened, splits.stream, .inl rfl⟩

theorem Framed.push {connection : Connection} (alive : connection.writer ≠ .finished) (envelope : Envelope)
    (framed : connection.Framed) :
    Framed { connection with
      queue := connection.queue ++ [envelope]
      accepted := connection.accepted ++ [envelope] } := by
  obtain ⟨taken, rest, cut, splits⟩ := framed
  refine ⟨taken, rest ++ [envelope], cut, ?_, ?_, splits.opened, splits.stream, splits.live⟩
  · rw [splits.history, List.append_assoc]
  · intro _
    rw [splits.queued alive]

end Connection

namespace Peers

theorem quiet_modify_found {peers : Peers} {id : Nat} {connection : Connection}
    (found : peers.connections[id]? = some connection) {change : Connection → Connection}
    (accepted : (change connection).accepted = connection.accepted)
    (framed : connection.Framed → (change connection).Framed) : Quiet peers (peers.modify id change) := by
  apply quiet_modify
  intro other same
  cases found.symm.trans same
  exact ⟨accepted, framed⟩

theorem Writes.quiet {peers later : Peers} {id : Nat} {connection : Connection}
    (found : peers.connections[id]? = some connection) (writes : Writes peers id connection later) :
    Quiet peers later := by
  cases writes with
  | took receiving queued => exact quiet_modify_found found rfl (.take receiving queued)
  | drained receiving unused => exact quiet_modify_found found rfl (.leave (by rw [receiving]; decide) rfl)
  | @wrote left count writing => exact quiet_modify_found found rfl (.wrote writing count)
  | broke writing => exact quiet_modify_found found rfl (.leave (by rw [writing]; exact Writer.noConfusion) rfl)
  | removed leaving =>
    have closing : Quiet peers (peers.modify id fun connection => { connection with writer := .closing }) :=
      quiet_modify_found found rfl (.leave (by rw [leaving]; decide) rfl)
    exact closing.trans (quiet_remove _ connection.addr)
  | closed closing => exact quiet_modify_found found rfl .close

/-- The step queues exactly this frame, and keeps every stream framed. -/
structure Queues (envelope : Envelope) (old new : Peers) : Prop where
  history : ∃ before after, old.history = before ++ after ∧ new.history = before ++ envelope :: after
  framed : old.Framed → new.Framed

theorem Queues.quiet {envelope : Envelope} {first second third : Peers} (queues : Queues envelope first second)
    (quiet : Quiet second third) : Queues envelope first third := by
  obtain ⟨before, after, old, new⟩ := queues.history
  exact ⟨⟨before, after, old, quiet.history.trans new⟩, fun framed => quiet.framed (queues.framed framed)⟩

theorem Queues.mem {envelope other : Envelope} {old new : Peers} (queues : Queues envelope old new)
    (member : other ∈ new.history) : other = envelope ∨ other ∈ old.history := by
  obtain ⟨before, after, whole, pushed⟩ := queues.history
  rw [pushed] at member
  rw [whole]
  rcases List.mem_append.mp member with member | member
  · exact .inr (List.mem_append_left _ member)
  · rcases List.mem_cons.mp member with same | member
    · exact .inl same
    · exact .inr (List.mem_append_right _ member)

theorem Queues.count {envelope : Envelope} {old new : Peers} (queues : Queues envelope old new) (id : Nat) :
    (new.history.map Envelope.call).count id =
      (old.history.map Envelope.call).count id + if envelope.call = id then 1 else 0 := by
  obtain ⟨before, after, whole, pushed⟩ := queues.history
  rw [pushed, whole]
  simp only [List.map_append, List.map_cons, List.count_append, List.count_cons, beq_iff_eq]
  omega

theorem queues_push {peers : Peers} {id : Nat} {connection : Connection}
    (found : peers.connections[id]? = some connection) (alive : connection.writer ≠ .finished)
    (envelope : Envelope) : Queues envelope peers (peers.push id envelope) := by
  obtain ⟨before, after, split, changed⟩ := peers.modify_split found fun connection =>
    { connection with queue := connection.queue ++ [envelope], accepted := connection.accepted ++ [envelope] }
  constructor
  · refine ⟨before.flatMap Connection.accepted ++ connection.accepted, after.flatMap Connection.accepted, ?_, ?_⟩
    · rw [history, split, List.flatMap_append, List.flatMap_cons, List.append_assoc]
    · rw [history, push, changed, List.flatMap_append, List.flatMap_cons]
      simp only [List.append_assoc, List.singleton_append]
  · exact framed_of_split split changed (.push alive envelope)

end Peers

namespace Call

def placed (call : Call) : Nat :=
  match call.stage with
  | .returned (.ok ()) => 1
  | _ => 0

/-- A call past its check that has not failed has a payload within its limit. -/
def Checked (call : Call) : Prop :=
  match call.stage with
  | .check => True
  | .returned (.error _) => True
  | _ => call.request.data.length ≤ call.request.maxPayload

structure Steps (index : Nat) (peers later : Peers) (call next : Call) : Prop where
  request : next.request = call.request
  unplaced : call.placed = 0
  checked : next.Checked
  effect : (Peers.Quiet peers later ∧ next.placed = 0) ∨
    (Peers.Queues ⟨index, call.frame⟩ peers later ∧ next.placed = 1)

theorem placed_of_stage {call : Call} (unreturned : ∀ result, call.stage ≠ .returned result) : call.placed = 0 := by
  unfold placed
  split
  · rename_i stage
    exact absurd stage (unreturned _)
  · rfl

theorem Checked.within {call : Call} (checked : call.Checked) (started : call.stage ≠ .check)
    (unreturned : ∀ result, call.stage ≠ .returned result) : call.request.data.length ≤ call.request.maxPayload := by
  unfold Checked at checked
  split at checked
  · rename_i stage
    exact absurd stage started
  · rename_i stage
    exact absurd stage (unreturned _)
  · exact checked

/-- A step of a call past its check that queues nothing and does not return. -/
theorem Checked.steps_of_quiet {self : Nat} {peers later : Peers} {call next : Call} (checked : call.Checked)
    (started : call.stage ≠ .check) (unreturned : ∀ result, call.stage ≠ .returned result)
    (request : next.request = call.request) (goesOn : ∀ result, next.stage ≠ .returned result)
    (quiet : Peers.Quiet peers later) : Steps self peers later call next := by
  refine ⟨request, placed_of_stage unreturned, ?_, .inl ⟨quiet, placed_of_stage goesOn⟩⟩
  have within := checked.within started unreturned
  unfold Checked
  split
  · trivial
  · trivial
  · rw [request]
    exact within

theorem Advances.steps {self : Nat} {peers later : Peers} {call next : Call} (checked : call.Checked)
    (advances : Advances self peers call later next) : Steps self peers later call next := by
  cases advances with
  | accepted checking within =>
    exact ⟨rfl, placed_of_stage (by simp [checking]), within, .inl ⟨.refl peers, rfl⟩⟩
  | missed looking => exact checked.steps_of_quiet (by simp [looking]) (by simp [looking]) rfl (by simp) (.refl peers)
  | dialled dialling =>
    exact checked.steps_of_quiet (by simp [dialling]) (by simp [dialling]) rfl (by simp) (.refl peers)
  | aborted early =>
    have unreturned : ∀ result, call.stage ≠ .returned result := by
      rcases early with stage | stage | stage | ⟨id, stage⟩ <;> simp [stage]
    exact ⟨rfl, placed_of_stage unreturned, trivial, .inl ⟨peers.quiet_dropSenders _, rfl⟩⟩
  | queued sending found alive =>
    have unreturned : ∀ result, call.stage ≠ .returned result := by simp [sending]
    have queues := (Peers.queues_push found alive ⟨self, call.frame⟩).quiet (Peers.quiet_dropSenders _ call.held)
    exact ⟨rfl, placed_of_stage unreturned, checked.within (by simp [sending]) unreturned, .inr ⟨queues, rfl⟩⟩
  | found looking pooled =>
    exact checked.steps_of_quiet (by simp [looking]) (by simp [looking]) rfl (by simp) (peers.quiet_cloneSender _)
  | opened ready =>
    exact checked.steps_of_quiet (by simp [ready]) (by simp [ready]) rfl (by simp) (peers.quiet_connected _)
  | inserted inserting =>
    exact checked.steps_of_quiet (by simp [inserting]) (by simp [inserting]) rfl (by simp) (peers.quiet_insert _ _)
  | failed sending first found ended =>
    exact checked.steps_of_quiet (by simp [sending]) (by simp [sending]) rfl (by simp) (.refl peers)
  | evicted evicting =>
    exact checked.steps_of_quiet (by simp [evicting]) (by simp [evicting]) rfl (by simp) (peers.quiet_remove _)

end Call

end Myrmidon.Network
