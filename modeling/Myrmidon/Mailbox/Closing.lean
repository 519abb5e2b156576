import Myrmidon.Mailbox.Session

namespace Myrmidon

open Data

inductive Drains (receive : Mailbox → Poll (Option Message) × Mailbox) : Mailbox → List Message → Prop where
  | finished {m after : Mailbox} : receive m = (.ready none, after) → Drains receive m []
  | next {m after : Mailbox} {message : Message} {rest : List Message} :
      receive m = (.ready (some message), after) → Drains receive after rest → Drains receive m (message :: rest)

theorem Drains.unique {receive : Mailbox → Poll (Option Message) × Mailbox} {m : Mailbox}
    {first second : List Message} (one : Drains receive m first) (two : Drains receive m second) :
    first = second := by
  induction one generalizing second with
  | finished ended =>
    cases two with
    | finished _ => rfl
    | next taken _ => rw [ended] at taken; cases taken
  | next taken _ ih =>
    cases two with
    | finished ended => rw [taken] at ended; cases ended
    | next again rest =>
      rw [taken] at again
      cases again
      rw [ih rest]

theorem Backlog.inOrder_deliver {b : Backlog} {message : Message} {rest : List Message}
    (order : b.inOrder = message :: rest) : (b.deliver message).inOrder = rest := by
  obtain ⟨system, user⟩ := b
  cases system with
  | cons first later =>
    simp only [inOrder, List.map_cons, List.cons_append, List.cons.injEq] at order
    obtain ⟨rfl, rfl⟩ := order
    simp [deliver, inOrder]
  | nil =>
    cases user with
    | nil => cases order
    | cons first later =>
      simp only [inOrder, List.map_cons, List.map_nil, List.nil_append, List.cons.injEq] at order
      obtain ⟨rfl, rfl⟩ := order
      simp [deliver, inOrder]

namespace Mailbox

def tryReceive (m : Mailbox) : Poll (Option Message) × Mailbox := (.ready m.tryRecv.1, m.tryRecv.2)

theorem tryReceive_drains (m : Mailbox) : Drains tryReceive m m.backlog.inOrder := by
  generalize order : m.backlog.inOrder = messages
  induction messages generalizing m with
  | nil =>
    have spec := tryRecv_spec m
    rw [Backlog.oldest, order] at spec
    have ended : m.tryReceive = (.ready none, m.tryRecv.2) := by
      rw [tryReceive, spec.1]
      rfl
    exact .finished ended
  | cons message rest ih =>
    have spec := tryRecv_spec m
    rw [Backlog.oldest, order] at spec
    have taken : m.tryReceive = (.ready (some message), m.tryRecv.2) := by
      rw [tryReceive, spec.1]
      rfl
    apply Drains.next taken
    apply ih
    rw [spec.2]
    exact Backlog.inOrder_deliver order

def withoutQueuedUser (m : Mailbox) : Mailbox := { m with user := { m.user with queue := [] } }

/-- A closed system channel ends `recv` before its user branch is looked at. -/
theorem recv_closed {m : Mailbox} (closed : m.sys.senderAlive = false) :
    m.recv = (.ready m.withoutQueuedUser.tryRecv.1, { m.withoutQueuedUser.tryRecv.2 with user := m.user }) := by
  unfold recv tryRecv withoutQueuedUser
  rw [removeFirst_eq]
  cases found : m.stash.find? Message.isSystem with
  | some message => rfl
  | none =>
    cases queued : m.sys.queue with
    | cons message rest => simp [Channel.tryRecv, queued]
    | nil =>
      cases stashed : m.stash with
      | cons front stash => simp [Channel.tryRecv, queued]
      | nil =>
        simp only [Option.map_none, Channel.tryRecv, queued, recvSelect, Channel.recv, closed]
        simp [← stashed]

theorem tryRecv_user_of_empty {m : Mailbox} (empty : m.user.queue = []) : m.tryRecv.2.user = m.user := by
  unfold tryRecv Channel.tryRecv
  rw [empty]
  split
  · rfl
  · cases m.sys.queue <;> cases m.stash <;> rfl

theorem tryRecv_sys_alive (m : Mailbox) : m.tryRecv.2.sys.senderAlive = m.sys.senderAlive := by
  unfold tryRecv Channel.tryRecv
  split
  · rfl
  · cases m.sys.queue <;> cases m.stash <;> cases m.user.queue <;> rfl

theorem recv_closed_drains {m : Mailbox} (closed : m.sys.senderAlive = false) :
    Drains recv m m.withoutQueuedUser.backlog.inOrder := by
  generalize order : m.withoutQueuedUser.backlog.inOrder = messages
  induction messages generalizing m with
  | nil =>
    have spec := tryRecv_spec m.withoutQueuedUser
    rw [Backlog.oldest, order] at spec
    rw [List.head?_nil] at spec
    exact .finished (by rw [recv_closed closed, spec.1])
  | cons message rest ih =>
    have spec := tryRecv_spec m.withoutQueuedUser
    rw [Backlog.oldest, order, List.head?_cons] at spec
    have taken : m.recv =
        (.ready (some message), { m.withoutQueuedUser.tryRecv.2 with user := m.user }) := by
      rw [recv_closed closed, spec.1]
    have kept : m.withoutQueuedUser.tryRecv.2.user = { m.user with queue := [] } :=
      tryRecv_user_of_empty rfl
    have same : withoutQueuedUser { m.withoutQueuedUser.tryRecv.2 with user := m.user } =
        m.withoutQueuedUser.tryRecv.2 := by
      rw [withoutQueuedUser, ← kept]
    apply Drains.next taken
    apply ih
    · exact (tryRecv_sys_alive m.withoutQueuedUser).trans closed
    · rw [same, spec.2]
      exact Backlog.inOrder_deliver order

theorem inOrder_split (m : Mailbox) :
    m.backlog.inOrder = m.withoutQueuedUser.backlog.inOrder ++ m.user.queue.map .user := by
  simp [backlog, withoutQueuedUser, Backlog.inOrder]

end Mailbox

namespace Session

open Mailbox

/-- After the last sender is dropped, `recv` yields every accepted message that
    was not delivered, the same sequence as `try_recv`. -/
def DrainsCompletely (s : Session) : Prop :=
  ∃ messages, Drains recv s.mailbox.dropSenders messages ∧ Drains tryReceive s.mailbox.dropSenders messages ∧
    messages = s.undelivered.inOrder

/-- The end is reported after the last message exactly when no user message is
    still in the user channel. -/
theorem closed_mailbox_drains_iff (calls : List Call) (s : Session)
    (reached : sessionMachine.run start calls = some s) :
    s.DrainsCompletely ↔ s.mailbox.user.queue = [] := by
  have backlog : s.mailbox.dropSenders.backlog = s.undelivered := (run_faithful reached).backlog_eq
  have queue : s.mailbox.dropSenders.user.queue = s.mailbox.user.queue := rfl
  have received := recv_closed_drains (m := s.mailbox.dropSenders) rfl
  have tried := tryReceive_drains s.mailbox.dropSenders
  have split := inOrder_split s.mailbox.dropSenders
  rw [backlog] at tried
  rw [backlog, queue] at split
  constructor
  · rintro ⟨messages, drained, -, rfl⟩
    have same := received.unique drained
    rw [same] at split
    simpa using split
  · intro empty
    rw [empty, List.map_nil, List.append_nil] at split
    rw [← split] at received
    exact ⟨_, received, tried, rfl⟩

theorem closed_mailbox_drains_stash :
    sessionMachine.run start [.send (.user [1]), .selectiveRecv Message.isSystem none, .cancel] =
        some ⟨⟨⟨[], true, true⟩, ⟨[], true, true⟩, [.user [1]], 1⟩, none, [.user [1]], []⟩ ∧
      DrainsCompletely ⟨⟨⟨[], true, true⟩, ⟨[], true, true⟩, [.user [1]], 1⟩, none, [.user [1]], []⟩ :=
  ⟨rfl, (closed_mailbox_drains_iff
    [.send (.user [1]), .selectiveRecv Message.isSystem none, .cancel] _ rfl).mpr rfl⟩

/-- One user message in the user channel when the last sender goes: `recv`
    reports the end at once and the message is lost. -/
theorem closed_mailbox_loses_queued_user :
    sessionMachine.run start [.send (.user [1])] =
        some ⟨⟨⟨[[1]], true, true⟩, ⟨[], true, true⟩, [], 1⟩, none, [.user [1]], []⟩ ∧
      ¬ DrainsCompletely ⟨⟨⟨[[1]], true, true⟩, ⟨[], true, true⟩, [], 1⟩, none, [.user [1]], []⟩ := by
  refine ⟨rfl, ?_⟩
  rintro ⟨messages, drained, -, rfl⟩
  cases drained.unique (.finished rfl)

end Session

end Myrmidon
