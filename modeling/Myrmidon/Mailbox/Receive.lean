import Myrmidon.Mailbox.Backlog

namespace Myrmidon.Mailbox

open Data

theorem Open.of_alive {m after : Mailbox} (isOpen : m.Open)
    (sys : after.sys.senderAlive = m.sys.senderAlive ∧ after.sys.receiverAlive = m.sys.receiverAlive)
    (user : after.user.senderAlive = m.user.senderAlive ∧ after.user.receiverAlive = m.user.receiverAlive) :
    after.Open :=
  ⟨sys.1.trans isOpen.sysSender, user.1.trans isOpen.userSender, sys.2.trans isOpen.sysReceiver,
    user.2.trans isOpen.userReceiver⟩

/-- `try_recv` takes the oldest undelivered message, whichever container holds it. -/
theorem tryRecv_spec (m : Mailbox) :
    m.tryRecv.1 = m.backlog.oldest ∧
      m.tryRecv.2.backlog = m.backlog.oldest.elim m.backlog m.backlog.deliver := by
  unfold tryRecv
  rw [removeFirst_eq]
  cases found : m.stash.find? Message.isSystem with
  | some message =>
    rw [oldest_of_stashed_system m found]
    exact ⟨rfl, backlog_erase_stash m m.counter (List.mem_of_find?_eq_some found)⟩
  | none =>
    have noSystem := systemOf_eq_nil_of_find? found
    cases queued : m.sys.queue with
    | cons message rest =>
      have oldest : m.backlog.oldest = some (.system message) := by
        simp [Backlog.oldest, Backlog.inOrder, backlog, noSystem, queued]
      have unstashed : Message.system message ∉ m.stash := by
        rw [← mem_systemOf, noSystem]
        exact List.not_mem_nil
      simp only [Option.map_none, Channel.tryRecv, queued, oldest]
      exact ⟨trivial, backlog_take_system m queued unstashed⟩
    | nil =>
      cases stashed : m.stash with
      | cons front stash =>
        cases front with
        | system message => simp [stashed, Message.isSystem] at found
        | user bytes =>
          have oldest : m.backlog.oldest = some (.user bytes) := by
            simp only [Backlog.oldest, Backlog.inOrder, backlog, noSystem, queued]
            rw [stashed]
            rfl
          have erased : stash = m.stash.erase (.user bytes) := by rw [stashed, List.erase_cons_head]
          simp only [Option.map_none, Channel.tryRecv, queued, oldest]
          rw [erased]
          exact ⟨trivial, backlog_erase_stash m _ (by rw [stashed]; exact List.mem_cons_self)⟩
      | nil =>
        cases waiting : m.user.queue with
        | cons bytes rest =>
          have oldest : m.backlog.oldest = some (.user bytes) := by
            simp [Backlog.oldest, Backlog.inOrder, backlog, queued, stashed, waiting, systemOf, userOf]
          simp only [Option.map_none, Channel.tryRecv, queued, waiting, oldest]
          exact ⟨trivial, by
            rw [← stashed]
            exact backlog_take_user m _ waiting (by rw [stashed]; exact List.not_mem_nil)⟩
        | nil =>
          have oldest : m.backlog.oldest = none := by
            simp [Backlog.oldest, Backlog.inOrder, backlog, queued, stashed, waiting, systemOf, userOf]
          simp [Channel.tryRecv, queued, waiting, oldest]

theorem tryRecv_open {m : Mailbox} (isOpen : m.Open) : m.tryRecv.2.Open := by
  unfold tryRecv Channel.tryRecv
  split
  · exact isOpen.of_alive ⟨rfl, rfl⟩ ⟨rfl, rfl⟩
  · cases m.sys.queue <;> cases m.stash <;> cases m.user.queue <;>
      exact isOpen.of_alive ⟨rfl, rfl⟩ ⟨rfl, rfl⟩

/-- With its senders alive, the `select!` waits exactly when both channels are empty. -/
theorem recvSelect_open {m : Mailbox} (isOpen : m.Open) (unstashed : m.stash = []) :
    m.recvSelect = (Poll.ofOption m.tryRecv.1, m.tryRecv.2) := by
  unfold recvSelect tryRecv Channel.recv Channel.tryRecv
  rw [removeFirst_eq, unstashed]
  cases m.sys.queue <;> cases m.user.queue <;>
    simp [isOpen.sysSender, isOpen.userSender, Poll.ofOption]

theorem recv_open {m : Mailbox} (isOpen : m.Open) : m.recv = (Poll.ofOption m.tryRecv.1, m.tryRecv.2) := by
  cases found : m.stash.find? Message.isSystem with
  | some message => simp [recv, tryRecv, removeFirst_eq, found, Poll.ofOption]
  | none =>
    cases queued : m.sys.queue with
    | cons message rest => simp [recv, tryRecv, removeFirst_eq, found, Channel.tryRecv, queued, Poll.ofOption]
    | nil =>
      cases stashed : m.stash with
      | cons front stash =>
        rw [stashed] at found
        simp [recv, tryRecv, removeFirst_eq, found, Channel.tryRecv, queued, stashed, Poll.ofOption]
      | nil =>
        rw [← recvSelect_open isOpen stashed]
        simp [recv, removeFirst_eq, Channel.tryRecv, queued, stashed]

theorem recv_pending {m : Mailbox} (isOpen : m.Open) (pending : m.recv.1 = .pending) :
    m.stash = [] ∧ m.recv.2 = m := by
  unfold recv at pending ⊢
  rw [removeFirst_eq] at pending ⊢
  cases found : m.stash.find? Message.isSystem with
  | some message => simp [found] at pending
  | none =>
    cases queued : m.sys.queue with
    | cons message rest => simp [found, Channel.tryRecv, queued] at pending
    | nil =>
      cases stashed : m.stash with
      | cons front stash =>
        rw [stashed] at found
        simp [found, Channel.tryRecv, queued, stashed] at pending
      | nil =>
        simp only [Option.map_none, Channel.tryRecv, queued, stashed, List.find?_nil] at pending ⊢
        unfold recvSelect Channel.recv at pending ⊢
        cases waiting : m.user.queue with
        | cons bytes rest => simp [queued, waiting, isOpen.sysSender] at pending
        | nil => simp [queued, isOpen.sysSender, isOpen.userSender]

end Myrmidon.Mailbox
