import Myrmidon.Mailbox.Selective
import Myrmidon.Transition.Machine

namespace Myrmidon

open Data Transition

/-- A receive call that was polled and is waiting at its `select!`. -/
inductive Waiting where
  | recv
  | selective (matcher : Message → Bool)

/-- One mailbox with its call in progress and what its users have seen: the
    messages accepted and the messages returned, both in order. -/
structure Session where
  mailbox : Mailbox
  waiting : Option Waiting
  sent : List Message
  delivered : List Message

/-- `dropAfter` is the number of turns after which the caller drops the future. -/
inductive Call where
  | send (message : Message)
  | sendUserBytes (bytes : Bytes)
  | sendSystem (message : SystemMessage)
  | recv
  | tryRecv
  | selectiveRecv (matcher : Message → Bool) (dropAfter : Option Nat)
  | poll (dropAfter : Option Nat)
  | cancel

namespace Session

def start : Session := ⟨.channel, none, [], []⟩

def accept {ε : Type} (s : Session) (message : Message) : Except ε Unit × Mailbox → Session
  | (.ok (), mailbox) => { s with mailbox, sent := s.sent ++ [message] }
  | (.error _, mailbox) => { s with mailbox }

def finish (s : Session) (call : Waiting) : Option (Poll (Option Message)) × Mailbox → Session
  | (some (.ready result), mailbox) =>
    { s with mailbox, waiting := none, delivered := s.delivered ++ result.toList }
  | (some .pending, mailbox) => { s with mailbox, waiting := some call }
  | (none, mailbox) => { s with mailbox, waiting := none }

/-- The receiver is borrowed by a waiting call, so no other receive starts. -/
def step (s : Session) : Call → Option Session
  | .send message => some (s.accept message (s.mailbox.send message))
  | .sendUserBytes bytes => some (s.accept (.user bytes) (s.mailbox.sendUserBytes bytes))
  | .sendSystem message => some (s.accept (.system message) (s.mailbox.sendSystem message))
  | .recv =>
    match s.waiting with
    | some _ => none
    | none => some (s.finish .recv (some s.mailbox.recv.1, s.mailbox.recv.2))
  | .tryRecv =>
    match s.waiting with
    | some _ => none
    | none => some (s.finish .recv (some (.ready s.mailbox.tryRecv.1), s.mailbox.tryRecv.2))
  | .selectiveRecv matcher dropAfter =>
    match s.waiting with
    | some _ => none
    | none => some (s.finish (.selective matcher)
        (s.mailbox.selectiveRecv matcher (dropAfter.getD s.mailbox.turnsNeeded)))
  | .poll dropAfter =>
    match s.waiting with
    | none => none
    | some .recv => some (s.finish .recv (some s.mailbox.recvSelect.1, s.mailbox.recvSelect.2))
    | some (.selective matcher) => some (s.finish (.selective matcher)
        (s.mailbox.selectiveResume matcher (dropAfter.getD s.mailbox.turnsNeeded)))
  | .cancel =>
    match s.waiting with
    | none => none
    | some _ => some { s with waiting := none }

end Session

def sessionMachine : Machine Session Call := ⟨Session.step⟩

def Backlog.AccountsFor (b : Backlog) (sent delivered : List Message) : Prop :=
  Accounts (systemOf sent) (systemOf delivered) b.system ∧ Accounts (userOf sent) (userOf delivered) b.user

theorem Backlog.AccountsFor.accept {b : Backlog} {sent delivered : List Message}
    (accounts : b.AccountsFor sent delivered) (message : Message) :
    (b.accept message).AccountsFor (sent ++ [message]) delivered := by
  cases message with
  | system message =>
    rw [AccountsFor, systemOf_append_system, userOf_append_system]
    exact ⟨accounts.1.send message, accounts.2⟩
  | user bytes =>
    rw [AccountsFor, systemOf_append_user, userOf_append_user]
    exact ⟨accounts.1, accounts.2.send bytes⟩

theorem Backlog.AccountsFor.deliver {b : Backlog} {sent delivered : List Message}
    (accounts : b.AccountsFor sent delivered) {message : Message} (holds : b.Holds message) :
    (b.deliver message).AccountsFor sent (delivered ++ [message]) := by
  cases message with
  | system message =>
    rw [AccountsFor, systemOf_append_system, userOf_append_system]
    exact ⟨accounts.1.take holds, accounts.2⟩
  | user bytes =>
    rw [AccountsFor, systemOf_append_user, userOf_append_user]
    exact ⟨accounts.1, accounts.2.take holds⟩

theorem Backlog.mem_inOrder {b : Backlog} {message : Message} : message ∈ b.inOrder ↔ b.Holds message := by
  cases message <;> simp [inOrder, Holds]

theorem Backlog.holds_oldest {b : Backlog} {message : Message} (oldest : b.oldest = some message) :
    b.Holds message := mem_inOrder.mp (List.mem_of_mem_head? oldest)

namespace Mailbox

theorem send_open {m : Mailbox} (isOpen : m.Open) (message : Message) :
    ∃ after, m.send message = (.ok (), after) ∧ after.Open ∧ after.stash = m.stash ∧
      after.backlog = m.backlog.accept message := by
  cases message with
  | user bytes =>
    simp only [send, Channel.send, isOpen.userReceiver, if_true]
    exact ⟨_, rfl, isOpen.of_alive ⟨rfl, rfl⟩ ⟨rfl, isOpen.userReceiver.symm⟩, rfl,
      by simp [backlog, Backlog.accept]⟩
  | system message =>
    simp only [send, Channel.send, isOpen.sysReceiver, if_true]
    exact ⟨_, rfl, isOpen.of_alive ⟨rfl, isOpen.sysReceiver.symm⟩ ⟨rfl, rfl⟩, rfl,
      by simp [backlog, Backlog.accept]⟩

theorem sendUserBytes_eq_send {m : Mailbox} (isOpen : m.Open) (bytes : Bytes) :
    m.sendUserBytes bytes = (.ok (), (m.send (.user bytes)).2) := by
  simp [sendUserBytes, send, Channel.send, isOpen.userReceiver]

theorem sendSystem_eq_send {m : Mailbox} (isOpen : m.Open) (message : SystemMessage) :
    m.sendSystem message = (.ok (), (m.send (.system message)).2) := by
  simp [sendSystem, send, Channel.send, isOpen.sysReceiver]

theorem selectiveResume_eq_loop (m : Mailbox) (matcher : Message → Bool) (turns : Nat) :
    m.selectiveResume matcher turns = selectiveLoop matcher (turns + 1) m := by
  simp only [selectiveResume, selectiveLoop, selectiveTurn_eq_select]

end Mailbox

namespace Session

open Mailbox

def Searched (s : Session) : Option Waiting → Prop
  | none => True
  | some .recv => s.mailbox.stash = []
  | some (.selective matcher) => s.mailbox.Unmatched matcher

structure Faithful (s : Session) : Prop where
  isOpen : s.mailbox.Open
  accounts : s.mailbox.backlog.AccountsFor s.sent s.delivered
  searched : s.Searched s.waiting

theorem start_faithful : start.Faithful where
  isOpen := ⟨rfl, rfl, rfl, rfl⟩
  accounts := ⟨Accounts.nil, Accounts.nil⟩
  searched := trivial

theorem Faithful.accepted {s : Session} (faithful : s.Faithful) {message : Message} {mailbox : Mailbox}
    (isOpen : mailbox.Open) (stash : mailbox.stash = s.mailbox.stash)
    (backlog : mailbox.backlog = s.mailbox.backlog.accept message) :
    Faithful { s with mailbox, sent := s.sent ++ [message] } := by
  refine ⟨isOpen, ?_, ?_⟩
  · rw [backlog]
    exact faithful.accounts.accept message
  · have searched := faithful.searched
    cases waiting : s.waiting with
    | none => trivial
    | some call =>
      rw [waiting] at searched
      cases call with
      | recv => exact stash.trans searched
      | selective matcher =>
        intro other member
        exact searched other (stash ▸ member)

theorem Faithful.send {s : Session} (faithful : s.Faithful) (message : Message) :
    (s.accept message (s.mailbox.send message)).Faithful := by
  obtain ⟨after, sent, isOpen, stash, backlog⟩ := send_open faithful.isOpen message
  rw [sent]
  exact faithful.accepted isOpen stash backlog

theorem Faithful.delivered {s : Session} (faithful : s.Faithful) (result : Option Message) {mailbox : Mailbox}
    (isOpen : mailbox.Open) (holds : ∀ message ∈ result, s.mailbox.backlog.Holds message)
    (backlog : mailbox.backlog = result.elim s.mailbox.backlog s.mailbox.backlog.deliver) :
    Faithful { s with mailbox, waiting := none, delivered := s.delivered ++ result.toList } := by
  refine ⟨isOpen, ?_, trivial⟩
  cases result with
  | none =>
    simp only [backlog, Option.elim, Option.toList, List.append_nil]
    exact faithful.accounts
  | some message =>
    simp only [backlog, Option.elim, Option.toList]
    exact faithful.accounts.deliver (holds message rfl)

theorem Faithful.tryRecv {s : Session} (faithful : s.Faithful) :
    Faithful { s with
      mailbox := s.mailbox.tryRecv.2, waiting := none,
      delivered := s.delivered ++ s.mailbox.tryRecv.1.toList } := by
  have spec := tryRecv_spec s.mailbox
  refine faithful.delivered _ (tryRecv_open faithful.isOpen) ?_ (by rw [spec.1]; exact spec.2)
  intro message taken
  exact Backlog.holds_oldest (spec.1 ▸ taken)

/-- A `recv` polled with its senders alive: it takes what `try_recv` takes, and
    waits only on an empty stash. -/
theorem Faithful.recv {s : Session} (faithful : s.Faithful)
    {out : Poll (Option Message) × Mailbox}
    (polled : out = (Poll.ofOption s.mailbox.tryRecv.1, s.mailbox.tryRecv.2))
    (empty : out.1 = .pending → s.mailbox.stash = [] ∧ out.2 = s.mailbox) :
    (s.finish .recv (some out.1, out.2)).Faithful := by
  subst polled
  have taken := faithful.tryRecv
  cases result : s.mailbox.tryRecv.1 with
  | some message =>
    rw [result] at taken
    exact taken
  | none =>
    obtain ⟨unstashed, same⟩ := empty (by rw [result]; rfl)
    simp only [Poll.ofOption, finish]
    rw [same]
    exact ⟨faithful.isOpen, faithful.accounts, unstashed⟩

theorem Faithful.selected {s : Session} (faithful : s.Faithful) {matcher : Message → Bool}
    {order : List Message} {turns : Nat} {out : Option (Poll (Option Message)) × Mailbox}
    (isOpen : out.2.Open) (selected : s.mailbox.Selected matcher order turns out)
    (inside : ∀ message ∈ order, s.mailbox.backlog.Holds message) :
    (s.finish (.selective matcher) out).Faithful := by
  cases selected with
  | found first backlog =>
    have holds := inside _ (List.mem_of_find?_eq_some first)
    exact faithful.delivered (some _) isOpen (by simpa using holds) backlog
  | waiting absent backlog unmatched => exact ⟨isOpen, backlog.symm ▸ faithful.accounts, unmatched⟩
  | dropped short backlog => exact ⟨isOpen, backlog.symm ▸ faithful.accounts, trivial⟩

theorem channelOrder_holds (m : Mailbox) : ∀ message ∈ m.channelOrder, m.backlog.Holds message := by
  intro message member
  rw [← mem_searchOrder_iff, searchOrder, List.append_assoc]
  exact List.mem_append_right _ member

theorem faithful_step (s : Session) (call : Call) (next : Session) (faithful : s.Faithful)
    (stepped : sessionMachine.step s call = some next) : next.Faithful := by
  simp only [sessionMachine] at stepped
  cases call with
  | send message =>
    cases stepped
    exact faithful.send message
  | sendUserBytes bytes =>
    have sent := faithful.send (.user bytes)
    obtain ⟨after, result, -⟩ := send_open faithful.isOpen (.user bytes)
    rw [result] at sent
    simp only [step, sendUserBytes_eq_send faithful.isOpen, result] at stepped
    cases stepped
    exact sent
  | sendSystem message =>
    have sent := faithful.send (.system message)
    obtain ⟨after, result, -⟩ := send_open faithful.isOpen (.system message)
    rw [result] at sent
    simp only [step, sendSystem_eq_send faithful.isOpen, result] at stepped
    cases stepped
    exact sent
  | recv =>
    cases waiting : s.waiting with
    | some _ => simp [step, waiting] at stepped
    | none =>
      simp only [step, waiting, Option.some.injEq] at stepped
      subst stepped
      exact faithful.recv (recv_open faithful.isOpen) (recv_pending faithful.isOpen)
  | tryRecv =>
    cases waiting : s.waiting with
    | some _ => simp [step, waiting] at stepped
    | none =>
      simp only [step, waiting, Option.some.injEq] at stepped
      subst stepped
      exact faithful.tryRecv
  | selectiveRecv matcher dropAfter =>
    cases waiting : s.waiting with
    | some _ => simp [step, waiting] at stepped
    | none =>
      simp only [step, waiting, Option.some.injEq] at stepped
      subst stepped
      have spec := selectiveRecv_spec matcher (dropAfter.getD s.mailbox.turnsNeeded) faithful.isOpen
      exact faithful.selected spec.1 spec.2 fun message => (mem_searchOrder_iff s.mailbox message).mp
  | poll dropAfter =>
    have searched := faithful.searched
    cases waiting : s.waiting with
    | none => simp [step, waiting] at stepped
    | some call =>
      rw [waiting] at searched
      cases call with
      | recv =>
        simp only [step, waiting, Option.some.injEq] at stepped
        subst stepped
        have same : s.mailbox.recvSelect = s.mailbox.recv := by
          rw [recv_open faithful.isOpen, recvSelect_open faithful.isOpen searched]
        rw [same]
        exact faithful.recv (recv_open faithful.isOpen) (recv_pending faithful.isOpen)
      | selective matcher =>
        simp only [step, waiting, Option.some.injEq, selectiveResume_eq_loop] at stepped
        subst stepped
        have spec := selectiveLoop_spec matcher (dropAfter.getD s.mailbox.turnsNeeded + 1) faithful.isOpen searched
        exact faithful.selected spec.1 spec.2 (channelOrder_holds s.mailbox)
  | cancel =>
    cases waiting : s.waiting with
    | none => simp [step, waiting] at stepped
    | some _ =>
      simp only [step, waiting, Option.some.injEq] at stepped
      subst stepped
      exact ⟨faithful.isOpen, faithful.accounts, trivial⟩

theorem run_faithful {calls : List Call} {s : Session} (reached : sessionMachine.run start calls = some s) :
    s.Faithful := sessionMachine.run_invariant faithful_step start_faithful reached

def undelivered (s : Session) : Backlog :=
  ⟨outstanding (systemOf s.sent) (systemOf s.delivered), outstanding (userOf s.sent) (userOf s.delivered)⟩

theorem Faithful.backlog_eq {s : Session} (faithful : s.Faithful) : s.mailbox.backlog = s.undelivered := by
  rw [undelivered, ← faithful.accounts.1.queued, ← faithful.accounts.2.queued]

def TakesOldest (b : Backlog) (out : Poll (Option Message) × Mailbox) : Prop :=
  out.1 = Poll.ofOption b.oldest ∧ out.2.backlog = b.oldest.elim b b.deliver

/-- The call returned the first match in search order, which is the oldest match
    of its class, and removed just that; or nothing matches and it waits. -/
def TakesMatch (b : Backlog) (matcher : Message → Bool) (order : List Message)
    (out : Option (Poll (Option Message)) × Mailbox) : Prop :=
  (∃ message, b.Holds message ∧ matcher message = true ∧ b.OldestMatch matcher message ∧
    order.find? matcher = some message ∧ out.1 = some (.ready (some message)) ∧
    out.2.backlog = b.deliver message) ∨
  ((∀ message, b.Holds message → matcher message = false) ∧ out.1 = some .pending ∧ out.2.backlog = b)

/-- A session follows its undelivered messages: it holds exactly these, and each
    receive call, fresh or polled again, acts on them. -/
structure RefinesBacklog (s : Session) : Prop where
  holds : s.mailbox.backlog = s.undelivered
  conservedSystem : (systemOf s.delivered ++ s.undelivered.system).Perm (systemOf s.sent)
  conservedUser : (userOf s.delivered ++ s.undelivered.user).Perm (userOf s.sent)
  tryRecv : s.waiting = none → s.mailbox.tryRecv.1 = s.undelivered.oldest ∧
    s.mailbox.tryRecv.2.backlog = s.undelivered.oldest.elim s.undelivered s.undelivered.deliver
  recv : s.waiting = none → TakesOldest s.undelivered s.mailbox.recv
  recvPolled : s.waiting = some .recv → TakesOldest s.undelivered s.mailbox.recvSelect
  selectiveRecv : ∀ matcher, s.waiting = none → TakesMatch s.undelivered matcher s.mailbox.searchOrder
    (s.mailbox.selectiveRecv matcher s.mailbox.turnsNeeded)
  selectivePolled : ∀ matcher, s.waiting = some (.selective matcher) →
    TakesMatch s.undelivered matcher s.mailbox.searchOrder
      (s.mailbox.selectiveResume matcher s.mailbox.turnsNeeded)

theorem takesOldest_tryRecv (m : Mailbox) :
    TakesOldest m.backlog (Poll.ofOption m.tryRecv.1, m.tryRecv.2) := by
  have spec := tryRecv_spec m
  exact ⟨by rw [spec.1], spec.2⟩

theorem takesMatch_of_selected {m : Mailbox} {matcher : Message → Bool} {turns : Nat}
    {out : Option (Poll (Option Message)) × Mailbox} (enough : m.turnsNeeded ≤ turns)
    (selected : m.Selected matcher m.searchOrder turns out) : TakesMatch m.backlog matcher m.searchOrder out := by
  cases selected with
  | @found message after first delivered =>
    have holds := (mem_searchOrder_iff m message).mp (List.mem_of_find?_eq_some first)
    exact .inl ⟨message, holds, List.find?_some first, oldestMatch_of_find? m matcher first, first, rfl, delivered⟩
  | waiting absent kept unmatched =>
    refine .inr ⟨fun message holds => ?_, rfl, kept⟩
    simpa using List.find?_eq_none.mp absent message ((mem_searchOrder_iff m message).mpr holds)
  | dropped short kept => omega

/-- Every run of sends and receives, with receives dropped at any await point,
    follows the undelivered messages of both classes. -/
theorem mailbox_refines_backlog (calls : List Call) (s : Session)
    (reached : sessionMachine.run start calls = some s) : s.RefinesBacklog := by
  have faithful := run_faithful reached
  have isOpen := faithful.isOpen
  have searched := faithful.searched
  have same := faithful.backlog_eq
  refine ⟨same, ?_, ?_, fun _ => ?_, fun _ => ?_, fun waiting => ?_, fun matcher _ => ?_,
    fun matcher waiting => ?_⟩
  · rw [← same]
    exact faithful.accounts.1.conserved
  · rw [← same]
    exact faithful.accounts.2.conserved
  · rw [← same]
    exact tryRecv_spec s.mailbox
  · rw [← same, recv_open isOpen]
    exact takesOldest_tryRecv s.mailbox
  · rw [waiting] at searched
    rw [← same, recvSelect_open isOpen searched]
    exact takesOldest_tryRecv s.mailbox
  · rw [← same]
    exact takesMatch_of_selected (Nat.le_refl _) (selectiveRecv_spec matcher _ isOpen).2
  · rw [waiting] at searched
    have stashed : s.mailbox.stash.find? matcher = none := by
      rw [List.find?_eq_none]
      intro message member
      simp [searched message member]
    have order : s.mailbox.searchOrder.find? matcher = s.mailbox.channelOrder.find? matcher := by
      rw [searchOrder, List.append_assoc, List.find?_append, stashed, Option.none_or]
      rfl
    rw [← same, selectiveResume_eq_loop]
    exact takesMatch_of_selected (by omega) ((selectiveLoop_spec matcher _ isOpen searched).2.of_order order)

/-- A selective receive stashes a message and is cancelled; later sends queue behind it. -/
def cancelledCalls : List Call :=
  [.send (.user [1]), .selectiveRecv Message.isSystem none, .cancel, .sendSystem .ping, .sendUserBytes [2]]

def afterCancelled : Session :=
  ⟨⟨⟨[[2]], true, true⟩, ⟨[.ping], true, true⟩, [.user [1]], 2⟩, none,
    [.user [1], .system .ping, .user [2]], []⟩

theorem mailbox_refines_backlog_cancelled :
    sessionMachine.run start cancelledCalls = some afterCancelled ∧ afterCancelled.RefinesBacklog :=
  ⟨rfl, mailbox_refines_backlog cancelledCalls afterCancelled rfl⟩

end Session

end Myrmidon
