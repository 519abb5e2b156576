import Mathlib.Data.List.TakeWhile
import Myrmidon.Mailbox.Session

namespace Myrmidon

open Data Transition

namespace Mailbox

/-- The system messages at the front of the stash, before its first user message. -/
def stashedAhead (m : Mailbox) : List Message := m.stash.takeWhile Message.isSystem

/-- No stashed user message stands before a system message that is still to be
    delivered: `selective_recv` searches the stash from its front, and only then
    the system channel. -/
def SystemAhead (m : Mailbox) : Prop :=
  (∃ bytes, Message.user bytes ∈ m.stash) → ∀ message ∈ m.backlog.system, Message.system message ∈ m.stashedAhead

theorem selectiveRecv_first {m : Mailbox} (isOpen : m.Open) (matcher : Message → Bool) :
    (m.selectiveRecv matcher m.turnsNeeded).1 = some (Poll.ofOption (m.searchOrder.find? matcher)) := by
  have selected := (selectiveRecv_spec matcher m.turnsNeeded isOpen).2
  generalize m.selectiveRecv matcher m.turnsNeeded = out at selected ⊢
  cases selected with
  | found first backlog => simp [first, Poll.ofOption]
  | waiting absent backlog unmatched => simp [absent, Poll.ofOption]
  | dropped short backlog => exact absurd short (Nat.lt_irrefl _)

theorem Selected.first {m : Mailbox} {matcher : Message → Bool} {order : List Message} {turns : Nat}
    {out : Option (Poll (Option Message)) × Mailbox} (selected : m.Selected matcher order turns out)
    {message : Message} (returned : out.1 = some (.ready (some message))) : order.find? matcher = some message := by
  cases selected with
  | found first backlog =>
    cases returned
    exact first
  | waiting absent backlog unmatched => cases returned
  | dropped short backlog => cases returned

theorem recv_oldest {m : Mailbox} (isOpen : m.Open) : m.recv.1 = Poll.ofOption m.backlog.oldest := by
  rw [recv_open isOpen, (tryRecv_spec m).1]

theorem find?_channelOrder_user {m : Mailbox} {matcher : Message → Bool} {bytes : Bytes}
    (found : m.channelOrder.find? matcher = some (.user bytes)) :
    ∀ message ∈ m.sys.queue, matcher (.system message) = false := by
  intro message member
  rw [channelOrder, List.find?_append] at found
  cases early : (m.sys.queue.map Message.system).find? matcher with
  | none =>
    have fails := List.find?_eq_none.mp early (.system message) (List.mem_map_of_mem member)
    simpa using fails
  | some first =>
    rw [early, Option.some_or, Option.some.injEq] at found
    have inside := List.mem_of_find?_eq_some early
    rw [found, List.mem_map] at inside
    obtain ⟨other, -, same⟩ := inside
    cases same

theorem mem_backlog_system {m : Mailbox} {message : SystemMessage} :
    message ∈ m.backlog.system ↔ Message.system message ∈ m.stash ∨ message ∈ m.sys.queue := by
  rw [backlog, List.mem_append, mem_systemOf]

/-- A user message found past the front of the stash leaves no match there. -/
theorem find?_user_ahead {m : Mailbox} {matcher : Message → Bool} {bytes : Bytes}
    (found : m.searchOrder.find? matcher = some (.user bytes)) :
    ∀ message ∈ m.stashedAhead, matcher message = false := by
  have split : m.searchOrder = m.stashedAhead ++ (m.stash.dropWhile Message.isSystem ++ m.channelOrder) := by
    rw [← List.append_assoc, stashedAhead, List.takeWhile_append_dropWhile, searchOrder, List.append_assoc]
    rfl
  rw [split, List.find?_append] at found
  cases early : m.stashedAhead.find? matcher with
  | none =>
    intro message member
    simpa using List.find?_eq_none.mp early message member
  | some first =>
    rw [early, Option.some_or, Option.some.injEq] at found
    have isSystem := List.mem_takeWhile_imp (List.mem_of_find?_eq_some early)
    rw [found] at isSystem
    cases isSystem

theorem SystemAhead.find?_user {m : Mailbox} (ahead : m.SystemAhead) {matcher : Message → Bool} {bytes : Bytes}
    (found : m.searchOrder.find? matcher = some (.user bytes)) :
    ∀ message ∈ m.backlog.system, matcher (.system message) = false := by
  intro message member
  by_cases stashed : ∃ bytes, Message.user bytes ∈ m.stash
  · exact find?_user_ahead found _ (ahead stashed message member)
  · -- Only system messages are stashed, so the match comes from the user channel.
    have allSystem : ∀ other ∈ m.stash, Message.isSystem other = true := by
      intro other inside
      cases other with
      | user bytes => exact absurd ⟨bytes, inside⟩ stashed
      | system message => rfl
    have whole : m.stashedAhead = m.stash := List.takeWhile_eq_self_iff.mpr allSystem
    rcases mem_backlog_system.mp member with member | member
    · exact find?_user_ahead found _ (whole ▸ member)
    · have unstashed : m.stash.find? matcher = none := by
        rw [List.find?_eq_none]
        intro other inside
        simp [find?_user_ahead found other (whole ▸ inside)]
      rw [searchOrder, List.append_assoc, List.find?_append, unstashed, Option.none_or] at found
      exact find?_channelOrder_user found message member

theorem find?_true (messages : List Message) : messages.find? (fun _ => true) = messages.head? := by
  cases messages <;> rfl

theorem SystemAhead.head {m : Mailbox} (ahead : m.SystemAhead) : m.searchOrder.head? = m.backlog.oldest := by
  cases stashed : m.stash with
  | nil => simp [searchOrder, Backlog.oldest, Backlog.inOrder, backlog, stashed, systemOf, userOf]
  | cons front rest =>
    have first : m.searchOrder.head? = some front := by simp [searchOrder, stashed]
    rw [first]
    cases front with
    | system message =>
      exact (oldest_of_stashed_system m (by rw [stashed]; rfl)).symm
    | user bytes =>
      have none : m.backlog.system = [] := by
        rw [List.eq_nil_iff_forall_not_mem]
        intro message member
        have inside := ahead ⟨bytes, by rw [stashed]; exact List.mem_cons_self⟩ message member
        rw [stashedAhead, stashed] at inside
        simp [Message.isSystem] at inside
      have stashedUser : userOf m.stash = bytes :: userOf rest := by rw [stashed]; rfl
      rw [Backlog.oldest, Backlog.inOrder, none]
      simp [backlog, stashedUser]

/-- Past the front of a stash with a user message stands a user message. -/
theorem exists_user_behind {m : Mailbox} (stashed : ∃ bytes, Message.user bytes ∈ m.stash) :
    ∃ bytes rest, m.stash = m.stashedAhead ++ .user bytes :: rest := by
  have split := List.takeWhile_append_dropWhile (p := Message.isSystem) (l := m.stash)
  cases behind : m.stash.dropWhile Message.isSystem with
  | nil =>
    obtain ⟨bytes, member⟩ := stashed
    have isSystem := List.dropWhile_eq_nil_iff.mp behind _ member
    cases isSystem
  | cons front rest =>
    have stops := List.head?_dropWhile_not Message.isSystem m.stash
    rw [behind] at stops split
    cases front with
    | system message => cases stops
    | user bytes => exact ⟨bytes, rest, split.symm⟩

/-- A matcher for one user message behind the front and one system message not
    at the front: the user message is found. -/
theorem systemAhead_of_find? {m : Mailbox}
    (respects : ∀ (matcher : Message → Bool) (bytes : Bytes), m.searchOrder.find? matcher = some (.user bytes) →
      ∀ message ∈ m.backlog.system, matcher (.system message) = false) : m.SystemAhead := by
  intro stashed message member
  by_contra behind
  obtain ⟨bytes, rest, split⟩ := exists_user_behind stashed
  let matcher : Message → Bool := fun other => other == .user bytes || other == .system message
  have skipped : m.stashedAhead.find? matcher = none := by
    rw [List.find?_eq_none]
    intro other inside
    have isSystem : Message.isSystem other = true := List.mem_takeWhile_imp inside
    cases other with
    | user other => cases isSystem
    | system other =>
      have different : other ≠ message := by
        intro same
        exact behind (same ▸ inside)
      simp [matcher, different]
  have found : m.searchOrder.find? matcher = some (.user bytes) := by
    rw [searchOrder, split, List.append_assoc, List.append_assoc, List.find?_append, skipped, Option.none_or,
      List.cons_append, List.find?_cons_of_pos (by simp [matcher])]
  have fails := respects matcher bytes found message member
  simp [matcher] at fails

end Mailbox

namespace Session

open Mailbox

/-- The call returned a user message only if no system message of `b` passes. -/
def SystemFirst (b : Backlog) (matcher : Message → Bool) (out : Option (Poll (Option Message))) : Prop :=
  ∀ bytes, out = some (.ready (some (.user bytes))) → ∀ message ∈ b.system, matcher (.system message) = false

structure RespectsPriority (s : Session) : Prop where
  sameAsRecv : (s.mailbox.selectiveRecv (fun _ => true) s.mailbox.turnsNeeded).1 = some s.mailbox.recv.1
  systemFirst : ∀ matcher turns, SystemFirst s.undelivered matcher (s.mailbox.selectiveRecv matcher turns).1

theorem RespectsPriority.of_systemAhead {s : Session} (faithful : s.Faithful) (ahead : s.mailbox.SystemAhead) :
    s.RespectsPriority where
  sameAsRecv := by
    rw [selectiveRecv_first faithful.isOpen, recv_oldest faithful.isOpen, find?_true, ahead.head]
  systemFirst := by
    intro matcher turns bytes returned
    have found := (selectiveRecv_spec matcher turns faithful.isOpen).2.first returned
    rw [← faithful.backlog_eq]
    exact ahead.find?_user found

theorem RespectsPriority.systemAhead {s : Session} (faithful : s.Faithful) (respects : s.RespectsPriority) :
    s.mailbox.SystemAhead := by
  apply systemAhead_of_find?
  intro matcher bytes found
  rw [faithful.backlog_eq]
  apply respects.systemFirst matcher s.mailbox.turnsNeeded bytes
  rw [selectiveRecv_first faithful.isOpen, found]
  rfl

/-- A selective receive that waits has searched the stash already: once polled
    again it looks at the system channel first. -/
theorem Faithful.polled_systemFirst {s : Session} (faithful : s.Faithful) {matcher : Message → Bool}
    (waiting : s.waiting = some (.selective matcher)) (turns : Nat) :
    SystemFirst s.undelivered matcher (s.mailbox.selectiveResume matcher turns).1 := by
  have searched := faithful.searched
  rw [waiting] at searched
  intro bytes returned message member
  rw [selectiveResume_eq_loop] at returned
  have found := (selectiveLoop_spec matcher (turns + 1) faithful.isOpen searched).2.first returned
  rw [← faithful.backlog_eq] at member
  rcases mem_backlog_system.mp member with member | member
  · exact searched _ member
  · exact find?_channelOrder_user found message member

/-- In every session, a selective receive respects the priority of system
    messages exactly when no stashed user message stands before one of them; a
    receive that already waits always does. -/
theorem selective_priority_iff (calls : List Call) (s : Session)
    (reached : sessionMachine.run start calls = some s) :
    (s.waiting = none → (s.RespectsPriority ↔ s.mailbox.SystemAhead)) ∧
      ∀ matcher turns, s.waiting = some (.selective matcher) →
        SystemFirst s.undelivered matcher (s.mailbox.selectiveResume matcher turns).1 := by
  have faithful := run_faithful reached
  constructor
  · intro _
    exact ⟨fun respects => respects.systemAhead faithful, fun ahead => .of_systemAhead faithful ahead⟩
  · intro matcher turns waiting
    exact faithful.polled_systemFirst waiting turns

/-- A call that matches nothing stashes the ping before the user message. -/
def stashingCalls : List Call :=
  [.send (.user [1]), .sendSystem .ping, .selectiveRecv (fun _ => false) none, .cancel]

def afterStashing : Session :=
  ⟨⟨⟨[], true, true⟩, ⟨[], true, true⟩, [.system .ping, .user [1]], 1⟩, none, [.user [1], .system .ping], []⟩

theorem afterStashing_systemAhead : afterStashing.mailbox.SystemAhead := by
  intro _ message member
  have isPing : message ∈ [SystemMessage.ping] := member
  rw [List.mem_singleton] at isPing
  rw [isPing]
  decide

theorem selective_priority_iff_stashing :
    sessionMachine.run start stashingCalls = some afterStashing ∧ afterStashing.RespectsPriority :=
  ⟨rfl, ((selective_priority_iff stashingCalls afterStashing rfl).1 rfl).mpr afterStashing_systemAhead⟩

/-- `[1]` was stashed before the ping was sent: a receive of any message returns
    `[1]`, where `recv` returns the ping. -/
theorem stashed_user_overtakes_system :
    sessionMachine.run start cancelledCalls = some afterCancelled ∧ afterCancelled.waiting = none ∧
      (afterCancelled.mailbox.selectiveRecv (fun _ => true) afterCancelled.mailbox.turnsNeeded).1 =
        some (.ready (some (.user [1]))) ∧
      afterCancelled.mailbox.recv.1 = .ready (some (.system .ping)) ∧
      .ping ∈ afterCancelled.undelivered.system ∧ ¬ afterCancelled.RespectsPriority := by
  have selected : (afterCancelled.mailbox.selectiveRecv (fun _ => true) afterCancelled.mailbox.turnsNeeded).1 =
      some (.ready (some (.user [1]))) := rfl
  have received : afterCancelled.mailbox.recv.1 = .ready (some (.system .ping)) := rfl
  refine ⟨rfl, rfl, selected, received, by decide, ?_⟩
  intro respects
  have same := respects.sameAsRecv
  rw [selected, received] at same
  cases same

end Session

end Myrmidon
