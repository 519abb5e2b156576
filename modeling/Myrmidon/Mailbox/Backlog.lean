import Myrmidon.Data.Outstanding
import Myrmidon.Mailbox.Model

namespace Myrmidon

open Data

def Message.system? : Message → Option SystemMessage
  | .system message => some message
  | .user _ => none

def Message.user? : Message → Option Bytes
  | .user bytes => some bytes
  | .system _ => none

theorem Message.system?_eq_some (message : Message) (image : SystemMessage) :
    message.system? = some image ↔ message = .system image := by
  cases message <;> simp [Message.system?]

theorem Message.user?_eq_some (message : Message) (image : Bytes) :
    message.user? = some image ↔ message = .user image := by
  cases message <;> simp [Message.user?]

def systemOf (messages : List Message) : List SystemMessage := messages.filterMap Message.system?
def userOf (messages : List Message) : List Bytes := messages.filterMap Message.user?

theorem systemOf_append_system (messages : List Message) (message : SystemMessage) :
    systemOf (messages ++ [.system message]) = systemOf messages ++ [message] := by
  simp [systemOf, List.filterMap_append, Message.system?]

theorem systemOf_append_user (messages : List Message) (bytes : Bytes) :
    systemOf (messages ++ [.user bytes]) = systemOf messages := by
  simp [systemOf, List.filterMap_append, Message.system?]

theorem userOf_append_user (messages : List Message) (bytes : Bytes) :
    userOf (messages ++ [.user bytes]) = userOf messages ++ [bytes] := by
  simp [userOf, List.filterMap_append, Message.user?]

theorem userOf_append_system (messages : List Message) (message : SystemMessage) :
    userOf (messages ++ [.system message]) = userOf messages := by
  simp [userOf, List.filterMap_append, Message.user?]

/-- What a mailbox is for: the messages of each class it still has to deliver. -/
structure Backlog where
  system : List SystemMessage
  user : List Bytes
  deriving DecidableEq

namespace Backlog

def accept (b : Backlog) : Message → Backlog
  | .system message => { b with system := b.system ++ [message] }
  | .user bytes => { b with user := b.user ++ [bytes] }

def deliver (b : Backlog) : Message → Backlog
  | .system message => { b with system := b.system.erase message }
  | .user bytes => { b with user := b.user.erase bytes }

def Holds (b : Backlog) : Message → Prop
  | .system message => message ∈ b.system
  | .user bytes => bytes ∈ b.user

def inOrder (b : Backlog) : List Message := b.system.map .system ++ b.user.map .user

def oldest (b : Backlog) : Option Message := b.inOrder.head?

def OldestMatch (b : Backlog) (matcher : Message → Bool) : Message → Prop
  | .system message => b.system.find? (fun m => matcher (.system m)) = some message
  | .user bytes => b.user.find? (fun m => matcher (.user m)) = some bytes

end Backlog

namespace Mailbox

def backlog (m : Mailbox) : Backlog :=
  ⟨systemOf m.stash ++ m.sys.queue, userOf m.stash ++ m.user.queue⟩

structure Open (m : Mailbox) : Prop where
  sysSender : m.sys.senderAlive = true
  userSender : m.user.senderAlive = true
  sysReceiver : m.sys.receiverAlive = true
  userReceiver : m.user.receiverAlive = true

def searchOrder (m : Mailbox) : List Message := m.stash ++ m.sys.queue.map .system ++ m.user.queue.map .user

theorem systemOf_erase_system (stash : List Message) (message : SystemMessage) :
    systemOf (stash.erase (.system message)) = (systemOf stash).erase message := by
  apply filterMap_erase_some Message.system? rfl
  intro other hit
  exact (Message.system?_eq_some other message).mp hit

theorem userOf_erase_user (stash : List Message) (bytes : Bytes) :
    userOf (stash.erase (.user bytes)) = (userOf stash).erase bytes := by
  apply filterMap_erase_some Message.user? rfl
  intro other hit
  exact (Message.user?_eq_some other bytes).mp hit

theorem systemOf_erase_user (stash : List Message) (bytes : Bytes) :
    systemOf (stash.erase (.user bytes)) = systemOf stash := filterMap_erase_none Message.system? rfl stash

theorem userOf_erase_system (stash : List Message) (message : SystemMessage) :
    userOf (stash.erase (.system message)) = userOf stash := filterMap_erase_none Message.user? rfl stash

theorem mem_systemOf {stash : List Message} {message : SystemMessage} :
    message ∈ systemOf stash ↔ Message.system message ∈ stash := by
  simp [systemOf, List.mem_filterMap, Message.system?_eq_some]

theorem mem_userOf {stash : List Message} {bytes : Bytes} :
    bytes ∈ userOf stash ↔ Message.user bytes ∈ stash := by
  simp [userOf, List.mem_filterMap, Message.user?_eq_some]

theorem removeFirst_eq (matcher : Message → Bool) (stash : List Message) :
    removeFirst matcher stash =
      (stash.find? matcher).map fun found => (some found, stash.erase found) := by
  have removed := @List.eraseP_eq_eraseIdx _ stash matcher
  have located := @List.find?_eq_bind_findIdx?_getElem? _ stash matcher
  unfold removeFirst
  cases position : stash.findIdx? matcher with
  | none =>
    rw [position] at located
    simp [located]
  | some pos =>
    simp only [position] at removed
    rw [position, Option.bind_some] at located
    cases found : stash[pos]? with
    | none =>
      have inside := (List.findIdx?_eq_some_iff_getElem.mp position).1
      rw [List.getElem?_eq_none_iff] at found
      omega
    | some message =>
      rw [found] at located
      simp only [found, located, Option.map_some, ← eraseP_eq_erase_of_find? located, removed]

theorem backlog_erase_stash (m : Mailbox) (counter : BitVec 64) {message : Message} (member : message ∈ m.stash) :
    backlog { m with stash := m.stash.erase message, counter } = m.backlog.deliver message := by
  cases message with
  | system message =>
    simp only [backlog, Backlog.deliver, systemOf_erase_system, userOf_erase_system,
      List.erase_append_left _ (mem_systemOf.mpr member)]
  | user bytes =>
    simp only [backlog, Backlog.deliver, systemOf_erase_user, userOf_erase_user,
      List.erase_append_left _ (mem_userOf.mpr member)]

theorem backlog_take_system (m : Mailbox) {message : SystemMessage} {rest : List SystemMessage}
    (queued : m.sys.queue = message :: rest) (unstashed : Message.system message ∉ m.stash) :
    backlog { m with sys := { m.sys with queue := rest } } = m.backlog.deliver (.system message) := by
  simp only [backlog, Backlog.deliver, queued, List.erase_append_right _ (mt mem_systemOf.mp unstashed),
    List.erase_cons_head]

theorem backlog_take_user (m : Mailbox) (counter : BitVec 64) {bytes : Bytes} {rest : List Bytes}
    (queued : m.user.queue = bytes :: rest) (unstashed : Message.user bytes ∉ m.stash) :
    backlog { m with user := { m.user with queue := rest }, counter } = m.backlog.deliver (.user bytes) := by
  simp only [backlog, Backlog.deliver, queued, List.erase_append_right _ (mt mem_userOf.mp unstashed),
    List.erase_cons_head]

theorem systemOf_eq_nil_of_find? {stash : List Message} (absent : stash.find? Message.isSystem = none) :
    systemOf stash = [] := by
  rw [List.eq_nil_iff_forall_not_mem]
  intro message member
  exact List.find?_eq_none.mp absent _ (mem_systemOf.mp member) rfl

theorem oldest_of_stashed_system (m : Mailbox) {message : Message}
    (found : m.stash.find? Message.isSystem = some message) : m.backlog.oldest = some message := by
  obtain ⟨isSystem, before, after, split, skipped⟩ := List.find?_eq_some_iff_append.mp found
  cases message with
  | user bytes => cases isSystem
  | system message =>
    have none : systemOf before = [] := by
      apply systemOf_eq_nil_of_find?
      rw [List.find?_eq_none]
      intro other member
      simpa using skipped other member
    have first : systemOf m.stash = message :: systemOf after := by
      rw [split, systemOf, List.filterMap_append, ← systemOf, none]
      rfl
    simp [Backlog.oldest, Backlog.inOrder, backlog, first]

end Mailbox

end Myrmidon
