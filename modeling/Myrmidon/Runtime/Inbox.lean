import Myrmidon.Mailbox.Custody

namespace Myrmidon

open Data

/-- The mailbox of one actor, and whether the sender is still in `mailboxes`.
    What was accepted by a send is kept in order besides. -/
structure Inbox where
  mailbox : Mailbox
  listed : Bool
  accepted : List Message

inductive InboxCall where
  | send (message : Message)
  | stop

namespace Inbox

def new : Inbox := ⟨.channel, true, []⟩

def send (s : Inbox) (message : Message) : Inbox :=
  if s.listed then
    match s.mailbox.send message with
    | (.ok (), mailbox) => { s with mailbox, accepted := s.accepted ++ [message] }
    | (.error _, mailbox) => { s with mailbox }
  else s

/-- The sender in the table is the last one. -/
def stop (s : Inbox) : Inbox :=
  if s.listed then { s with mailbox := s.mailbox.dropSenders, listed := false } else s

def call (s : Inbox) : InboxCall → Inbox
  | .send message => s.send message
  | .stop => s.stop

/-- One step of the actor's `recv`. -/
def recv (s : Inbox) (stage : RecvStage) : Inbox × RecvStage :=
  let (mailbox, stage) := stage.step s.mailbox ⟨.recv, [], false⟩
  ({ s with mailbox }, stage)

/-- What the actor does when it ends. -/
def close (s : Inbox) : Inbox := { s with mailbox := s.mailbox.dropReceiver }

/-- Every accepted message is done, in hand or still queued, in the order of its class. -/
structure InOrder (s : Inbox) (done hand : List Message) : Prop where
  stash : s.mailbox.stash = []
  system : systemOf s.accepted = systemOf done ++ (systemOf hand ++ s.mailbox.sys.queue)
  user : userOf s.accepted = userOf done ++ (userOf hand ++ s.mailbox.user.queue)
  sysSender : s.mailbox.sys.senderAlive = s.listed
  userSender : s.mailbox.user.senderAlive = s.listed

theorem InOrder.new : InOrder .new [] [] := ⟨rfl, rfl, rfl, rfl, rfl⟩

end Inbox

theorem systemOf_append (first second : List Message) :
    systemOf (first ++ second) = systemOf first ++ systemOf second :=
  List.filterMap_append

theorem userOf_append (first second : List Message) : userOf (first ++ second) = userOf first ++ userOf second :=
  List.filterMap_append

namespace Inbox

variable {s : Inbox} {done hand : List Message}

/-- The message in hand is dealt with. -/
theorem InOrder.finish (ordered : InOrder s done hand) : InOrder s (done ++ hand) [] := by
  obtain ⟨stash, system, user, sysSender, userSender⟩ := ordered
  refine ⟨stash, ?_, ?_, sysSender, userSender⟩
  · rw [system, systemOf_append, List.append_assoc]
    rfl
  · rw [user, userOf_append, List.append_assoc]
    rfl

theorem InOrder.close (ordered : InOrder s done hand) : InOrder s.close done hand :=
  ⟨ordered.stash, ordered.system, ordered.user, ordered.sysSender, ordered.userSender⟩

theorem InOrder.recv {stage : RecvStage} (ordered : InOrder s done stage.hand) (receives : stage.Receives)
    (unanswered : stage.Unanswered) :
    InOrder (s.recv stage).1 done (s.recv stage).2.hand ∧ (s.recv stage).2.Receives ∧
      ((s.recv stage).2 = .returned none → s.listed = false) := by
  obtain ⟨stash, system, user, sysSender, userSender⟩ := ordered
  have turn : RecvStage.InTurn s.mailbox (stage.step s.mailbox ⟨.recv, [], false⟩).1 stage
      (stage.step s.mailbox ⟨.recv, [], false⟩).2 := RecvStage.step_inTurn stash receives unanswered rfl
  have ends := RecvStage.step_ends s.mailbox stage ⟨.recv, [], false⟩
  simp only [Mailbox.ends, Prod.mk.injEq] at ends
  obtain ⟨sys, -, users, -⟩ := ends
  refine ⟨⟨turn.stash, ?_, ?_, sys.trans sysSender, users.trans userSender⟩, turn.receives, ?_⟩
  · show systemOf s.accepted = _
    rw [system]
    exact congrArg (systemOf done ++ ·) turn.system.symm
  · show userOf s.accepted = _
    rw [user]
    exact congrArg (userOf done ++ ·) turn.user.symm
  · intro told
    rcases (RecvStage.step_awaits unanswered receives.awaits (by simp)).2 told with closed | closed
    · exact sysSender.symm.trans closed
    · exact userSender.symm.trans closed

theorem InOrder.send (ordered : InOrder s done hand) (message : Message) : InOrder (s.send message) done hand := by
  obtain ⟨stash, system, user, sysSender, userSender⟩ := ordered
  unfold Inbox.send
  split
  · cases message with
    | user bytes =>
      cases alive : s.mailbox.user.receiverAlive with
      | true =>
        simp only [Mailbox.send, Channel.send, alive, if_true]
        refine ⟨stash, ?_, ?_, sysSender, userSender⟩
        · rw [systemOf_append_user, system]
        · rw [userOf_append_user, user, List.append_assoc, List.append_assoc]
      | false =>
        simp only [Mailbox.send, Channel.send, alive, Bool.false_eq_true, if_false]
        exact ⟨stash, system, user, sysSender, userSender⟩
    | system content =>
      cases alive : s.mailbox.sys.receiverAlive with
      | true =>
        simp only [Mailbox.send, Channel.send, alive, if_true]
        refine ⟨stash, ?_, ?_, sysSender, userSender⟩
        · rw [systemOf_append_system, system, List.append_assoc, List.append_assoc]
        · rw [userOf_append_system, user]
      | false =>
        simp only [Mailbox.send, Channel.send, alive, Bool.false_eq_true, if_false]
        exact ⟨stash, system, user, sysSender, userSender⟩
  · exact ⟨stash, system, user, sysSender, userSender⟩

theorem InOrder.stop (ordered : InOrder s done hand) : InOrder s.stop done hand := by
  unfold Inbox.stop
  split
  · exact ⟨ordered.stash, ordered.system, ordered.user, rfl, rfl⟩
  · exact ordered

theorem InOrder.call (ordered : InOrder s done hand) (operation : InboxCall) :
    InOrder (s.call operation) done hand := by
  cases operation with
  | send message => exact ordered.send message
  | stop => exact ordered.stop

theorem listed_call (operation : InboxCall) (unlisted : s.listed = false) : (s.call operation).listed = false := by
  cases operation with
  | send message => simp [call, send, unlisted]
  | stop => simp [call, stop, unlisted]

end Inbox

end Myrmidon
