import Myrmidon.Mailbox.Custody

namespace Myrmidon

open Data

namespace RecvStage

/-- How far `recv` is from giving out a system message, if one is queued. Behind
    its last look at the system queue it may give out a user message first. -/
def systemAhead : RecvStage → Nat
  | .selectUser _ => 12
  | .decrement _ => 11
  | .returned (some (.user _)) => 10
  | .idle => 7
  | .searchStash _ => 6
  | .trySys _ => 5
  | .popStash _ | .waiting _ => 4
  | .selectSys _ => 3
  | .returned none => 1
  | .tryUser | .returned (some (.system _)) => 0

/-- How far `recv` is from giving out a user message, if one is queued. Every
    system message is one more round. -/
def userAhead : RecvStage → Nat
  | .decrement (.system _) => 14
  | .returned (some (.system _)) => 13
  | .idle => 10
  | .searchStash _ => 9
  | .trySys _ => 8
  | .popStash _ | .waiting _ => 7
  | .selectSys _ => 6
  | .selectUser _ => 5
  | .decrement (.user _) => 4
  | .returned (some (.user _)) => 3
  | .tryUser | .returned none => 0

variable {m : Mailbox} {stage : RecvStage}

theorem step_systemAhead (unstashed : m.stash = []) (receives : stage.Receives) (unanswered : stage.Unanswered)
    (waits : systemOf stage.hand ++ m.sys.queue ≠ []) :
    (stage.step m ⟨.recv, [], false⟩).2.systemAhead < stage.systemAhead := by
  cases stage with
  | returned result => exact unanswered.elim
  | tryUser => exact receives.elim
  | decrement message => cases message <;> simp [step, systemAhead]
  | selectUser own =>
    cases receives
    simp only [step, Channel.recv]
    cases m.user.queue with
    | cons bytes rest => simp [offer, deliver, systemAhead]
    | nil => cases m.user.senderAlive <;> simp [systemAhead]
  | idle => simp [step, systemAhead]
  | searchStash own =>
    cases receives
    simp [step, position, unstashed, systemAhead]
  | popStash own =>
    cases receives
    simp [step, unstashed, systemAhead]
  | waiting own => simp [step, systemAhead]
  | trySys own =>
    cases receives
    obtain ⟨message, rest, queue⟩ :=
      List.exists_cons_of_ne_nil (l := m.sys.queue) (by simpa [hand, systemOf] using waits)
    simp [step, Channel.tryRecv, queue, offer, deliver, systemAhead]
  | selectSys own =>
    cases receives
    obtain ⟨message, rest, queue⟩ :=
      List.exists_cons_of_ne_nil (l := m.sys.queue) (by simpa [hand, systemOf] using waits)
    simp [step, Channel.recv, queue, offer, deliver, systemAhead]

theorem step_userAhead (unstashed : m.stash = []) (receives : stage.Receives) (unanswered : stage.Unanswered)
    (waits : userOf stage.hand ++ m.user.queue ≠ []) :
    14 * (stage.step m ⟨.recv, [], false⟩).1.sys.queue.length + (stage.step m ⟨.recv, [], false⟩).2.userAhead <
      14 * m.sys.queue.length + stage.userAhead := by
  cases stage with
  | returned result => exact unanswered.elim
  | tryUser => exact receives.elim
  | decrement message => cases message <;> simp [step, userAhead]
  | selectUser own =>
    cases receives
    obtain ⟨bytes, rest, queue⟩ := List.exists_cons_of_ne_nil (l := m.user.queue) (by simpa [hand, userOf] using waits)
    simp [step, Channel.recv, queue, offer, deliver, userAhead]
  | idle => simp [step, userAhead]
  | searchStash own =>
    cases receives
    simp [step, position, unstashed, userAhead]
  | popStash own =>
    cases receives
    simp [step, unstashed, userAhead]
  | waiting own => simp [step, userAhead]
  | trySys own =>
    cases receives
    simp only [step, Channel.tryRecv]
    cases queue : m.sys.queue with
    | nil => simp [queue, userAhead]
    | cons message rest =>
      simp only [offer, deliver, userAhead, List.length_cons]
      omega
  | selectSys own =>
    cases receives
    simp only [step, Channel.recv]
    cases queue : m.sys.queue with
    | nil => cases m.sys.senderAlive <;> simp [queue, userAhead]
    | cons message rest =>
      simp only [offer, deliver, userAhead, List.length_cons]
      omega

end RecvStage

end Myrmidon
