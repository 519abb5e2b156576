import Myrmidon.Mailbox.Model

namespace Myrmidon

open Data

inductive SendStage where
  | increment
  | push
  | rollback
  | returned (result : Except Message Unit)
  deriving DecidableEq

/-- A call of `send`, `send_user_bytes` or `send_system`. Only user messages are counted. -/
structure Sending where
  message : Message
  stage : SendStage
  deriving DecidableEq

namespace Sending

def new : Message → Sending
  | .user bytes => ⟨.user bytes, .increment⟩
  | .system message => ⟨.system message, .push⟩

def step (m : Mailbox) (call : Sending) : Option (Mailbox × Sending) :=
  match call.stage, call.message with
  | .increment, .user _ => some ({ m with counter := m.counter + 1 }, { call with stage := .push })
  | .push, .user bytes =>
    match m.user.send bytes with
    | .ok user => some ({ m with user }, { call with stage := .returned (.ok ()) })
    | .error _ => some (m, { call with stage := .rollback })
  | .push, .system message =>
    match m.sys.send message with
    | .ok sys => some ({ m with sys }, { call with stage := .returned (.ok ()) })
    | .error _ => some (m, { call with stage := .returned (.error (.system message)) })
  | .rollback, .user bytes =>
    some ({ m with counter := m.counter - 1 }, { call with stage := .returned (.error (.user bytes)) })
  | _, _ => none

/-- Everything one step of a send can do. -/
inductive Steps (m : Mailbox) : Sending → Mailbox → Sending → Prop where
  | counted {bytes : Bytes} :
      Steps m ⟨.user bytes, .increment⟩ { m with counter := m.counter + 1 } ⟨.user bytes, .push⟩
  | pushed {bytes : Bytes} (alive : m.user.receiverAlive = true) :
      Steps m ⟨.user bytes, .push⟩ { m with user := { m.user with queue := m.user.queue ++ [bytes] } }
        ⟨.user bytes, .returned (.ok ())⟩
  | refused {bytes : Bytes} (closed : m.user.receiverAlive = false) :
      Steps m ⟨.user bytes, .push⟩ m ⟨.user bytes, .rollback⟩
  | rolledBack {bytes : Bytes} :
      Steps m ⟨.user bytes, .rollback⟩ { m with counter := m.counter - 1 }
        ⟨.user bytes, .returned (.error (.user bytes))⟩
  | pushedSystem {message : SystemMessage} (alive : m.sys.receiverAlive = true) :
      Steps m ⟨.system message, .push⟩ { m with sys := { m.sys with queue := m.sys.queue ++ [message] } }
        ⟨.system message, .returned (.ok ())⟩
  | refusedSystem {message : SystemMessage} (closed : m.sys.receiverAlive = false) :
      Steps m ⟨.system message, .push⟩ m ⟨.system message, .returned (.error (.system message))⟩

theorem steps_of_step {m later : Mailbox} {call next : Sending} (stepped : call.step m = some (later, next)) :
    Steps m call later next := by
  rcases call with ⟨message, stage⟩
  cases message with
  | user bytes =>
    cases stage with
    | increment =>
      cases stepped
      exact .counted
    | push =>
      simp only [step, Channel.send] at stepped
      by_cases alive : m.user.receiverAlive = true
      · rw [if_pos alive] at stepped
        cases stepped
        exact .pushed alive
      · rw [if_neg alive] at stepped
        cases stepped
        exact .refused (eq_false_of_ne_true alive)
    | rollback =>
      cases stepped
      exact .rolledBack
    | returned result => cases stepped
  | system message =>
    cases stage with
    | push =>
      simp only [step, Channel.send] at stepped
      by_cases alive : m.sys.receiverAlive = true
      · rw [if_pos alive] at stepped
        cases stepped
        exact .pushedSystem alive
      · rw [if_neg alive] at stepped
        cases stepped
        exact .refusedSystem (eq_false_of_ne_true alive)
    | _ => cases stepped

end Sending

inductive RecvKind where
  | recv
  | tryRecv
  | selective
  deriving DecidableEq

/-- Where a receiver is between its steps: at the stash, at one of the queues,
    waiting in its `select!`, about to count down, or outside of every call. -/
inductive RecvStage where
  | idle
  | searchStash (kind : RecvKind)
  | trySys (kind : RecvKind)
  | popStash (kind : RecvKind)
  | tryUser
  | selectSys (kind : RecvKind)
  | selectUser (kind : RecvKind)
  | waiting (kind : RecvKind)
  | decrement (message : Message)
  | returned (result : Option Message)
  deriving DecidableEq

/-- What a receiver does not control: the call it is used for next, the answers
    of the matcher, in the order in which it is asked in this step, and whether
    a waiting call is dropped. -/
structure RecvInput where
  kind : RecvKind
  answers : List Bool
  dropped : Bool

namespace RecvStage

/-- A user message is counted down before it is returned. -/
def deliver : Message → RecvStage
  | .user bytes => .decrement (.user bytes)
  | .system message => .returned (some (.system message))

/-- `position` on the stash, where the matcher gives its answers one by one. -/
def position (kind : RecvKind) (stash : List Message) (answers : List Bool) : Option Nat :=
  match kind with
  | .recv | .tryRecv => stash.findIdx? Message.isSystem
  | .selective => (answers.take stash.length).findIdx? id

/-- A message from one of the queues. -/
def offer (m : Mailbox) (kind : RecvKind) (answers : List Bool) (message : Message) : Mailbox × RecvStage :=
  match kind with
  | .recv | .tryRecv => (m, deliver message)
  | .selective =>
    if answers.headD false then (m, deliver message)
    else ({ m with stash := m.stash ++ [message] }, .trySys .selective)

def step (m : Mailbox) (stage : RecvStage) (input : RecvInput) : Mailbox × RecvStage :=
  match stage with
  | .idle | .returned _ => (m, .searchStash input.kind)
  | .searchStash kind =>
    match (position kind m.stash input.answers).bind fun pos => (m.stash[pos]?).map fun found => (pos, found) with
    | some (pos, found) => ({ m with stash := m.stash.eraseIdx pos }, deliver found)
    | none => (m, .trySys kind)
  | .trySys kind =>
    match m.sys.tryRecv with
    | some (message, sys) => offer { m with sys } kind input.answers (.system message)
    | none =>
      match kind with
      | .selective => (m, .selectSys kind)
      | .recv | .tryRecv => (m, .popStash kind)
  | .popStash kind =>
    match m.stash with
    | front :: stash => ({ m with stash }, deliver front)
    | [] =>
      match kind with
      | .tryRecv => (m, .tryUser)
      | .recv | .selective => (m, .selectSys kind)
  | .tryUser =>
    match m.user.tryRecv with
    | some (bytes, user) => ({ m with user }, deliver (.user bytes))
    | none => (m, .returned none)
  | .selectSys kind =>
    match m.sys.recv with
    | .ready (some (message, sys)) => offer { m with sys } kind input.answers (.system message)
    | .ready none => (m, .returned none)
    | .pending => (m, .selectUser kind)
  | .selectUser kind =>
    match m.user.recv with
    | .ready (some (bytes, user)) => offer { m with user } kind input.answers (.user bytes)
    | .ready none => (m, .returned none)
    | .pending => (m, .waiting kind)
  | .waiting kind => if input.dropped then (m, .idle) else (m, .selectSys kind)
  | .decrement message => ({ m with counter := m.counter - 1 }, .returned (some message))

end RecvStage

end Myrmidon
