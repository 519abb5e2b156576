import Myrmidon.Data.Channel
import Myrmidon.Slab.Allocator

namespace Myrmidon

open Data

abbrev Bytes := List UInt8

inductive ExitReason where
  | normal
  | panic
  | timeout
  | killed
  | oom
  | other (text : String)
  deriving DecidableEq

structure ExitInfo where
  fromPid : Pid
  reason : ExitReason
  metadata : Option String
  deriving DecidableEq

inductive SystemMessage where
  | exit (info : ExitInfo)
  | hotSwap (handler : BitVec 64)
  | ping
  | pong
  deriving DecidableEq

inductive Message where
  | user (bytes : Bytes)
  | system (message : SystemMessage)
  deriving DecidableEq

def Message.isSystem : Message → Bool
  | .system _ => true
  | .user _ => false

/-- Both halves of one mailbox. `counter` is the shared count of queued user
    messages; its arithmetic wraps as `fetch_add` and `fetch_sub` do. -/
structure Mailbox where
  user : Channel Bytes
  sys : Channel SystemMessage
  stash : List Message
  counter : BitVec 64
  deriving DecidableEq

namespace Mailbox

def channel : Mailbox := ⟨.new, .new, [], 0⟩

def sendUserBytes (m : Mailbox) (bytes : Bytes) : Except Bytes Unit × Mailbox :=
  let counted := m.counter + 1
  match m.user.send bytes with
  | .ok user => (.ok (), { m with user, counter := counted })
  | .error _ => (.error bytes, { m with counter := counted - 1 })

def sendSystem (m : Mailbox) (message : SystemMessage) : Except SystemMessage Unit × Mailbox :=
  match m.sys.send message with
  | .ok sys => (.ok (), { m with sys })
  | .error _ => (.error message, m)

def send (m : Mailbox) : Message → Except Message Unit × Mailbox
  | .user bytes =>
    let counted := m.counter + 1
    match m.user.send bytes with
    | .ok user => (.ok (), { m with user, counter := counted })
    | .error _ => (.error (.user bytes), { m with counter := counted - 1 })
  | .system message =>
    match m.sys.send message with
    | .ok sys => (.ok (), { m with sys })
    | .error _ => (.error (.system message), m)

def len (m : Mailbox) : BitVec 64 := m.counter

/-- `position` on the stash, then `VecDeque::remove` of that position. -/
def removeFirst (matcher : Message → Bool) (stash : List Message) : Option (Option Message × List Message) :=
  match stash.findIdx? matcher with
  | none => none
  | some pos => some (stash[pos]?, stash.eraseIdx pos)

def countDown (counter : BitVec 64) : Option Message → BitVec 64
  | some (.user _) => counter - 1
  | _ => counter

/-- The `select!` of `recv`. It is biased: the user branch is only looked at
    while the system branch is pending. -/
def recvSelect (m : Mailbox) : Poll (Option Message) × Mailbox :=
  match m.sys.recv with
  | .ready (some (message, sys)) => (.ready (some (.system message)), { m with sys })
  | .ready none => (.ready none, m)
  | .pending =>
    match m.user.recv with
    | .ready (some (bytes, user)) => (.ready (some (.user bytes)), { m with user, counter := m.counter - 1 })
    | .ready none => (.ready none, m)
    | .pending => (.pending, m)

def recv (m : Mailbox) : Poll (Option Message) × Mailbox :=
  match removeFirst Message.isSystem m.stash with
  | some (found, stash) => (.ready found, { m with stash })
  | none =>
    match m.sys.tryRecv with
    | some (message, sys) => (.ready (some (.system message)), { m with sys })
    | none =>
      match m.stash with
      | front :: stash => (.ready (some front), { m with stash, counter := countDown m.counter (some front) })
      | [] => m.recvSelect

def tryRecv (m : Mailbox) : Option Message × Mailbox :=
  match removeFirst Message.isSystem m.stash with
  | some (found, stash) => (found, { m with stash })
  | none =>
    match m.sys.tryRecv with
    | some (message, sys) => (some (.system message), { m with sys })
    | none =>
      match m.stash with
      | front :: stash => (some front, { m with stash, counter := countDown m.counter (some front) })
      | [] =>
        match m.user.tryRecv with
        | some (bytes, user) => (some (.user bytes), { m with user, counter := m.counter - 1 })
        | none => (none, m)

inductive Turn where
  | done (result : Option Message) (m : Mailbox)
  | again (m : Mailbox)
  | wait
  deriving DecidableEq

def offerSystem (m : Mailbox) (matcher : Message → Bool) (message : SystemMessage)
    (sys : Channel SystemMessage) : Turn :=
  if matcher (.system message) then .done (some (.system message)) { m with sys }
  else .again { m with sys, stash := m.stash ++ [.system message] }

def offerUser (m : Mailbox) (matcher : Message → Bool) (bytes : Bytes) (user : Channel Bytes) : Turn :=
  if matcher (.user bytes) then .done (some (.user bytes)) { m with user, counter := m.counter - 1 }
  else .again { m with user, stash := m.stash ++ [.user bytes] }

def selectiveSelect (m : Mailbox) (matcher : Message → Bool) : Turn :=
  match m.sys.recv with
  | .ready (some (message, sys)) => m.offerSystem matcher message sys
  | .ready none => .done none m
  | .pending =>
    match m.user.recv with
    | .ready (some (bytes, user)) => m.offerUser matcher bytes user
    | .ready none => .done none m
    | .pending => .wait

def selectiveTurn (m : Mailbox) (matcher : Message → Bool) : Turn :=
  match m.sys.tryRecv with
  | some (message, sys) => m.offerSystem matcher message sys
  | none => m.selectiveSelect matcher

/-- The loop of `selective_recv`, left after `turns` turns: `none` is a call
    that was dropped before its next turn. -/
def selectiveLoop (matcher : Message → Bool) : Nat → Mailbox → Option (Poll (Option Message)) × Mailbox
  | 0, m => (none, m)
  | turns + 1, m =>
    match m.selectiveTurn matcher with
    | .done result after => (some (.ready result), after)
    | .again after => selectiveLoop matcher turns after
    | .wait => (some .pending, m)

/-- Turns that are enough for every queued message and a last look. -/
def turnsNeeded (m : Mailbox) : Nat := m.sys.queue.length + m.user.queue.length + 1

def selectiveRecv (m : Mailbox) (matcher : Message → Bool) (turns : Nat) :
    Option (Poll (Option Message)) × Mailbox :=
  match removeFirst matcher m.stash with
  | some (found, stash) => (some (.ready found), { m with stash, counter := countDown m.counter found })
  | none => selectiveLoop matcher turns m

/-- A waiting `selective_recv` polled again: it is still inside its `select!`. -/
def selectiveResume (m : Mailbox) (matcher : Message → Bool) (turns : Nat) :
    Option (Poll (Option Message)) × Mailbox :=
  match m.selectiveSelect matcher with
  | .done result after => (some (.ready result), after)
  | .again after => selectiveLoop matcher turns after
  | .wait => (some .pending, m)

def dropSenders (m : Mailbox) : Mailbox := { m with user := m.user.dropSenders, sys := m.sys.dropSenders }

def dropReceiver (m : Mailbox) : Mailbox :=
  { m with user := { m.user with receiverAlive := false }, sys := { m.sys with receiverAlive := false } }

end Mailbox

end Myrmidon
