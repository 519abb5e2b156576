import Myrmidon.Mailbox.Model

namespace Myrmidon.Python

open Data

/-- A Python callable, by the address a hot swap hands over. -/
abbrev PyObject := BitVec 64

/-- Which `Arc<RwLock<PyObject>>`: each spawn makes a new one. -/
abbrev BehaviorRef := Nat

inductive PoolTask where
  | execute (behavior : BehaviorRef) (bytes : Bytes)
  | hotSwap (behavior : BehaviorRef) (ptr : PyObject)
  deriving DecidableEq

inductive Event where
  | began (callable : PyObject) (bytes : Bytes)
  | ended
  | swapped (callable : PyObject)
  deriving DecidableEq

/-- The stored callable, and every call and swap under its lock, in order. -/
structure Behavior where
  callable : PyObject
  events : List Event
  deriving DecidableEq

namespace Behavior

def new (callable : PyObject) : Behavior := ⟨callable, []⟩

def begin (b : Behavior) (bytes : Bytes) : Behavior := { b with events := b.events ++ [.began b.callable bytes] }

/-- A raised exception is printed; the call has ended all the same. -/
def finish (b : Behavior) : Behavior := { b with events := b.events ++ [.ended] }

def swap (b : Behavior) (ptr : PyObject) : Behavior := ⟨ptr, b.events ++ [.swapped ptr]⟩

def call (b : Behavior) (bytes : Bytes) : Behavior := (b.begin bytes).finish

end Behavior

/-- What the handler closure does with a message. -/
inductive Dispatch where
  | forward (message : Message)
  | queue (task : PoolTask)
  | callInline (bytes : Bytes)
  | swapInline (ptr : PyObject)
  | dropTx
  | nothing
  deriving DecidableEq

/-- What the handler closure of `spawn_py_handler` captures; `tx` is whether
    there is a dedicated thread to send to. -/
structure Closure where
  behavior : BehaviorRef
  tx : Bool
  releaseGil : Bool
  deriving DecidableEq

namespace Closure

/-- `pool` is whether the shared pool has been created. The guarded arms of the
    source stand in their order. -/
def handle (c : Closure) (initialised pool : Bool) (message : Message) : Dispatch :=
  if !initialised then .nothing
  else
    match message with
    | .system (.hotSwap ptr) =>
      if c.tx then .forward message
      else if c.releaseGil then
        if pool then .queue (.hotSwap c.behavior ptr) else .swapInline ptr
      else .swapInline ptr
    | .user bytes =>
      if c.tx then .forward message
      else if c.releaseGil then
        if pool then .queue (.execute c.behavior bytes) else .callInline bytes
      else .callInline bytes
    -- The closure's own sender is kept: only the clone made for this call is dropped.
    | .system (.exit _) => .dropTx
    | .system .ping | .system .pong => .nothing

def inline (behavior : BehaviorRef) : Closure := ⟨behavior, false, false⟩
def dedicated (behavior : BehaviorRef) : Closure := ⟨behavior, true, true⟩
def pooled (behavior : BehaviorRef) : Closure := ⟨behavior, false, true⟩

end Closure

namespace Behavior

def dispatch (b : Behavior) : Dispatch → Behavior
  | .callInline bytes => b.call bytes
  | .swapInline ptr => b.swap ptr
  | .forward _ | .queue _ | .dropTx | .nothing => b

/-- One turn of the actor loop without `release_gil`. -/
def receive (b : Behavior) (message : Message) : Behavior :=
  b.dispatch ((Closure.inline 0).handle true false message)

/-- The actor without `release_gil` on all its messages. -/
def receiveAll (b : Behavior) (messages : List Message) : Behavior := messages.foldl receive b

@[simp] theorem receive_user (b : Behavior) (bytes : Bytes) : b.receive (.user bytes) = b.call bytes := rfl
@[simp] theorem receive_hotSwap (b : Behavior) (ptr : PyObject) : b.receive (.system (.hotSwap ptr)) = b.swap ptr := rfl
@[simp] theorem receive_exit (b : Behavior) (info : ExitInfo) : b.receive (.system (.exit info)) = b := rfl
@[simp] theorem receive_ping (b : Behavior) : b.receive (.system .ping) = b := rfl
@[simp] theorem receive_pong (b : Behavior) : b.receive (.system .pong) = b := rfl

@[simp] theorem receiveAll_nil (b : Behavior) : b.receiveAll [] = b := rfl

@[simp] theorem receiveAll_cons (b : Behavior) (message : Message) (rest : List Message) :
    b.receiveAll (message :: rest) = (b.receive message).receiveAll rest := rfl

theorem receiveAll_append (b : Behavior) (first second : List Message) :
    b.receiveAll (first ++ second) = (b.receiveAll first).receiveAll second := List.foldl_append

theorem receiveAll_snoc (b : Behavior) (messages : List Message) (message : Message) :
    b.receiveAll (messages ++ [message]) = (b.receiveAll messages).receive message := by
  rw [receiveAll_append]
  rfl

end Behavior

end Myrmidon.Python
