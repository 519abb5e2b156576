import Mathlib.Data.List.Basic

namespace Myrmidon.Data

inductive Poll (α : Type*) where
  | ready (value : α)
  | pending
  deriving DecidableEq

/-- A future that is ready exactly when there is something to give. -/
def Poll.ofOption {α : Type*} : Option α → Poll (Option α)
  | some value => .ready (some value)
  | none => .pending

/-- An unbounded multi-producer queue, with whether each half still exists. -/
structure Channel (α : Type*) where
  queue : List α
  senderAlive : Bool
  receiverAlive : Bool
  deriving DecidableEq

namespace Channel

variable {α : Type*}

def new : Channel α := ⟨[], true, true⟩

/-- A value that cannot be enqueued is given back. -/
def send (c : Channel α) (value : α) : Except α (Channel α) :=
  if c.receiverAlive then .ok { c with queue := c.queue ++ [value] } else .error value

def tryRecv (c : Channel α) : Option (α × Channel α) :=
  match c.queue with
  | [] => none
  | value :: rest => some (value, { c with queue := rest })

/-- An empty queue is ready with `none` once the last sender is gone. -/
def recv (c : Channel α) : Poll (Option (α × Channel α)) :=
  match c.queue with
  | value :: rest => .ready (some (value, { c with queue := rest }))
  | [] => if c.senderAlive then .pending else .ready none

def dropSenders (c : Channel α) : Channel α := { c with senderAlive := false }

end Channel

end Myrmidon.Data
