import Myrmidon.Runtime.Model

namespace Myrmidon.Buffer

open Transition

abbrev BufferId := BitVec 64

structure BufferRegistry where
  inner : AList fun _ : BufferId => Bytes
  next : BufferId

namespace BufferRegistry

def new : BufferRegistry := ⟨∅, 1⟩

def allocate (r : BufferRegistry) (size : Nat) : BufferId × BufferRegistry :=
  (r.next, ⟨r.inner.insert r.next (List.replicate size 0), r.next + 1⟩)

/-- The address of the bytes is not modelled. -/
def ptrLen (r : BufferRegistry) (id : BufferId) : Option Nat := (r.inner.lookup id).map List.length

def take (r : BufferRegistry) (id : BufferId) : Option Bytes × BufferRegistry :=
  (r.inner.lookup id, { r with inner := r.inner.erase id })

def free (r : BufferRegistry) (id : BufferId) : BufferRegistry := { r with inner := r.inner.erase id }

end BufferRegistry

/-- What the interpreter does for `allocate_buffer`. -/
inductive Made where
  | all
  | noMemoryview
  | noCapsule
  deriving DecidableEq

/-- The global registry beside a runtime, with the living capsules by the id in
    their box. What happened is kept: how many ids were drawn, which of them a
    caller got, which mailbox a buffer was sent to and which ones a capsule freed. -/
structure BufferWorld where
  registry : BufferRegistry
  runtime : Runtime
  capsules : List BufferId
  issued : Nat
  allocated : List BufferId
  delivered : List (BufferId × Nat)
  freed : List BufferId

namespace BufferWorld

def new (runtime : Runtime) : BufferWorld := ⟨.new, runtime, [], 0, [], [], []⟩

def allocateBuffer (w : BufferWorld) (size : Nat) (made : Made) : Except String BufferId × BufferWorld :=
  let (id, registry) := w.registry.allocate size
  let w := { w with registry, issued := w.issued + 1 }
  match registry.ptrLen id with
  | none => (.error "failed to allocate", w)
  | some _ =>
    match made with
    | .noMemoryview => (.error "failed to create memoryview", { w with registry := registry.free id })
    | .noCapsule => (.error "failed to create capsule", { w with registry := registry.free id })
    | .all => (.ok id, { w with capsules := id :: w.capsules, allocated := w.allocated ++ [id] })

/-- The registry is touched under the GIL only, so the buffer is taken and sent
    in one step; other threads may change the runtime up to the send. -/
def sendBuffer (w : BufferWorld) (pid : Pid) (id : BufferId) : Except String Bool × BufferWorld :=
  match w.registry.take id with
  | (none, _) => (.error "invalid buffer id or already taken", w)
  | (some bytes, registry) =>
    match w.runtime.send pid (.user bytes) with
    | (.ok _, runtime) =>
      let delivered := w.delivered ++ (w.runtime.mailboxes.lookup pid).toList.map fun number => (id, number)
      (.ok true, { w with registry, runtime, delivered })
    | (.error _, runtime) => (.ok false, { w with registry, runtime })

def capsuleDestructor (w : BufferWorld) (id : BufferId) : BufferWorld :=
  { w with
    registry := w.registry.free id
    capsules := w.capsules.erase id
    freed := if id ∈ w.registry.inner then w.freed ++ [id] else w.freed }

/-- Bytes are written through the memory view, in place. -/
def fill (w : BufferWorld) (id : BufferId) (bytes : Bytes) : Option BufferWorld :=
  if w.registry.ptrLen id = some bytes.length then
    some { w with registry := { w.registry with inner := w.registry.inner.insert id bytes } }
  else none

end BufferWorld

/-- Actors may be spawned, stop and exit in between, and the rest of the runtime may do anything. -/
inductive BufferMove where
  | allocate (size : Nat) (made : Made)
  | fill (id : BufferId) (bytes : Bytes)
  | send (pid : Pid) (id : BufferId)
  | destroy (id : BufferId)
  | runtime (change : Runtime → Runtime)

def buffers : Machine BufferWorld BufferMove where
  step w
    | .allocate size made => some (w.allocateBuffer size made).2
    | .fill id bytes => w.fill id bytes
    | .send pid id => some (w.sendBuffer pid id).2
    | .destroy id => if id ∈ w.capsules then some (w.capsuleDestructor id) else none
    | .runtime change => some { w with runtime := change w.runtime }

end Myrmidon.Buffer
