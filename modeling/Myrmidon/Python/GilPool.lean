import Mathlib.Logic.Function.Basic
import Myrmidon.Python.Handler
import Myrmidon.Transition.Interleaving

namespace Myrmidon.Python

open Data Transition

/-- A thread of the shared pool. Inside `call1` the interpreter may hand the GIL
    to another thread; the read lock on the behaviour stays. A swap waits for the
    write lock with the GIL in hand. -/
inductive Worker where
  | top
  | receiving
  | took (task : PoolTask)
  | calling (behavior : BehaviorRef)
  | paused (behavior : BehaviorRef)
  | swapping (behavior : BehaviorRef) (ptr : PyObject)
  | ended
  deriving DecidableEq

inductive WorkerInput where
  | proceed
  | timeOut
  | yieldGil
  deriving DecidableEq

/-- What the workers and the actor loops share. `received` are the messages each
    actor's loop gave to its closure while the interpreter was up. -/
structure GilPool where
  initialised : Bool
  gil : Bool
  tasks : Channel PoolTask
  receivers : Nat
  behaviors : BehaviorRef → Behavior
  readers : BehaviorRef → Nat
  received : BehaviorRef → List Message

inductive PoolOperation where
  | deliver (behavior : BehaviorRef) (message : Message)
  | shutDown
  deriving DecidableEq

namespace GilPool

def new (size : Nat) (callables : BehaviorRef → PyObject) : GilPool where
  initialised := true
  gil := false
  tasks := ⟨[], true, decide (0 < size)⟩
  receivers := size
  behaviors ref := .new (callables ref)
  readers _ := 0
  received _ := []

/-- The error of a send is ignored. -/
def submit (s : GilPool) (task : PoolTask) : GilPool :=
  match s.tasks.send task with
  | .ok tasks => { s with tasks }
  | .error _ => s

/-- One turn of the loop of an actor that fell back to the pool. -/
def deliver (s : GilPool) (ref : BehaviorRef) (message : Message) : GilPool :=
  let noted := if s.initialised then
    { s with received := Function.update s.received ref (s.received ref ++ [message]) } else s
  match (Closure.pooled ref).handle s.initialised true message with
  | .queue task => noted.submit task
  | dispatch => { noted with behaviors := Function.update s.behaviors ref ((s.behaviors ref).dispatch dispatch) }

/-- A worker that leaves its loop drops its receiver. -/
def dropReceiver (s : GilPool) : GilPool :=
  { s with receivers := s.receivers - 1, tasks := { s.tasks with receiverAlive := decide (0 < s.receivers - 1) } }

def beginCall (s : GilPool) (ref : BehaviorRef) (bytes : Bytes) : GilPool :=
  { s with
    gil := true
    readers := Function.update s.readers ref (s.readers ref + 1)
    behaviors := Function.update s.behaviors ref ((s.behaviors ref).begin bytes) }

def finishCall (s : GilPool) (ref : BehaviorRef) : GilPool :=
  { s with
    gil := false
    readers := Function.update s.readers ref (s.readers ref - 1)
    behaviors := Function.update s.behaviors ref (s.behaviors ref).finish }

def swap (s : GilPool) (ref : BehaviorRef) (ptr : PyObject) : GilPool :=
  { s with gil := false, behaviors := Function.update s.behaviors ref ((s.behaviors ref).swap ptr) }

end GilPool

/-- The check of the interpreter and `with_gil` behind it are one step. -/
def Worker.step (s : GilPool) (w : Worker) (input : WorkerInput) : Option (GilPool × Worker) :=
  match w, input with
  | .top, .proceed => if s.initialised then some (s, .receiving) else some (s.dropReceiver, .ended)
  | .receiving, .proceed =>
    match s.tasks.recv with
    | .ready (some (task, tasks)) => some ({ s with tasks }, .took task)
    | .ready none => some (s.dropReceiver, .ended)
    | .pending => none
  | .receiving, .timeOut => some (s, .top)
  | .took task, .proceed =>
    if !s.initialised then some (s.dropReceiver, .ended)
    else if s.gil then none
    else
      match task with
      | .execute ref bytes => some (s.beginCall ref bytes, .calling ref)
      | .hotSwap ref ptr => some ({ s with gil := true }, .swapping ref ptr)
  | .calling ref, .proceed => some (s.finishCall ref, .top)
  | .calling ref, .yieldGil => some ({ s with gil := false }, .paused ref)
  | .paused ref, .proceed => if s.gil then none else some ({ s with gil := true }, .calling ref)
  | .swapping ref ptr, .proceed => if s.readers ref = 0 then some (s.swap ref ptr, .top) else none
  | _, _ => none

def gilPool : Program GilPool Worker WorkerInput PoolOperation where
  starts _ := false
  step _ s w input := (w.step s input).map fun (later, next) => (later, next, [])
  ambient s
    | .deliver ref message => some (s.deliver ref message)
    | .shutDown => some { s with initialised := false }

/-- Everything a worker can do. -/
inductive Worker.Steps (s : GilPool) : Worker → GilPool → Worker → Prop where
  | waits (up : s.initialised = true) : Steps s .top s .receiving
  | leaves (down : s.initialised = false) : Steps s .top s.dropReceiver .ended
  | takes {task : PoolTask} {rest : List PoolTask} (queue : s.tasks.queue = task :: rest) :
      Steps s .receiving { s with tasks := { s.tasks with queue := rest } } (.took task)
  | disconnected (gone : s.tasks.senderAlive = false) : Steps s .receiving s.dropReceiver .ended
  | timesOut : Steps s .receiving s .top
  | abandons {task : PoolTask} (down : s.initialised = false) : Steps s (.took task) s.dropReceiver .ended
  | begins {ref : BehaviorRef} {bytes : Bytes} (up : s.initialised = true) (free : s.gil = false) :
      Steps s (.took (.execute ref bytes)) (s.beginCall ref bytes) (.calling ref)
  | locks {ref : BehaviorRef} {ptr : PyObject} (up : s.initialised = true) (free : s.gil = false) :
      Steps s (.took (.hotSwap ref ptr)) { s with gil := true } (.swapping ref ptr)
  | returns {ref : BehaviorRef} : Steps s (.calling ref) (s.finishCall ref) .top
  | yields {ref : BehaviorRef} : Steps s (.calling ref) { s with gil := false } (.paused ref)
  | resumes {ref : BehaviorRef} (free : s.gil = false) : Steps s (.paused ref) { s with gil := true } (.calling ref)
  | swaps {ref : BehaviorRef} {ptr : PyObject} (unread : s.readers ref = 0) :
      Steps s (.swapping ref ptr) (s.swap ref ptr) .top

theorem Worker.steps_of_step {s later : GilPool} {w next : Worker} {input : WorkerInput}
    (stepped : w.step s input = some (later, next)) : Steps s w later next := by
  cases input with
  | timeOut =>
    cases w with
    | receiving =>
      cases stepped
      exact .timesOut
    | top | took _ | calling _ | paused _ | swapping _ _ | ended => cases stepped
  | yieldGil =>
    cases w with
    | calling ref =>
      cases stepped
      exact .yields
    | top | receiving | took _ | paused _ | swapping _ _ | ended => cases stepped
  | proceed =>
    cases w with
    | top =>
      simp only [step] at stepped
      split at stepped
      · rename_i up
        cases stepped
        exact .waits up
      · rename_i down
        cases stepped
        exact .leaves (by simpa using down)
    | receiving =>
      simp only [step, Channel.recv] at stepped
      cases queue : s.tasks.queue with
      | cons task rest =>
        simp only [queue] at stepped
        cases stepped
        exact .takes queue
      | nil =>
        cases senders : s.tasks.senderAlive with
        | true => simp [queue, senders] at stepped
        | false =>
          simp only [queue, senders, Bool.false_eq_true, if_false] at stepped
          cases stepped
          exact .disconnected senders
    | took task =>
      simp only [step] at stepped
      split at stepped
      · rename_i down
        cases stepped
        exact .abandons (by simpa using down)
      · rename_i up
        split at stepped
        · cases stepped
        · rename_i free
          cases task with
          | execute ref bytes =>
            cases stepped
            exact .begins (by simpa using up) (by simpa using free)
          | hotSwap ref ptr =>
            cases stepped
            exact .locks (by simpa using up) (by simpa using free)
    | calling ref =>
      cases stepped
      exact .returns
    | paused ref =>
      simp only [step] at stepped
      split at stepped
      · cases stepped
      · rename_i free
        cases stepped
        exact .resumes (by simpa using free)
    | swapping ref ptr =>
      simp only [step] at stepped
      split at stepped
      · rename_i unread
        cases stepped
        exact .swaps unread
      · cases stepped
    | ended => cases stepped

theorem gilPool_step {index : Nat} {s later : GilPool} {w next : Worker} {input : WorkerInput} {new : List Worker}
    (stepped : gilPool.step index s w input = some (later, next, new)) :
    w.step s input = some (later, next) ∧ new = [] := by
  obtain ⟨⟨_, _⟩, taken, same⟩ := Option.map_eq_some_iff.mp stepped
  cases same
  exact ⟨taken, rfl⟩

abbrev PoolMove := Move Worker WorkerInput PoolOperation

/-- `GilPool::new`: as many workers as the pool's size. -/
def startPool (size : Nat) (callables : BehaviorRef → PyObject) : Config GilPool Worker :=
  ⟨.new size callables, List.replicate size .top⟩

namespace PoolTask

def behavior : PoolTask → BehaviorRef
  | .execute ref _ | .hotSwap ref _ => ref

def message : PoolTask → Message
  | .execute _ bytes => .user bytes
  | .hotSwap _ ptr => .system (.hotSwap ptr)

end PoolTask

/-- The actor whose task the worker has in hand. -/
def Worker.behavior? : Worker → Option BehaviorRef
  | .took task => some task.behavior
  | .calling ref | .paused ref | .swapping ref _ => some ref
  | .top | .receiving | .ended => none

namespace GilPool

/-- The actor's messages that wait in the pool's queue. -/
def queued (s : GilPool) (ref : BehaviorRef) : List Message :=
  (s.tasks.queue.filter (·.behavior = ref)).map PoolTask.message

def Drained (ref : BehaviorRef) (c : Config GilPool Worker) : Prop :=
  c.shared.queued ref = [] ∧ ∀ w ∈ c.threads, w.behavior? ≠ some ref

/-- What was run and swapped so far is what the inline actor does first on the
    same messages, and all of it once nothing is left to do. -/
structure Sequential (callable : PyObject) (ref : BehaviorRef) (c : Config GilPool Worker) : Prop where
  inOrder : (c.shared.behaviors ref).events <+: ((Behavior.new callable).receiveAll (c.shared.received ref)).events
  complete : c.shared.initialised = true → Drained ref c →
    c.shared.behaviors ref = (Behavior.new callable).receiveAll (c.shared.received ref)

/-- A worker takes a task of the actor only while no worker has one in hand. -/
def TakesAlone (ref : BehaviorRef) (c : Config GilPool Worker) : PoolMove → Prop
  | .step index .proceed => c.threads[index]? = some .receiving →
      c.shared.tasks.queue.head?.map PoolTask.behavior = some ref → ∀ w ∈ c.threads, w.behavior? ≠ some ref
  | _ => True

end GilPool

end Myrmidon.Python
