import Mathlib.Data.List.Perm.Basic
import Myrmidon.Python.Admission
import Myrmidon.Python.PoolSequential

namespace Myrmidon.Python

open Data Transition

def Event.call? : Event → Option Bytes
  | .began _ bytes => some bytes
  | .ended | .swapped _ => none

/-- The payloads that the behaviour was called with, in order. -/
def Behavior.calls (b : Behavior) : List Bytes := b.events.filterMap Event.call?

def payload? : Message → Option Bytes
  | .user bytes => some bytes
  | .system _ => none

namespace Behavior

@[simp] theorem calls_new (callable : PyObject) : (new callable).calls = [] := rfl

@[simp] theorem calls_begin (b : Behavior) (bytes : Bytes) : (b.begin bytes).calls = b.calls ++ [bytes] := by
  simp [calls, begin, Event.call?]

@[simp] theorem calls_finish (b : Behavior) : b.finish.calls = b.calls := by
  simp [calls, finish, Event.call?]

@[simp] theorem calls_swap (b : Behavior) (ptr : PyObject) : (b.swap ptr).calls = b.calls := by
  simp [calls, swap, Event.call?]

theorem calls_receive (b : Behavior) (message : Message) :
    (b.receive message).calls = b.calls ++ (payload? message).toList := by
  cases message with
  | user bytes => simp [call, payload?]
  | system message => cases message <;> simp [payload?]

theorem calls_receiveAll (b : Behavior) (messages : List Message) :
    (b.receiveAll messages).calls = b.calls ++ messages.filterMap payload? := by
  induction messages generalizing b with
  | nil => simp
  | cons message rest ih =>
    rw [receiveAll_cons, ih, calls_receive, List.append_assoc, List.filterMap_cons]
    cases payload? message <;> rfl

end Behavior

/-- The dedicated thread has called the behaviour on the first of the actor's
    messages and holds the others. -/
theorem DedicatedActor.Follows.calls {callable : PyObject} {a : DedicatedActor} (follows : a.Follows callable) :
    a.received.filterMap payload? = a.thread.behavior.calls ++ a.thread.pending.filterMap payload? := by
  have settled : (a.thread.stage.settle a.thread.behavior).calls = a.thread.behavior.calls := by
    cases a.thread.stage with
    | calling => exact Behavior.calls_finish _
    | top | receiving | took _ | ended => rfl
  have agrees := congrArg Behavior.calls follows.agrees
  rw [GilThread.completed, Behavior.calls_receiveAll, Behavior.calls_receiveAll, settled] at agrees
  exact agrees.symm

namespace PoolTask

def call? (ref : BehaviorRef) : PoolTask → Option Bytes
  | .execute other bytes => if other = ref then some bytes else none
  | .hotSwap _ _ => none

end PoolTask

namespace Worker

/-- The actor's message in the worker's hand, before the call. -/
def hand? (ref : BehaviorRef) : Worker → Option Bytes
  | .took task => task.call? ref
  | .top | .receiving | .calling _ | .paused _ | .swapping _ _ | .ended => none

/-- Busy with calls only. -/
def Calls : Worker → Prop
  | .top | .receiving | .took (.execute _ _) | .calling _ | .paused _ => True
  | .took (.hotSwap _ _) | .swapping _ _ | .ended => False

end Worker

namespace GilPool

/-- The actor's messages that the pool holds: in hand or in the queue. -/
def waiting (ref : BehaviorRef) (c : Config GilPool Worker) : List Bytes :=
  c.threads.filterMap (Worker.hand? ref) ++ c.shared.tasks.queue.filterMap (PoolTask.call? ref)

/-- Each of the actor's messages was run once or is held once. -/
def Entrusted (ref : BehaviorRef) (c : Config GilPool Worker) : Prop :=
  ((c.shared.received ref).filterMap payload?).Perm ((c.shared.behaviors ref).calls ++ waiting ref c)

/-- A pool with a worker, as long as only calls are queued. -/
structure Working (c : Config GilPool Worker) : Prop where
  up : c.shared.initialised = true
  senders : c.shared.tasks.senderAlive = true
  receivers : c.shared.tasks.receiverAlive = true
  staffed : c.threads ≠ []
  workers : ∀ w ∈ c.threads, w.Calls
  tasks : ∀ task ∈ c.shared.tasks.queue, ∃ ref bytes, task = .execute ref bytes
  gil : c.shared.gil = true → ∃ ref, .calling ref ∈ c.threads
  entrusted : ∀ ref, Entrusted ref c

/-- A message for one of the actors, or a step of a worker. -/
def UserMove : PoolMove → Prop
  | .ambient (.deliver _ (.user _)) | .step _ _ => True
  | .ambient (.deliver _ (.system _)) | .ambient .shutDown | .start _ => False

open Myrmidon.Python.Worker

theorem count_waiting (ref : BehaviorRef) (bytes : Bytes) (s : GilPool) (before after : List Worker) (w : Worker) :
    (waiting ref ⟨s, before ++ w :: after⟩).count bytes =
      (before.filterMap (hand? ref)).count bytes + (after.filterMap (hand? ref)).count bytes +
        ((w.hand? ref).toList.count bytes + (s.tasks.queue.filterMap (PoolTask.call? ref)).count bytes) := by
  have split : (w :: after).filterMap (hand? ref) = (w.hand? ref).toList ++ after.filterMap (hand? ref) := by
    rw [List.filterMap_cons]
    cases w.hand? ref <;> rfl
  simp only [waiting, List.filterMap_append, split, List.count_append]
  omega

/-- A step of a worker moves a message on, from the queue to its hand or from its hand into a call. -/
theorem Steps.balance {s later : GilPool} {w next : Worker} (steps : Steps s w later next) (up : s.initialised = true)
    (ref : BehaviorRef) (bytes : Bytes) :
    (later.behaviors ref).calls.count bytes + ((next.hand? ref).toList.count bytes +
        (later.tasks.queue.filterMap (PoolTask.call? ref)).count bytes) =
      (s.behaviors ref).calls.count bytes + ((w.hand? ref).toList.count bytes +
        (s.tasks.queue.filterMap (PoolTask.call? ref)).count bytes) := by
  cases steps with
  | waits _ | disconnected _ | timesOut | locks _ _ | yields | resumes _ => rfl
  | leaves down | abandons down => simp [down] at up
  | @takes task rest queue =>
    rw [queue, List.filterMap_cons]
    simp only [hand?]
    cases task.call? ref with
    | none => simp
    | some own =>
      simp only [Option.toList_some, Option.toList_none, List.count_cons, List.count_nil]
      omega
  | @begins other payload _ free =>
    simp only [beginCall, hand?, PoolTask.call?]
    by_cases mine : other = ref
    · subst mine
      simp only [Function.update_self, Behavior.calls_begin, List.count_append, if_true, Option.toList_some,
        Option.toList_none, List.count_nil]
      omega
    · rw [Function.update_of_ne (Ne.symm mine), if_neg mine]
  | @returns other =>
    simp only [finishCall, hand?]
    by_cases mine : other = ref
    · subst mine
      rw [Function.update_self, Behavior.calls_finish]
    · rw [Function.update_of_ne (Ne.symm mine)]
  | @swaps other ptr unread =>
    simp only [GilPool.swap, hand?]
    by_cases mine : other = ref
    · subst mine
      rw [Function.update_self, Behavior.calls_swap]
    · rw [Function.update_of_ne (Ne.symm mine)]

theorem Entrusted.step {ref : BehaviorRef} {s later : GilPool} {before after : List Worker} {w next : Worker}
    (entrusted : Entrusted ref ⟨s, before ++ w :: after⟩) (steps : Steps s w later next) (up : s.initialised = true) :
    Entrusted ref ⟨later, before ++ next :: after⟩ := by
  have same := (Kept.of_steps steps).received
  unfold Entrusted at entrusted ⊢
  rw [List.perm_iff_count] at entrusted ⊢
  intro bytes
  have balance := Steps.balance steps up ref bytes
  have held := entrusted bytes
  rw [List.count_append, count_waiting] at held ⊢
  simp only [same] at held ⊢
  omega

theorem deliver_user {s : GilPool} (up : s.initialised = true) (alive : s.tasks.receiverAlive = true)
    (ref : BehaviorRef) (payload : Bytes) : s.deliver ref (.user payload) =
      { s with tasks := { s.tasks with queue := s.tasks.queue ++ [.execute ref payload] },
               received := Function.update s.received ref (s.received ref ++ [.user payload]) } := by
  simp [GilPool.deliver, up, Closure.handle, Closure.pooled, submit, Channel.send, alive]

theorem Entrusted.deliver {ref : BehaviorRef} {s : GilPool} {threads : List Worker}
    (entrusted : Entrusted ref ⟨s, threads⟩) (up : s.initialised = true) (alive : s.tasks.receiverAlive = true)
    (other : BehaviorRef) (payload : Bytes) :
    Entrusted ref ⟨s.deliver other (.user payload), threads⟩ := by
  rw [deliver_user up alive]
  unfold Entrusted at entrusted ⊢
  rw [List.perm_iff_count] at entrusted ⊢
  intro bytes
  have held := entrusted bytes
  simp only [waiting, List.filterMap_append, List.count_append, PoolTask.call?, List.filterMap_cons,
    List.filterMap_nil] at held ⊢
  by_cases mine : other = ref
  · subst mine
    simp only [Function.update_self, List.filterMap_append, List.count_append, if_true, payload?,
      List.filterMap_cons, List.filterMap_nil]
    omega
  · rw [Function.update_of_ne (Ne.symm mine), if_neg mine]
    simpa using held

theorem startPool_working {size : Nat} (staffed : 0 < size) (callables : BehaviorRef → PyObject) :
    Working (startPool size callables) where
  up := rfl
  senders := rfl
  receivers := decide_eq_true staffed
  staffed := by simp [startPool, Nat.ne_of_gt staffed]
  workers := by
    intro w member
    rw [List.eq_of_mem_replicate member]
    trivial
  tasks := by simp [startPool, new]
  gil := by simp [startPool, new]
  entrusted := by
    intro ref
    have empty : waiting ref (startPool size callables) = [] := by
      simp [waiting, startPool, new, hand?]
    unfold Entrusted
    rw [empty]
    exact List.Perm.refl _

/-- What a step of a worker leaves of the locks and tasks. -/
theorem Working.locks {s later : GilPool} {w next : Worker} {before after : List Worker}
    (working : Working ⟨s, before ++ w :: after⟩) (steps : Steps s w later next) :
    next.Calls ∧ (∀ task ∈ later.tasks.queue, ∃ ref bytes, task = .execute ref bytes) ∧
      (later.gil = true → ∃ ref, .calling ref ∈ before ++ next :: after) := by
  have up := working.up
  have tasks := working.tasks
  have mine : w.Calls := working.workers w (by simp)
  have others : (∀ ref, w ≠ .calling ref) → s.gil = true → ∃ ref, .calling ref ∈ before ++ next :: after := by
    intro different held
    obtain ⟨ref, member⟩ := working.gil held
    refine ⟨ref, ?_⟩
    simp only [List.mem_append, List.mem_cons] at member ⊢
    rcases member with early | own | late
    · exact .inl early
    · exact absurd own.symm (different ref)
    · exact .inr (.inr late)
  cases steps with
  | waits _ | timesOut => exact ⟨trivial, tasks, others (by simp)⟩
  | leaves down | abandons down => simp [down] at up
  | disconnected gone => exact absurd (working.senders.symm.trans gone) (by simp)
  | takes queue =>
    have first := tasks _ (by rw [queue]; exact List.mem_cons_self)
    obtain ⟨ref, bytes, rfl⟩ := first
    refine ⟨trivial, fun task member => tasks task ?_, others (by simp)⟩
    rw [queue]
    exact List.mem_cons_of_mem _ member
  | @begins ref bytes _ free => exact ⟨trivial, tasks, fun _ => ⟨ref, by simp⟩⟩
  | locks _ _ | swaps _ => exact mine.elim
  | returns => exact ⟨trivial, tasks, by simp [finishCall]⟩
  | yields => exact ⟨trivial, tasks, by simp⟩
  | @resumes ref free => exact ⟨trivial, tasks, fun _ => ⟨ref, by simp⟩⟩

theorem Working.step {s later : GilPool} {w next : Worker} {before after : List Worker}
    (working : Working ⟨s, before ++ w :: after⟩) (steps : Steps s w later next) :
    Working ⟨later, before ++ next :: after⟩ := by
  have kept := Kept.of_steps steps
  obtain ⟨mine, tasks, gil⟩ := working.locks steps
  exact {
    up := kept.initialised.trans working.up
    senders := kept.senders.trans working.senders
    receivers := (kept.receivers working.up working.senders).trans working.receivers
    staffed := by simp
    workers := Program.forall_replace working.workers mine
    tasks := tasks
    gil := gil
    entrusted := fun ref => (working.entrusted ref).step steps working.up }

theorem Working.deliver {s : GilPool} {threads : List Worker} (working : Working ⟨s, threads⟩) (ref : BehaviorRef)
    (payload : Bytes) : Working ⟨s.deliver ref (.user payload), threads⟩ := by
  have up : s.initialised = true := working.up
  have alive : s.tasks.receiverAlive = true := working.receivers
  have entrusted := fun other => (working.entrusted other).deliver up alive ref payload
  simp only [deliver_user up alive] at entrusted ⊢
  refine ⟨working.up, working.senders, working.receivers, working.staffed, working.workers, ?_, working.gil, entrusted⟩
  intro task member
  rcases List.mem_append.mp member with old | new
  · exact working.tasks task old
  · exact ⟨ref, payload, List.mem_singleton.mp new⟩

theorem Working.move {c d : Config GilPool Worker} {move : PoolMove} (working : Working c) (user : UserMove move)
    (moves : gilPool.Moves c move d) : Working d := by
  cases moves with
  | start allowed => cases allowed
  | step stepped =>
    obtain ⟨taken, rfl⟩ := gilPool_step stepped
    rw [List.append_nil]
    exact working.step (steps_of_step taken)
  | @ambient s later workers operation done =>
    cases operation with
    | deliver ref message =>
      cases message with
      | user payload =>
        cases done
        exact working.deliver ref payload
      | system message => exact user.elim
    | shutDown => exact user.elim

/-- What is left to do for a worker itself. -/
def rest (w : Worker) : Nat :=
  match w with
  | .top => 1
  | .took _ | .paused _ => 3
  | .calling _ | .swapping _ _ => 2
  | .receiving | .ended => 0

/-- How much the pool has to do until it holds nothing. -/
def load (c : Config GilPool Worker) : Nat := 4 * c.shared.tasks.queue.length + Program.total rest c.threads

theorem load_step {s later : GilPool} {w next : Worker} (before after : List Worker)
    (less : work later next < work s w) : load ⟨later, before ++ next :: after⟩ < load ⟨s, before ++ w :: after⟩ := by
  have same : ∀ (s : GilPool) (w : Worker), work s w = 4 * s.tasks.queue.length + rest w := fun _ _ => rfl
  rw [same, same] at less
  simp only [load, Program.total_append, Program.total_cons]
  omega

/-- As long as the pool holds a message, some worker can go on: one inside a
    call, else one that wants the GIL, else one that can take a task. -/
theorem Working.progress {c : Config GilPool Worker} (working : Working c)
    (busy : c.shared.tasks.queue ≠ [] ∨ ∃ task, .took task ∈ c.threads) :
    ∃ before w after later next, c.threads = before ++ w :: after ∧ w.step c.shared .proceed = some (later, next) ∧
      work later next < work c.shared w := by
  have pick : ∀ w ∈ c.threads, (∃ later next, w.step c.shared .proceed = some (later, next) ∧
      work later next < work c.shared w) → ∃ before w after later next, c.threads = before ++ w :: after ∧
      w.step c.shared .proceed = some (later, next) ∧ work later next < work c.shared w := by
    intro w member able
    obtain ⟨before, after, split⟩ := List.append_of_mem member
    obtain ⟨later, next, stepped, less⟩ := able
    exact ⟨before, w, after, later, next, split, stepped, less⟩
  have up := working.up
  by_cases inside : ∃ ref, .calling ref ∈ c.threads
  · obtain ⟨ref, member⟩ := inside
    exact pick _ member ⟨_, _, rfl, by simp [work, finishCall]⟩
  have free : c.shared.gil = false := by
    by_contra held
    exact inside (working.gil (by simpa using held))
  by_cases wanting : ∃ task, .took task ∈ c.threads
  · obtain ⟨task, member⟩ := wanting
    have calls := working.workers _ member
    cases task with
    | execute ref bytes =>
      exact pick _ member
        ⟨c.shared.beginCall ref bytes, .calling ref, by simp [Worker.step, up, free], by simp [work, beginCall]⟩
    | hotSwap ref ptr => exact calls.elim
  have queue : c.shared.tasks.queue ≠ [] := busy.resolve_right wanting
  obtain ⟨w, others, threads⟩ := List.exists_cons_of_ne_nil working.staffed
  have member : w ∈ c.threads := by simp [threads]
  have calls := working.workers w member
  apply pick w member
  cases w with
  | top => exact ⟨c.shared, .receiving, by simp [Worker.step, up], by simp [work]⟩
  | receiving =>
    obtain ⟨task, left, split⟩ := List.exists_cons_of_ne_nil queue
    refine ⟨{ c.shared with tasks := { c.shared.tasks with queue := left } }, .took task, ?_, ?_⟩
    · simp [Worker.step, Channel.recv, split]
    · simp only [work, split, List.length_cons]
      omega
  | took task => exact absurd ⟨task, member⟩ wanting
  | calling ref => exact absurd ⟨ref, member⟩ inside
  | paused ref => exact ⟨{ c.shared with gil := true }, .calling ref, by simp [Worker.step, free], by simp [work]⟩
  | swapping ref ptr => exact calls.elim
  | ended => exact calls.elim

theorem Working.drains {c : Config GilPool Worker} (working : Working c) :
    ∃ moves d, gilPool.machine.run c moves = some d ∧ Working d ∧ (∀ ref, waiting ref d = []) ∧
      d.shared.received = c.shared.received := by
  induction bound : load c using Nat.strong_induction_on generalizing c with
  | _ n ih =>
    by_cases busy : c.shared.tasks.queue ≠ [] ∨ ∃ task, .took task ∈ c.threads
    · obtain ⟨before, w, after, later, next, threads, stepped, less⟩ := working.progress busy
      obtain ⟨s, workers⟩ := c
      subst threads
      have steps := steps_of_step stepped
      have here : gilPool.step before.length s w .proceed = some (later, next, []) := by
        have taken : w.step s .proceed = some (later, next) := stepped
        simp [gilPool, taken]
      have moved : gilPool.machine.step ⟨s, before ++ w :: after⟩ (.step before.length .proceed) =
          some ⟨later, before ++ next :: after⟩ := by
        simpa using gilPool.machine_step_at here
      obtain ⟨moves, d, reached, final, empty, same⟩ :=
        ih _ (bound ▸ load_step before after less) (working.step steps) rfl
      refine ⟨.step before.length .proceed :: moves, d, ?_, final, empty, same.trans (Kept.of_steps steps).received⟩
      rw [Machine.run_cons, moved]
      exact reached
    · refine ⟨[], c, rfl, working, fun ref => ?_, rfl⟩
      have queue : c.shared.tasks.queue = [] := by
        by_contra full
        exact busy (.inl full)
      have hands : c.threads.filterMap (hand? ref) = [] := by
        rw [List.filterMap_eq_nil_iff]
        intro w member
        cases w with
        | took task => exact absurd (.inr ⟨task, member⟩) busy
        | top | receiving | calling _ | paused _ | swapping _ _ | ended => rfl
      rw [waiting, hands, queue]
      rfl

end GilPool

/-- Where the closure of a `release_gil` actor takes its messages. -/
inductive Route where
  | dedicated
  | pool (size : BitVec 64)
  | inline
  deriving DecidableEq

def Process.route (p : Process) (tx : Option ThreadId) : Route :=
  match tx, p.gilWorkerPool with
  | some _, _ => .dedicated
  | none, some size => .pool size
  | none, none => .inline

/-- The route is the one the closure chooses for a user message. -/
theorem Process.handle_user (p : Process) (tx : Option ThreadId) (ref : BehaviorRef) (bytes : Bytes) :
    Closure.handle ⟨ref, tx.isSome, true⟩ true p.gilWorkerPool.isSome (.user bytes) =
      match p.route tx with
      | .dedicated => .forward (.user bytes)
      | .pool _ => .queue (.execute ref bytes)
      | .inline => .callInline bytes := by
  unfold route
  cases tx with
  | some id => rfl
  | none => cases p.gilWorkerPool <;> rfl

def DedicatedMove.User : DedicatedMove → Prop
  | .deliver (.user _) _ | .stop | .thread _ => True
  | .deliver (.system _) _ | .shutDown => False

/-- Whatever user messages come in and however the threads take turns, each is
    either run once or held once, and what is held can be run. -/
def Route.DropsNothing (callables : BehaviorRef → PyObject) (ref : BehaviorRef) : Route → Prop
  | .dedicated => ∀ counter moves a, (∀ move ∈ moves, move.User) →
      dedicatedMachine.run (.start counter (callables ref)) moves = some a →
      (a.received.filterMap payload?).Perm (a.thread.behavior.calls ++ a.thread.pending.filterMap payload?) ∧
      ∃ more b, dedicatedMachine.run a more = some b ∧ b.received = a.received ∧
        (a.received.filterMap payload?).Perm b.thread.behavior.calls
  | .pool size => ∀ moves c, (∀ move ∈ moves, GilPool.UserMove move) →
      gilPool.machine.run (startPool size.toNat callables) moves = some c →
      ((c.shared.received ref).filterMap payload?).Perm ((c.shared.behaviors ref).calls ++ GilPool.waiting ref c) ∧
      ∃ more d, gilPool.machine.run c more = some d ∧ d.shared.received = c.shared.received ∧
        ((c.shared.received ref).filterMap payload?).Perm (d.shared.behaviors ref).calls
  | .inline => ∀ payloads : List Bytes,
      payloads.Perm ((Behavior.new (callables ref)).receiveAll (payloads.map .user)).calls

theorem DedicatedActor.dispatch_initialised (a : DedicatedActor) (dispatch : Dispatch) :
    (a.dispatch dispatch).initialised = a.initialised := by
  cases dispatch with
  | forward message =>
    simp only [DedicatedActor.dispatch, DedicatedActor.forward]
    split <;> rfl
  | queue _ | callInline _ | swapInline _ | dropTx | nothing => rfl

theorem DedicatedActor.initialised_step {a b : DedicatedActor} {move : DedicatedMove} (user : move.User)
    (up : a.initialised = true) (stepped : dedicatedMachine.step a move = some b) : b.initialised = true := by
  simp only [dedicatedMachine] at stepped
  cases move with
  | deliver message pool =>
    simp only [step] at stepped
    split at stepped
    · cases stepped
      exact (dispatch_initialised _ _).trans up
    · cases stepped
  | stop =>
    cases stepped
    exact up
  | thread input =>
    simp only [step] at stepped
    split at stepped
    · cases stepped
    · cases stepped
      exact up
  | shutDown => exact user.elim

theorem dedicated_dropsNothing (callables : BehaviorRef → PyObject) (ref : BehaviorRef) :
    Route.dedicated.DropsNothing callables ref := by
  intro counter moves a users reached
  have meets : dedicatedMachine.Meets (fun _ move => move.User) (.start counter (callables ref)) moves :=
    dedicatedMachine.meets_of_forall (fun move member _ => users move member) _
  have up : a.initialised = true := dedicatedMachine.run_invariant_of_meets
    (fun _ _ _ hold user stepped => DedicatedActor.initialised_step user hold stepped) rfl meets reached
  have follows : a.Follows (callables ref) := dedicatedMachine.run_invariant
    (P := fun a => a.initialised = true → a.Follows (callables ref)) (DedicatedActor.follows_step (callables ref))
    (fun _ => DedicatedActor.start_follows counter (callables ref)) reached up
  refine ⟨.of_eq follows.calls, ?_⟩
  obtain ⟨turns, b, ran, drained, same, final⟩ := follows.drains up
  refine ⟨_, b, ran, same, .of_eq ?_⟩
  have empty : b.thread.pending = [] := by
    rw [GilThread.pending, drained.1, drained.2.1]
    rfl
  have calls := final.calls
  rw [empty, same] at calls
  simpa using calls

theorem pool_dropsNothing {size : BitVec 64} (staffed : size ≠ 0) (callables : BehaviorRef → PyObject)
    (ref : BehaviorRef) : (Route.pool size).DropsNothing callables ref := by
  intro moves c users reached
  have positive : 0 < size.toNat := by
    have nonzero : size.toNat ≠ 0 := fun zero => staffed (BitVec.eq_of_toNat_eq zero)
    omega
  have meets : gilPool.machine.Meets (fun _ move => GilPool.UserMove move) (startPool size.toNat callables) moves :=
    gilPool.machine.meets_of_forall (fun move member _ => users move member) _
  have working := gilPool.run_invariant_of_meets (fun _ _ _ hold user moved => GilPool.Working.move hold user moved)
    (GilPool.startPool_working positive callables) meets reached
  refine ⟨working.entrusted ref, ?_⟩
  obtain ⟨more, d, ran, final, empty, same⟩ := working.drains
  refine ⟨more, d, ran, same, ?_⟩
  have entrusted := final.entrusted ref
  unfold GilPool.Entrusted at entrusted
  rwa [empty ref, List.append_nil, same] at entrusted

/-- Without a worker there is no receiver, and the error of the send is ignored. -/
theorem empty_pool_drops (callables : BehaviorRef → PyObject) (ref : BehaviorRef) :
    ¬ (Route.pool 0).DropsNothing callables ref := by
  intro keeps
  have reached : gilPool.machine.run (startPool (0 : BitVec 64).toNat callables) [.ambient (.deliver ref (.user []))] =
      some ⟨(GilPool.new 0 callables).deliver ref (.user []), []⟩ := rfl
  have held := (keeps [.ambient (.deliver ref (.user []))] _ (by simp [GilPool.UserMove]) reached).1
  simp [GilPool.deliver, GilPool.new, Closure.handle, Closure.pooled, GilPool.submit, Channel.send, GilPool.waiting,
    payload?] at held

theorem Route.dropsNothing_iff (callables : BehaviorRef → PyObject) (ref : BehaviorRef) (route : Route) :
    route.DropsNothing callables ref ↔ route ≠ .pool 0 := by
  cases route with
  | dedicated => exact iff_of_true (dedicated_dropsNothing callables ref) (by simp)
  | inline =>
    refine iff_of_true (fun payloads => ?_) (by simp)
    have whole : (payloads.map Message.user).filterMap payload? = payloads := by
      rw [List.filterMap_map]
      exact List.filterMap_some
    rw [Behavior.calls_receiveAll, whole]
    exact List.Perm.refl payloads
  | pool size =>
    by_cases empty : size = 0
    · subst empty
      exact iff_of_false (empty_pool_drops callables ref) (by simp)
    · exact iff_of_true (pool_dropsNothing empty callables ref) (by simpa using empty)

namespace Process

/-- The pool is created once, for good. -/
theorem Moves.pool_kept {maxThreads : BitVec 64} {p q : Process} {move : ProcessMove}
    (moves : p.Moves maxThreads move q) {size : BitVec 64}
    (pool : p.gilWorkerPool = some size) : q.gilWorkerPool = some size := by
  cases moves with
  | pools found stage lenient => simp [pool]
  | calls _ | adds _ _ | rollsBack _ _ _ | starts _ _ _ _ | rejects _ _ _ | spawns _ _ | loops _ _ | returns _ _
  | ends _ _ | channel _ _ | elsewhere => exact pool

theorem route_kept {maxThreads : BitVec 64} {p q : Process} {moves : List ProcessMove}
    (reached : (admission maxThreads).run p moves = some q) {tx : Option ThreadId}
    (decided : p.route tx ≠ .inline) : q.route tx = p.route tx := by
  cases tx with
  | some id => rfl
  | none =>
    cases pool : p.gilWorkerPool with
    | none => simp [route, pool] at decided
    | some size =>
      have kept : q.gilWorkerPool = some size := (admission maxThreads).run_invariant
        (P := fun p => p.gilWorkerPool = some size)
        (fun _ _ _ hold stepped => (moves_of_step stepped).pool_kept hold) pool reached
      simp [route, pool, kept]

section

variable {maxThreads : BitVec 64} {p : Process} {id fresh : ThreadId} {call : SpawnCall}
  (found : p.threads id = .calling call) (entered : call.stage = .entered)

include found entered

/-- With room, the call gets its own thread. -/
theorem admitted_alone (room : p.releaseGilThreads < maxThreads) (free : p.threads fresh = .idle) :
    ∃ q, (admission maxThreads).run p (List.replicate 2 (.proceed id fresh)) = some q ∧
      q.threads id = .calling { call with stage := .spawning (some fresh) } := by
  have below : ¬ maxThreads ≤ p.releaseGilThreads := BitVec.not_le.mpr room
  have other : fresh ≠ id := by
    intro same
    rw [same, found] at free
    cases free
  simp only [List.replicate, Machine.run, admission, step, found, proceed, entered, set_self, if_neg below,
    set_other p other, free, if_true]
  exact ⟨_, rfl, set_self _ id _⟩

/-- Without room, a lenient call falls back to the pool that is there, or to one of its own size. -/
theorem pooled_alone (full : maxThreads ≤ p.releaseGilThreads) (lenient : call.strict = false) :
    ∃ q, (admission maxThreads).run p (List.replicate 3 (.proceed id fresh)) = some q ∧
      q.threads id = .calling { call with stage := .spawning none } ∧
      q.gilWorkerPool = some (p.gilWorkerPool.getD call.poolSize) := by
  simp only [List.replicate, Machine.run, admission, step, found, proceed, entered, set_self, if_pos full, lenient,
    Bool.false_eq_true, if_false]
  exact ⟨_, rfl, set_self _ id _, rfl⟩

end

/-- The admission of a lenient call decides where the actor's messages go, for
    good. None is dropped exactly if the call finds room for a dedicated
    thread, or the pool in force has a worker. -/
theorem fallback_drops_nothing_iff (maxThreads : BitVec 64) (p : Process) (id fresh : ThreadId) (call : SpawnCall)
    (callables : BehaviorRef → PyObject) (ref : BehaviorRef) (found : p.threads id = .calling call)
    (entered : call.stage = .entered) (lenient : call.strict = false) (free : p.threads fresh = .idle) :
    ∃ turns q tx, (admission maxThreads).run p (List.replicate turns (.proceed id fresh)) = some q ∧
      q.threads id = .calling { call with stage := .spawning tx } ∧
      (∀ moves later, (admission maxThreads).run q moves = some later → later.route tx = q.route tx) ∧
      ((q.route tx).DropsNothing callables ref ↔
        p.releaseGilThreads < maxThreads ∨ p.gilWorkerPool.getD call.poolSize ≠ 0) := by
  by_cases room : p.releaseGilThreads < maxThreads
  · obtain ⟨q, ran, stage⟩ := admitted_alone found entered room free
    refine ⟨2, q, some fresh, ran, stage, fun _ _ _ => rfl, ?_⟩
    rw [Route.dropsNothing_iff]
    simp [route, room]
  · obtain ⟨q, ran, stage, pool⟩ := pooled_alone found entered (BitVec.not_lt.mp room) lenient
    have decided : q.route none = .pool (p.gilWorkerPool.getD call.poolSize) := by simp [route, pool]
    refine ⟨3, q, none, ran, stage, fun moves later reached => route_kept reached (by simp [decided]), ?_⟩
    rw [Route.dropsNothing_iff, decided]
    simp [room]

theorem caller_nonzero : (1 : BitVec 64) ≠ 0 := by decide

theorem unused_nonzero : (2 : BitVec 64) ≠ 0 := by decide

def caller : ThreadId := ⟨1, caller_nonzero⟩

def unused : ThreadId := ⟨2, unused_nonzero⟩

/-- The first call of a process, with a pool size of its own. -/
def firstCall (poolSize : BitVec 64) : Process :=
  (new ⟨.new .new [], []⟩).set caller (.calling ⟨10, poolSize, false, .entered⟩)

theorem firstCall_caller (poolSize : BitVec 64) :
    (firstCall poolSize).threads caller = .calling ⟨10, poolSize, false, .entered⟩ := set_self _ _ _

theorem fallback_drops_nothing_iff_one :
    ∃ turns q tx, (admission 0).run (firstCall 1) (List.replicate turns (.proceed caller unused)) = some q ∧
      q.threads caller = .calling ⟨10, 1, false, .spawning tx⟩ ∧ (q.route tx).DropsNothing (fun _ => 10) 0 := by
  have free : (firstCall 1).threads unused = .idle := set_other _ (by decide) _
  obtain ⟨turns, q, tx, ran, stage, -, holds⟩ := fallback_drops_nothing_iff 0 (firstCall 1) caller unused
    ⟨10, 1, false, .entered⟩ (fun _ => 10) 0 (firstCall_caller 1) rfl rfl free
  exact ⟨turns, q, tx, ran, stage, holds.mpr (.inr (by decide))⟩

/-- No threads and no workers are accepted as limits, and every message is lost. -/
theorem empty_pool_loses_messages :
    ¬ ∀ (maxThreads : BitVec 64) (p q : Process) (id fresh : ThreadId) (call : SpawnCall) (tx : Option ThreadId)
      (turns : Nat), p.threads id = .calling call → call.stage = .entered → call.strict = false →
      (admission maxThreads).run p (List.replicate turns (.proceed id fresh)) = some q →
      q.threads id = .calling { call with stage := .spawning tx } →
      ∀ callables ref, (q.route tx).DropsNothing callables ref := by
  intro keeps
  have alone : ∃ q, (admission 0).run (firstCall 0) (List.replicate 3 (.proceed caller unused)) = some q ∧
      q.threads caller = .calling ⟨10, 0, false, .spawning none⟩ ∧ q.gilWorkerPool = some 0 :=
    pooled_alone (firstCall_caller 0) rfl (by decide) rfl
  obtain ⟨q, ran, stage, pool⟩ := alone
  have drops := keeps 0 _ q caller unused _ none 3 (firstCall_caller 0) rfl rfl ran stage (fun _ => 10) 0
  have decided : q.route none = .pool 0 := by simp [route, pool]
  rw [decided] at drops
  exact empty_pool_drops _ _ drops

end Process

end Myrmidon.Python
