import Mathlib.Data.List.Perm.Subperm
import Myrmidon.Python.PoolDeadlock

namespace Myrmidon.Python

open Data Transition

/-- How the callables of an actor follow each other: several threads may be
    inside the current one, and it is given up for the next when none is. The
    number is that of the threads inside. -/
inductive Lives (first : PyObject) : List Event → PyObject → Nat → Prop where
  | starts : Lives first [] first 0
  | began {events : List Event} {callable : PyObject} {inside : Nat} (lives : Lives first events callable inside)
      (bytes : Bytes) : Lives first (events ++ [.began callable bytes]) callable (inside + 1)
  | ended {events : List Event} {callable : PyObject} {inside : Nat}
      (lives : Lives first events callable (inside + 1)) :
      Lives first (events ++ [.ended]) callable inside
  | swapped {events : List Event} {callable : PyObject} (idle : Lives first events callable 0) (ptr : PyObject) :
      Lives first (events ++ [.swapped ptr]) ptr 0

theorem split_last {events before after : List Event} {last event : Event}
    (split : events ++ [last] = before ++ event :: after) :
    (events = before ∧ last = event) ∨ ∃ rest, events = before ++ event :: rest := by
  rcases List.eq_nil_or_concat after with rfl | ⟨rest, final, rfl⟩
  · exact .inl (by simpa using List.append_inj' split rfl)
  · rw [List.concat_eq_append, ← List.cons_append, ← List.append_assoc] at split
    exact .inr ⟨rest, (List.append_inj' split rfl).1⟩

theorem Lives.idle_of_swapped {first callable : PyObject} {events before after : List Event} {inside : Nat}
    (lives : Lives first events callable inside) {ptr : PyObject} (split : events = before ++ .swapped ptr :: after) :
    ∃ old, Lives first before old 0 := by
  induction lives generalizing after with
  | starts => simp at split
  | began lives bytes ih =>
    rcases split_last split with ⟨-, same⟩ | ⟨rest, earlier⟩
    · cases same
    · exact ih earlier
  | ended lives ih =>
    rcases split_last split with ⟨-, same⟩ | ⟨rest, earlier⟩
    · cases same
    · exact ih earlier
  | swapped idle other ih =>
    rcases split_last split with ⟨rfl, -⟩ | ⟨rest, earlier⟩
    · exact ⟨_, idle⟩
    · exact ih earlier

def Event.adopted? : Event → Option PyObject
  | .swapped ptr => some ptr
  | .began _ _ | .ended => none

/-- The callables that were put in place of another, in order. -/
def Behavior.adopted (b : Behavior) : List PyObject := b.events.filterMap Event.adopted?

/-- The reference that a message carries. -/
def handedOver? : Message → Option PyObject
  | .system (.hotSwap ptr) => some ptr
  | .system (.exit _) | .system .ping | .system .pong | .user _ => none

namespace Behavior

@[simp] theorem adopted_begin (b : Behavior) (bytes : Bytes) : (b.begin bytes).adopted = b.adopted := by
  simp [adopted, begin, Event.adopted?]

@[simp] theorem adopted_finish (b : Behavior) : b.finish.adopted = b.adopted := by
  simp [adopted, finish, Event.adopted?]

@[simp] theorem adopted_swap (b : Behavior) (ptr : PyObject) : (b.swap ptr).adopted = b.adopted ++ [ptr] := by
  simp [adopted, swap, Event.adopted?]

end Behavior

def PoolTask.reference? (ref : BehaviorRef) : PoolTask → Option PyObject
  | .hotSwap other ptr => if other = ref then some ptr else none
  | .execute _ _ => none

/-- The actor's next callable in the worker's hand. -/
def Worker.reference? (ref : BehaviorRef) : Worker → Option PyObject
  | .took task => task.reference? ref
  | .swapping other ptr => if other = ref then some ptr else none
  | .top | .receiving | .calling _ | .paused _ | .ended => none

namespace GilPool

open Myrmidon.Python.Worker

/-- The actor's callables to come that the pool holds: in hand or in the queue. -/
def pledged (ref : BehaviorRef) (c : Config GilPool Worker) : List PyObject :=
  c.threads.filterMap (Worker.reference? ref) ++ c.shared.tasks.queue.filterMap (PoolTask.reference? ref)

/-- Nothing was adopted twice or without being handed over, and as long as the pool works nothing is lost. -/
structure Adopts (staffed : Prop) (ref : BehaviorRef) (c : Config GilPool Worker) : Prop where
  senders : c.shared.tasks.senderAlive = true
  receivers : staffed → c.shared.initialised = true → c.shared.tasks.receiverAlive = true
  once : ∀ ptr, ((c.shared.behaviors ref).adopted ++ pledged ref c).count ptr ≤
    ((c.shared.received ref).filterMap handedOver?).count ptr
  kept : staffed → c.shared.initialised = true → ∀ ptr, ((c.shared.behaviors ref).adopted ++ pledged ref c).count ptr =
    ((c.shared.received ref).filterMap handedOver?).count ptr

variable {staffed : Prop} {ref : BehaviorRef} {s later : GilPool} {before after : List Worker} {w next : Worker}

theorem count_pledged (ref : BehaviorRef) (ptr : PyObject) (s : GilPool) (before after : List Worker) (w : Worker) :
    (pledged ref ⟨s, before ++ w :: after⟩).count ptr =
      (before.filterMap (reference? ref)).count ptr + (after.filterMap (reference? ref)).count ptr +
        ((w.reference? ref).toList.count ptr + (s.tasks.queue.filterMap (PoolTask.reference? ref)).count ptr) := by
  have split : (w :: after).filterMap (reference? ref) =
      (w.reference? ref).toList ++ after.filterMap (reference? ref) := by
    rw [List.filterMap_cons]
    cases w.reference? ref <;> rfl
  simp only [pledged, List.filterMap_append, split, List.count_append]
  omega

/-- A step moves a callable on, or loses it when the interpreter is down. -/
theorem Steps.handsOn (steps : Steps s w later next) (ref : BehaviorRef) (ptr : PyObject) :
    (later.behaviors ref).adopted.count ptr + ((next.reference? ref).toList.count ptr +
        (later.tasks.queue.filterMap (PoolTask.reference? ref)).count ptr) ≤
      (s.behaviors ref).adopted.count ptr + ((w.reference? ref).toList.count ptr +
        (s.tasks.queue.filterMap (PoolTask.reference? ref)).count ptr) ∧
    (s.initialised = true → (later.behaviors ref).adopted.count ptr + ((next.reference? ref).toList.count ptr +
        (later.tasks.queue.filterMap (PoolTask.reference? ref)).count ptr) =
      (s.behaviors ref).adopted.count ptr + ((w.reference? ref).toList.count ptr +
        (s.tasks.queue.filterMap (PoolTask.reference? ref)).count ptr)) := by
  cases steps with
  | abandons down =>
    refine ⟨?_, fun up => by simp [down] at up⟩
    simp only [dropReceiver, reference?, Option.toList_none, List.count_nil]
    omega
  | @takes task rest queue =>
    rw [queue, List.filterMap_cons]
    simp only [reference?]
    cases task.reference? ref with
    | none => simp
    | some own =>
      simp only [Option.toList_some, Option.toList_none, List.count_cons, List.count_nil]
      omega
  | @begins other payload up free =>
    simp only [beginCall, reference?, PoolTask.reference?]
    by_cases mine : other = ref
    · subst mine
      simp
    · simp [Function.update_of_ne (Ne.symm mine)]
  | @locks other ptr up free => simp [reference?, PoolTask.reference?]
  | @returns other =>
    simp only [finishCall, reference?]
    by_cases mine : other = ref
    · subst mine
      simp
    · simp [Function.update_of_ne (Ne.symm mine)]
  | @swaps other ptr unread =>
    simp only [GilPool.swap, reference?]
    by_cases mine : other = ref
    · subst mine
      simp only [Function.update_self, Behavior.adopted_swap, List.count_append, if_true, Option.toList_some,
        Option.toList_none, List.count_nil]
      omega
    · simp [Function.update_of_ne (Ne.symm mine), mine]
  | _ => simp [reference?, dropReceiver]

theorem Adopts.step (adopts : Adopts staffed ref ⟨s, before ++ w :: after⟩) (steps : Steps s w later next) :
    Adopts staffed ref ⟨later, before ++ next :: after⟩ := by
  have keeps := Kept.of_steps steps
  obtain ⟨senders, receivers, once, kept⟩ := adopts
  refine ⟨keeps.senders.trans senders, ?_, ?_, ?_⟩
  · intro staff up
    dsimp only at up ⊢
    rw [keeps.initialised] at up
    exact (keeps.receivers up senders).trans (receivers staff up)
  · intro ptr
    have balance := (Steps.handsOn steps ref ptr).1
    have held := once ptr
    rw [List.count_append, count_pledged] at held ⊢
    simp only [keeps.received] at held ⊢
    omega
  · intro staff up ptr
    dsimp only at up
    rw [keeps.initialised] at up
    have balance := (Steps.handsOn steps ref ptr).2 up
    have held := kept staff up ptr
    rw [List.count_append, count_pledged] at held ⊢
    simp only [keeps.received] at held ⊢
    omega

/-- What the loop of an actor hands on goes to the end of the queue, unless no worker is left to take it. -/
theorem deliver_tasks (up : s.initialised = true) (ref other : BehaviorRef) (message : Message) :
    (s.deliver other message).received = Function.update s.received other (s.received other ++ [message]) ∧
    (s.deliver other message).tasks.receiverAlive = s.tasks.receiverAlive ∧
    ∃ tasks, (s.deliver other message).tasks.queue = s.tasks.queue ++ tasks ∧
      tasks.filterMap (PoolTask.reference? ref) =
        if other = ref ∧ s.tasks.receiverAlive = true then (handedOver? message).toList else [] := by
  cases message with
  | user bytes =>
    cases alive : s.tasks.receiverAlive with
    | true =>
      refine ⟨?_, ?_, [.execute other bytes], ?_, by simp [PoolTask.reference?, handedOver?]⟩ <;>
        simp [GilPool.deliver, up, Closure.handle, Closure.pooled, submit, Channel.send, alive]
    | false =>
      simp [GilPool.deliver, up, Closure.handle, Closure.pooled, submit, Channel.send, alive]
  | system message =>
    cases message with
    | hotSwap ptr =>
      cases alive : s.tasks.receiverAlive with
      | true =>
        have carries : [PoolTask.hotSwap other ptr].filterMap (PoolTask.reference? ref) =
            if other = ref ∧ true = true then (handedOver? (.system (.hotSwap ptr))).toList else [] := by
          by_cases mine : other = ref <;> simp [PoolTask.reference?, handedOver?, mine]
        refine ⟨?_, ?_, [.hotSwap other ptr], ?_, carries⟩ <;>
          simp [GilPool.deliver, up, Closure.handle, Closure.pooled, submit, Channel.send, alive]
      | false =>
        simp [GilPool.deliver, up, Closure.handle, Closure.pooled, submit, Channel.send, alive]
    | _ => simp [GilPool.deliver, up, Closure.handle, Behavior.dispatch, handedOver?]

theorem count_received (received : BehaviorRef → List Message) (other ref : BehaviorRef) (message : Message)
    (ptr : PyObject) :
    ((Function.update received other (received other ++ [message]) ref).filterMap handedOver?).count ptr =
      ((received ref).filterMap handedOver?).count ptr +
        if other = ref then (handedOver? message).toList.count ptr else 0 := by
  by_cases mine : other = ref
  · subst mine
    rw [Function.update_self, List.filterMap_append, List.count_append, if_pos rfl, List.filterMap_cons,
      List.filterMap_nil]
    cases handedOver? message <;> rfl
  · rw [Function.update_of_ne (Ne.symm mine), if_neg mine, Nat.add_zero]

theorem Adopts.deliver {threads : List Worker} (adopts : Adopts staffed ref ⟨s, threads⟩) (other : BehaviorRef)
    (message : Message) : Adopts staffed ref ⟨s.deliver other message, threads⟩ := by
  cases up : s.initialised with
  | false =>
    rw [deliver_down up]
    exact adopts
  | true =>
    obtain ⟨senders, receivers, once, kept⟩ := adopts
    obtain ⟨-, -, sameSenders, sameUp⟩ := deliver_frame s other message
    obtain ⟨received, sameReceivers, tasks, queue, references⟩ := deliver_tasks up ref other message
    have behaviors := deliver_behaviors s other message
    refine ⟨sameSenders.trans senders, fun staff _ => sameReceivers.trans (receivers staff up), ?_, ?_⟩
    · intro ptr
      have held := once ptr
      simp only [pledged, List.count_append] at held ⊢
      simp only [queue, behaviors, received, List.filterMap_append, List.count_append, references, count_received]
      split_ifs <;> simp_all <;> omega
    · intro staff _ ptr
      have alive := receivers staff up
      have held := kept staff up ptr
      simp only [pledged, List.count_append] at held ⊢
      simp only [queue, behaviors, received, List.filterMap_append, List.count_append, references, count_received]
      dsimp only at alive
      by_cases mine : other = ref
      · simp only [mine, alive, if_true, and_self]
        omega
      · simp only [mine, if_false, false_and, List.count_nil]
        omega

/-- What the pool does with the callables of an actor: all of it within their
    lives, and those to come as they were handed over. -/
structure Keeps (callable : PyObject) (staffed : Prop) (ref : BehaviorRef) (c : Config GilPool Worker) : Prop where
  lives : Lives callable (c.shared.behaviors ref).events (c.shared.behaviors ref).callable (c.shared.readers ref)
  adopts : Adopts staffed ref c

theorem Steps.lives (steps : Steps s w later next) (reads : w.reads ref ≤ s.readers ref) {callable : PyObject}
    (lives : Lives callable (s.behaviors ref).events (s.behaviors ref).callable (s.readers ref)) :
    Lives callable (later.behaviors ref).events (later.behaviors ref).callable (later.readers ref) := by
  cases steps with
  | @begins other bytes up free =>
    by_cases mine : other = ref
    · subst mine
      simp only [beginCall, Function.update_self]
      exact .began lives bytes
    · simpa [beginCall, Function.update_of_ne (Ne.symm mine)] using lives
  | @returns other =>
    by_cases mine : other = ref
    · subst mine
      simp only [Worker.reads, if_true] at reads
      obtain ⟨inside, more⟩ := Nat.exists_eq_add_of_le' reads
      rw [more] at lives
      simp only [finishCall, Function.update_self, more, Nat.add_sub_cancel]
      exact .ended lives
    · simpa [finishCall, Function.update_of_ne (Ne.symm mine)] using lives
  | @swaps other ptr unread =>
    by_cases mine : other = ref
    · subst mine
      rw [unread] at lives
      simp only [GilPool.swap, Function.update_self, unread]
      exact .swapped lives ptr
    · simpa [GilPool.swap, Function.update_of_ne (Ne.symm mine)] using lives
  | _ => exact lives

theorem Keeps.move {callable : PyObject} {c d : Config GilPool Worker} {move : PoolMove} (locked : Locked c)
    (keeps : Keeps callable staffed ref c) (moves : gilPool.Moves c move d) : Keeps callable staffed ref d := by
  obtain ⟨lives, adopts⟩ := keeps
  cases moves with
  | start allowed => cases allowed
  | step stepped =>
    obtain ⟨taken, rfl⟩ := gilPool_step stepped
    rw [List.append_nil]
    have steps := steps_of_step taken
    have reads : Worker.reads ref _ ≤ _ := locked.held (.behavior ref)
    exact ⟨Steps.lives steps reads lives, adopts.step steps⟩
  | @ambient s later workers operation done =>
    cases operation with
    | deliver other message =>
      cases done
      refine ⟨?_, adopts.deliver other message⟩
      obtain ⟨-, readers, -, -⟩ := deliver_frame s other message
      dsimp only at lives ⊢
      rw [deliver_behaviors, readers]
      exact lives
    | shutDown =>
      cases done
      obtain ⟨senders, receivers, once, kept⟩ := adopts
      exact ⟨lives, senders, fun _ up => Bool.noConfusion up, once, fun _ up => Bool.noConfusion up⟩

theorem startPool_keeps (size : Nat) (callables : BehaviorRef → PyObject) (ref : BehaviorRef) :
    Keeps (callables ref) (0 < size) ref (startPool size callables) := by
  have idle : pledged ref (startPool size callables) = [] := by
    simp [pledged, startPool, new, Worker.reference?]
  have unused : ((startPool size callables).shared.behaviors ref).adopted = [] := rfl
  refine ⟨.starts, rfl, fun staff _ => decide_eq_true staff, ?_, ?_⟩
  · intro ptr
    rw [unused, idle]
    exact Nat.zero_le _
  · intro staff up ptr
    rw [unused, idle]
    rfl

/-- A hot swap through the pool gives up the old callable only when no thread is
    inside it, adopts each new one at most once and only after it was handed
    over, and loses none as long as the interpreter is up and there is a worker. -/
theorem swapped_callables_outlive_calls (size : Nat) (callables : BehaviorRef → PyObject) {moves : List PoolMove}
    {c : Config GilPool Worker} (reached : gilPool.machine.run (startPool size callables) moves = some c)
    (ref : BehaviorRef) :
    Lives (callables ref) (c.shared.behaviors ref).events (c.shared.behaviors ref).callable
      (Program.total (Worker.reads ref) c.threads) ∧
    (∀ before ptr after, (c.shared.behaviors ref).events = before ++ .swapped ptr :: after →
      ∃ old, Lives (callables ref) before old 0) ∧
    ((c.shared.behaviors ref).adopted ++ pledged ref c).Subperm ((c.shared.received ref).filterMap handedOver?) ∧
    (0 < size → c.shared.initialised = true →
      ((c.shared.behaviors ref).adopted ++ pledged ref c).Perm ((c.shared.received ref).filterMap handedOver?)) := by
  have invariant : Locked c ∧ Keeps (callables ref) (0 < size) ref c :=
    gilPool.machine.run_invariant (P := fun c => Locked c ∧ Keeps (callables ref) (0 < size) ref c)
      (fun c move d held taken =>
        ⟨held.1.move (gilPool.moves_of_step taken), held.2.move held.1 (gilPool.moves_of_step taken)⟩)
      ⟨startPool_locked size callables, startPool_keeps size callables ref⟩ reached
  obtain ⟨locked, lives, adopts⟩ := invariant
  refine ⟨?_, fun before ptr after split => lives.idle_of_swapped split, ?_, ?_⟩
  · have inside : c.shared.readers ref = Program.total (Worker.reads ref) c.threads := locked (.behavior ref)
    rw [← inside]
    exact lives
  · exact List.subperm_ext_iff.mpr fun ptr _ => adopts.once ptr
  · intro staff up
    exact List.perm_iff_count.mpr (adopts.kept staff up)

theorem swapped_callables_outlive_calls_inTurn :
    ∃ c, gilPool.machine.run (startPool 2 fun _ => 10) inTurn = some c ∧
      (c.shared.behaviors 0).events = [.began 10 [1], .ended, .swapped 20] ∧
      ∃ old, Lives 10 [.began 10 [1], .ended] old 0 := by
  have ran : ∃ c, gilPool.machine.run (startPool 2 fun _ => 10) inTurn = some c ∧
      (c.shared.behaviors 0).events = [.began 10 [1], .ended, .swapped 20] :=
    gilPool.machine.exists_of_check (by decide +kernel)
  obtain ⟨c, reached, events⟩ := ran
  exact ⟨c, reached, events,
    (swapped_callables_outlive_calls 2 (fun _ => 10) reached 0).2.1 [.began 10 [1], .ended] 20 [] events⟩

end GilPool

end Myrmidon.Python
