import Myrmidon.Python.PoolSequential
import Myrmidon.Transition.Locks

namespace Myrmidon.Python

open Data Transition

namespace Worker

/-- Whether the thread has the GIL in hand. -/
def holdsGil : Worker → Nat
  | .calling _ | .swapping _ _ => 1
  | .top | .receiving | .took _ | .paused _ | .ended => 0

/-- Whether the thread has the read lock on the actor's behaviour. -/
def reads (ref : BehaviorRef) : Worker → Nat
  | .calling other | .paused other => if other = ref then 1 else 0
  | .top | .receiving | .took _ | .swapping _ _ | .ended => 0

/-- The behaviour that the thread is about to swap. -/
def swaps? : Worker → Option BehaviorRef
  | .took (.hotSwap ref _) => some ref
  | _ => none

theorem swaps?_eq_some {w : Worker} {ref : BehaviorRef} :
    w.swaps? = some ref ↔ ∃ ptr, w = .took (.hotSwap ref ptr) := by
  cases w with
  | took task => cases task <;> simp [swaps?]
  | _ => simp [swaps?]

end Worker

namespace GilPool

open Myrmidon.Python.Worker Locks

inductive PoolLock where
  | gil
  | behavior (ref : BehaviorRef)

def poolLocks : Locks GilPool Worker PoolLock where
  taken
    | s, .gil => s.gil.toNat
    | s, .behavior ref => s.readers ref
  holds
    | .gil, w => w.holdsGil
    | .behavior ref, w => w.reads ref

abbrev Locked (c : Config GilPool Worker) : Prop := poolLocks.Balanced c

/-- A worker that has the GIL waits for the write lock on a behaviour that
    another worker, which waits for the GIL, is reading. -/
def Deadlocked (c : Config GilPool Worker) : Prop :=
  ∃ ref ptr, Worker.swapping ref ptr ∈ c.threads ∧ Worker.paused ref ∈ c.threads

/-- Whatever happens from here on, the GIL is never given back and no behaviour is ever called or swapped again. -/
structure Frozen (c : Config GilPool Worker) : Prop where
  gil : ∀ moves d, gilPool.machine.run c moves = some d → d.shared.gil = true
  behaviors : ∀ moves d, gilPool.machine.run c moves = some d → d.shared.behaviors = c.shared.behaviors

/-- A worker takes the GIL for a swap only while no worker reads the behaviour. -/
def SwapsUnread (c : Config GilPool Worker) : PoolMove → Prop
  | .step index .proceed => ∀ ref ∈ c.threads[index]?.bind Worker.swaps?,
      c.shared.initialised = true → c.shared.readers ref = 0
  | _ => True

instance (c : Config GilPool Worker) (move : PoolMove) : Decidable (SwapsUnread c move) :=
  match move with
  | .start _ => inferInstanceAs (Decidable True)
  | .ambient _ => inferInstanceAs (Decidable True)
  | .step _ .timeOut => inferInstanceAs (Decidable True)
  | .step _ .yieldGil => inferInstanceAs (Decidable True)
  | .step index .proceed => inferInstanceAs (Decidable (∀ ref ∈ c.threads[index]?.bind Worker.swaps?,
      c.shared.initialised = true → c.shared.readers ref = 0))

section

variable {s later : GilPool} {w next : Worker} {before after : List Worker} {ref : BehaviorRef} {ptr : PyObject}

theorem gil_of_holder (held : w.holdsGil ≤ s.gil.toNat) (holds : w.holdsGil = 1) : s.gil = true := by
  cases gil : s.gil with
  | true => rfl
  | false =>
    rw [holds, gil] at held
    cases held

theorem Locked.step (locked : Locked ⟨s, before ++ w :: after⟩) (steps : Steps s w later next) :
    Locked ⟨later, before ++ next :: after⟩ := by
  have mine : w.holdsGil = 1 → s.gil = true := gil_of_holder (locked.held .gil)
  apply Balanced.step locked
  cases steps with
  | @begins ref bytes up free =>
    rintro (_ | other)
    · simp [poolLocks, GilPool.beginCall, holdsGil, free]
    · simp [poolLocks, GilPool.beginCall, reads, update_take]
  | locks up free => rintro (_ | other) <;> simp [poolLocks, holdsGil, reads, free]
  | @returns ref =>
    rintro (_ | other)
    · simp [poolLocks, GilPool.finishCall, holdsGil, mine rfl]
    · have bound : reads other (.calling ref) ≤ s.readers other := locked.held (.behavior other)
      simp only [reads] at bound
      simp only [poolLocks, GilPool.finishCall, reads, update_release]
      omega
  | yields => rintro (_ | other) <;> simp [poolLocks, holdsGil, reads, mine rfl]
  | resumes free => rintro (_ | other) <;> simp [poolLocks, holdsGil, reads, free]
  | swaps unread => rintro (_ | other) <;> simp [poolLocks, GilPool.swap, holdsGil, reads, mine rfl]
  | _ => rintro (_ | other) <;> rfl

theorem Locked.gil_of_mem {c : Config GilPool Worker} (locked : Locked c) (member : w ∈ c.threads)
    (holds : w.holdsGil = 1) : c.shared.gil = true := by
  have more : poolLocks.taken c.shared .gil ≠ 0 := locked.taken_of_mem .gil member (by simp [poolLocks, holds])
  cases gil : c.shared.gil with
  | true => rfl
  | false => simp [poolLocks, gil] at more

/-- There is one GIL. -/
theorem Locked.only_holder (locked : Locked ⟨s, before ++ w :: after⟩) (holds : w.holdsGil = 1) {other : Worker}
    (member : other ∈ before ++ after) : other.holdsGil = 0 := by
  have all : poolLocks.taken s .gil ≤ poolLocks.holds .gil w := by
    show s.gil.toNat ≤ w.holdsGil
    rw [holds]
    exact s.gil.toNat_le
  exact Balanced.only_holder locked all member

/-- A behaviour that is read while its reader does not have the GIL is read by a paused worker. -/
theorem Locked.paused {c : Config GilPool Worker} (locked : Locked c) {ref : BehaviorRef}
    (read : c.shared.readers ref ≠ 0) (without : ∀ other ∈ c.threads, other ≠ .calling ref) :
    Worker.paused ref ∈ c.threads := by
  obtain ⟨reader, member, holds⟩ := locked.exists_holder (.behavior ref) read
  cases reader with
  | calling own =>
    have same : own = ref := by simpa [poolLocks, reads] using holds
    exact absurd (same ▸ rfl) (without _ member)
  | paused own =>
    have same : own = ref := by simpa [poolLocks, reads] using holds
    exact same ▸ member
  | _ => exact absurd rfl holds

/-- Neither of the two workers of a deadlock moves, and no other one has a lock. -/
theorem Deadlocked.step (locked : Locked ⟨s, before ++ w :: after⟩)
    (dead : Deadlocked ⟨s, before ++ w :: after⟩) (steps : Steps s w later next) :
    Deadlocked ⟨later, before ++ next :: after⟩ ∧ later.behaviors = s.behaviors := by
  obtain ⟨ref, ptr, swapping, paused⟩ := dead
  have taken : s.gil = true := locked.gil_of_mem swapping rfl
  have read : s.readers ref ≠ 0 := locked.taken_of_mem (.behavior ref) paused (by simp [poolLocks, reads])
  have swapper : Worker.swapping ref ptr ≠ w := by
    rintro rfl
    cases steps with
    | swaps unread => exact read unread
  have sleeper : Worker.paused ref ≠ w := by
    rintro rfl
    cases steps with
    | resumes free => rw [taken] at free; cases free
  have swapping := mem_elsewhere swapping swapper
  refine ⟨⟨ref, ptr, mem_replaced swapping, mem_replaced (mem_elsewhere paused sleeper)⟩, ?_⟩
  have without : w.holdsGil ≠ 1 := by
    intro holds
    have none := locked.only_holder holds swapping
    simp [holdsGil] at none
  cases steps with
  | begins up free => rw [taken] at free; cases free
  | returns => exact absurd rfl without
  | swaps unread => exact absurd rfl without
  | _ => rfl

/-- A deadlock comes about only when a worker takes the GIL for a swap. -/
theorem Deadlocked.of_step (locked : Locked ⟨s, before ++ w :: after⟩) (steps : Steps s w later next)
    (dead : Deadlocked ⟨later, before ++ next :: after⟩) :
    Deadlocked ⟨s, before ++ w :: after⟩ ∨
      ∃ ref ptr, w = .took (.hotSwap ref ptr) ∧ s.initialised = true ∧ s.readers ref ≠ 0 := by
  obtain ⟨ref, ptr, swapping, paused⟩ := dead
  by_cases swapper : Worker.swapping ref ptr = next
  · subst swapper
    have sleeping : Worker.paused ref ∈ before ++ after := mem_elsewhere paused (by simp)
    cases steps with
    | locks up free =>
      refine .inr ⟨ref, ptr, rfl, up, ?_⟩
      exact locked.taken_of_mem (.behavior ref) (mem_replaced sleeping) (by simp [poolLocks, reads])
  · by_cases sleeper : Worker.paused ref = next
    · subst sleeper
      have holder : Worker.swapping ref ptr ∈ before ++ after := mem_elsewhere swapping (by simp)
      cases steps with
      | yields =>
        have none := locked.only_holder rfl holder
        simp [holdsGil] at none
    · exact .inl ⟨ref, ptr, mem_replaced (mem_elsewhere swapping swapper), mem_replaced (mem_elsewhere paused sleeper)⟩

/-- The other worker cannot go on before this one has given the GIL back. -/
theorem Deadlocked.of_swap (locked : Locked ⟨s, before ++ .took (.hotSwap ref ptr) :: after⟩)
    (up : s.initialised = true)
    (read : s.readers ref ≠ 0) (steps : Steps s (.took (.hotSwap ref ptr)) later next) :
    Deadlocked ⟨later, before ++ next :: after⟩ := by
  cases steps with
  | abandons down => rw [up] at down; cases down
  | locks _ free =>
    refine ⟨ref, ptr, by simp, ?_⟩
    have sleeper : Worker.paused ref ∈ before ++ Worker.took (.hotSwap ref ptr) :: after := by
      apply locked.paused read
      rintro other member rfl
      have taken := locked.gil_of_mem member rfl
      rw [free] at taken
      cases taken
    exact mem_replaced (mem_elsewhere sleeper (by simp))

end

/-- With the pool there, the closure changes no behaviour by itself. -/
theorem dispatch_pooled (b : Behavior) (ref : BehaviorRef) (initialised : Bool) (message : Message) :
    b.dispatch ((Closure.pooled ref).handle initialised true message) = b := by
  cases initialised with
  | false => rfl
  | true =>
    cases message with
    | user bytes => rfl
    | system message => cases message <;> rfl

theorem deliver_behaviors (s : GilPool) (ref : BehaviorRef) (message : Message) :
    (s.deliver ref message).behaviors = s.behaviors := by
  have sent : ∀ (p : GilPool) (task : PoolTask), (p.submit task).behaviors = p.behaviors := by
    intro p task
    unfold submit
    split <;> rfl
  cases up : s.initialised with
  | false => rw [deliver_down up]
  | true =>
    unfold deliver
    rw [if_pos up]
    split
    · exact sent _ _
    · dsimp only
      rw [dispatch_pooled, Function.update_eq_self]

theorem Locked.move {c d : Config GilPool Worker} {move : PoolMove} (locked : Locked c)
    (moves : gilPool.Moves c move d) : Locked d := by
  cases moves with
  | start allowed => cases allowed
  | step stepped =>
    obtain ⟨taken, rfl⟩ := gilPool_step stepped
    rw [List.append_nil]
    exact locked.step (steps_of_step taken)
  | @ambient s later workers operation done =>
    cases operation with
    | deliver ref message =>
      cases done
      obtain ⟨gil, readers, -, -⟩ := deliver_frame s ref message
      apply locked.ambient
      rintro (_ | other)
      · exact congrArg Bool.toNat gil
      · exact congrFun readers other
    | shutDown =>
      cases done
      apply locked.ambient
      rintro (_ | other) <;> rfl

theorem Deadlocked.move {c d : Config GilPool Worker} {move : PoolMove} (locked : Locked c) (dead : Deadlocked c)
    (moves : gilPool.Moves c move d) : Deadlocked d ∧ d.shared.behaviors = c.shared.behaviors := by
  cases moves with
  | start allowed => cases allowed
  | step stepped =>
    obtain ⟨taken, rfl⟩ := gilPool_step stepped
    rw [List.append_nil]
    exact dead.step locked (steps_of_step taken)
  | @ambient s later workers operation done =>
    refine ⟨dead, ?_⟩
    cases operation with
    | deliver ref message =>
      cases done
      exact deliver_behaviors s ref message
    | shutDown =>
      cases done
      rfl

theorem Frozen.of_deadlocked {c : Config GilPool Worker} (locked : Locked c) (dead : Deadlocked c) : Frozen c := by
  have kept : ∀ moves d, gilPool.machine.run c moves = some d →
      Locked d ∧ Deadlocked d ∧ d.shared.behaviors = c.shared.behaviors := by
    intro moves d reached
    refine gilPool.machine.run_invariant
      (P := fun d => Locked d ∧ Deadlocked d ∧ d.shared.behaviors = c.shared.behaviors) ?_ ⟨locked, dead, rfl⟩ reached
    rintro middle move next ⟨locked, dead, same⟩ taken
    have moved := gilPool.moves_of_step taken
    obtain ⟨dead', same'⟩ := dead.move locked moved
    exact ⟨locked.move moved, dead', same'.trans same⟩
  constructor
  · intro moves d reached
    obtain ⟨locked, ⟨ref, ptr, swapping, -⟩, -⟩ := kept moves d reached
    exact locked.gil_of_mem swapping rfl
  · intro moves d reached
    exact (kept moves d reached).2.2

/-- Without a deadlock, the worker that has the GIL gives it back with its next step. -/
theorem exists_release {c : Config GilPool Worker} (locked : Locked c) (free : ¬ Deadlocked c) :
    ∃ moves d, gilPool.machine.run c moves = some d ∧ d.shared.gil = false := by
  cases gil : c.shared.gil with
  | false => exact ⟨[], c, rfl, gil⟩
  | true =>
    obtain ⟨w, member, holds⟩ := locked.exists_holder .gil (by simp [poolLocks, gil])
    obtain ⟨s, threads⟩ := c
    obtain ⟨before, after, rfl⟩ := List.append_of_mem member
    have release : ∀ later next, w.step s .proceed = some (later, next) → later.gil = false →
        ∃ moves d, gilPool.machine.run ⟨s, before ++ w :: after⟩ moves = some d ∧ d.shared.gil = false := by
      intro later next stepped released
      have taken : gilPool.step before.length s w .proceed = some (later, next, []) := by
        simp only [gilPool, stepped, Option.map_some]
      refine ⟨[.step before.length .proceed], ⟨later, before ++ next :: (after ++ [])⟩, ?_, released⟩
      rw [Machine.run_cons, gilPool.machine_step_at taken]
      rfl
    cases w with
    | calling ref => exact release (s.finishCall ref) .top rfl rfl
    | swapping ref ptr =>
      by_cases unread : s.readers ref = 0
      · exact release (s.swap ref ptr) .top (by simp [Worker.step, unread]) rfl
      · apply absurd _ free
        refine ⟨ref, ptr, member, locked.paused unread ?_⟩
        rintro other present rfl
        have none := locked.only_holder rfl (mem_elsewhere present (by simp))
        simp [holdsGil] at none
    | _ => exact absurd rfl holds

theorem startPool_locked (size : Nat) (callables : BehaviorRef → PyObject) : Locked (startPool size callables) := by
  apply balanced_of_idle
  · rintro (_ | ref) <;> rfl
  · intro w member lock
    rw [List.eq_of_mem_replicate member]
    cases lock <;> rfl

/-- A deadlock takes two workers. -/
theorem Deadlocked.two_le {c : Config GilPool Worker} (dead : Deadlocked c) : 2 ≤ c.threads.length := by
  obtain ⟨ref, ptr, swapping, paused⟩ := dead
  obtain ⟨before, after, split⟩ := List.append_of_mem swapping
  rw [split] at paused ⊢
  have elsewhere := List.length_pos_of_mem (mem_elsewhere paused (by simp))
  rw [List.length_append] at elsewhere ⊢
  rw [List.length_cons]
  omega

theorem startPool_not_deadlocked (size : Nat) (callables : BehaviorRef → PyObject) :
    ¬ Deadlocked (startPool size callables) := by
  rintro ⟨ref, ptr, swapping, -⟩
  cases List.eq_of_mem_replicate swapping

theorem step_at {c d : Config GilPool Worker} {move : PoolMove} (taken : gilPool.machine.step c move = some d) :
    (∃ s later w next before after input, c = ⟨s, before ++ w :: after⟩ ∧ d = ⟨later, before ++ next :: after⟩ ∧
      move = .step before.length input ∧ w.step s input = some (later, next)) ∨
    ((∀ index input, move ≠ .step index input) ∧ d.threads = c.threads) := by
  cases gilPool.moves_of_step taken with
  | start allowed => cases allowed
  | @step s later before after new w next input stepped =>
    obtain ⟨done, rfl⟩ := gilPool_step stepped
    exact .inl ⟨s, later, w, next, before, after, input, rfl, by rw [List.append_nil], rfl, done⟩
  | ambient done => exact .inr ⟨by simp, rfl⟩

theorem keeps (c : Config GilPool Worker) (move : PoolMove) (d : Config GilPool Worker)
    (free : Locked c ∧ ¬ Deadlocked c) (unread : SwapsUnread c move) (taken : gilPool.machine.step c move = some d) :
    Locked d ∧ ¬ Deadlocked d := by
  refine ⟨free.1.move (gilPool.moves_of_step taken), fun dead => free.2 ?_⟩
  rcases step_at taken with ⟨s, later, w, next, before, after, input, rfl, rfl, rfl, stepped⟩ | ⟨-, same⟩
  · rcases dead.of_step free.1 (steps_of_step stepped) with already | ⟨ref, ptr, rfl, up, read⟩
    · exact already
    · cases input with
      | proceed => exact absurd (unread ref (by simp [Worker.swaps?]) up) read
      | timeOut => cases stepped
      | yieldGil => cases stepped
  · obtain ⟨ref, ptr, swapping, paused⟩ := dead
    rw [same] at swapping paused
    exact ⟨ref, ptr, swapping, paused⟩

theorem leaves (c : Config GilPool Worker) (move : PoolMove) (d : Config GilPool Worker)
    (free : Locked c ∧ ¬ Deadlocked c) (read : ¬ SwapsUnread c move) (taken : gilPool.machine.step c move = some d) :
    Locked d ∧ Deadlocked d := by
  refine ⟨free.1.move (gilPool.moves_of_step taken), ?_⟩
  rcases step_at taken with ⟨s, later, w, next, before, after, input, rfl, rfl, rfl, stepped⟩ | ⟨other, -⟩
  · cases input with
    | proceed =>
      simp only [SwapsUnread, not_forall] at read
      obtain ⟨ref, took, up, read⟩ := read
      have mine : w.swaps? = some ref := by simpa using took
      obtain ⟨ptr, rfl⟩ := Worker.swaps?_eq_some.mp mine
      exact .of_swap free.1 up read (steps_of_step stepped)
    | timeOut => exact absurd trivial read
    | yieldGil => exact absurd trivial read
  · cases move with
    | step index input => exact absurd rfl (other index input)
    | _ => exact absurd trivial read

theorem stays (c : Config GilPool Worker) (move : PoolMove) (d : Config GilPool Worker)
    (dead : Locked c ∧ Deadlocked c) (taken : gilPool.machine.step c move = some d) : Locked d ∧ Deadlocked d :=
  ⟨dead.1.move (gilPool.moves_of_step taken), (dead.2.move dead.1 (gilPool.moves_of_step taken)).1⟩

theorem length_of_run {size : Nat} {callables : BehaviorRef → PyObject} {moves : List PoolMove}
    {c : Config GilPool Worker} (reached : gilPool.machine.run (startPool size callables) moves = some c) :
    c.threads.length = size := by
  have kept : ∀ c move d, c.threads.length = size → gilPool.machine.step c move = some d → d.threads.length = size := by
    intro c move d same taken
    cases gilPool.moves_of_step taken with
    | start allowed => cases allowed
    | step stepped =>
      obtain ⟨-, rfl⟩ := gilPool_step stepped
      simpa using same
    | ambient done => exact same
  exact gilPool.machine.run_invariant (P := fun c => c.threads.length = size) kept List.length_replicate reached

/-- One worker is inside the behaviour and has lent the GIL; the other takes it for the swap. -/
def swapWhileCalling : List PoolMove :=
  [.ambient (.deliver 0 (.user [1])), .ambient (.deliver 0 (.system (.hotSwap 20))), .step 0 .proceed, .step 0 .proceed,
    .step 0 .proceed, .step 0 .yieldGil, .step 1 .proceed, .step 1 .proceed, .step 1 .proceed]

end GilPool

end Myrmidon.Python
