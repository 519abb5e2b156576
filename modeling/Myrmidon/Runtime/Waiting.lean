import Mathlib.Order.Filter.AtTopBot.Basic
import Mathlib.Order.Filter.Finite
import Myrmidon.Runtime.Aliveness
import Myrmidon.Runtime.Progress
import Myrmidon.Transition.Callers

namespace Myrmidon

open Slab Transition

/-- A call of `wait`, which the bindings name `join`. -/
structure Waiter where
  pid : Pid
  returned : Bool
  deriving DecidableEq

/-- The loop of `wait`: each step is one look at `is_alive` and, while it says
    yes, the sleep after it. -/
def waiting : Callers World Unit Waiter Unit Operation Empty where
  starts waiter := !waiter.returned
  step w _ waiter _ :=
    if waiter.returned then none
    else some ((), if w.runtime.isAlive waiter.pid then waiter else { waiter with returned := true }, none)
  ambient _ operation := operation.elim

/-- Calls of `wait` among the life cycles of a runtime. -/
abbrev waits : Program (World × Unit) (Life ⊕ Waiter) (Fate ⊕ Unit) (Operation ⊕ Empty) := lifecycle.withCallers waiting

namespace Waiting

variable {e : waits.Execution} {supervisor : Supervisor} {pathSupervisors : List Supervisor}

theorem run_inside (initial : e.config 0 = ⟨(.new supervisor pathSupervisors, ()), []⟩) (n : Nat) :
    ∃ moves, lifecycle.machine.run ⟨.new supervisor pathSupervisors, []⟩ moves =
      some (Program.inside (e.config n)) := by
  obtain ⟨moves, reached⟩ := e.reached n
  obtain ⟨own, run⟩ := Program.inside_run (fun _ _ _ _ _ => rfl) reached
  rw [initial] at run
  exact ⟨own, run⟩

theorem settled (initial : e.config 0 = ⟨(.new supervisor pathSupervisors, ()), []⟩) (n : Nat) :
    Settled (Program.inside (e.config n)) := by
  obtain ⟨moves, run⟩ := run_inside initial n
  exact settled_of_run run

theorem mem_own {threads : List (Life ⊕ Waiter)} {life : Life} :
    life ∈ Program.ownThreads threads ↔ .inl life ∈ threads := by
  simp [Program.ownThreads]

def leftAt (e : waits.Execution) (n : Nat) : List (Pid × Nat) := (Roster.of (Program.inside (e.config n)).threads).left

def spawnedAt (e : waits.Execution) (n : Nat) : List (Pid × Nat) := (e.config n).shared.1.spawned

theorem kept (e : waits.Execution) {start n : Nat} (later : start ≤ n) :
    leftAt e start ⊆ leftAt e n ∧ spawnedAt e start ⊆ spawnedAt e n := by
  constructor
  · intro entry member
    have keeps : ∀ c move d, entry ∈ (Roster.of c.threads).left → lifecycle.Moves c move d →
        entry ∈ (Roster.of d.threads).left := fun _ _ _ held moves => (lifecycle_kept moves).1 held
    exact Program.inside_always (fun _ _ _ _ _ => rfl) e keeps member later
  · intro entry member
    have keeps : ∀ c move d, entry ∈ c.shared.spawned → lifecycle.Moves c move d → entry ∈ d.shared.spawned :=
      fun _ _ _ held moves => (lifecycle_kept moves).2 held
    exact Program.inside_always (fun _ _ _ _ _ => rfl) e keeps member later

/-- What `wait` saw: nobody held the slot, so every actor under the pid had left it. -/
theorem left_of_dead (initial : e.config 0 = ⟨(.new supervisor pathSupervisors, ()), []⟩) {n : Nat}
    (bound : (e.config n).shared.1.runtime.slab.entries.length ≤ 2^32) {pid : Pid}
    (dead : (e.config n).shared.1.runtime.isAlive pid = false) {id : Nat} (spawned : (pid, id) ∈ spawnedAt e n) :
    (pid, id) ∈ leftAt e n := by
  have settled := settled initial n
  rcases List.mem_append.mp ((settled.accounted bound).spawned.mem_iff.mp spawned) with holder | left
  · exact absurd ((settled.addressed bound).valid _ holder) (Bool.eq_false_iff.mp dead)
  · exact left

theorem dead_of_left (initial : e.config 0 = ⟨(.new supervisor pathSupervisors, ()), []⟩) {n : Nat}
    (bound : (e.config n).shared.1.runtime.slab.entries.length ≤ 2^32) {pid : Pid}
    (left : ∀ id, (pid, id) ∈ spawnedAt e n → (pid, id) ∈ leftAt e n) :
    (e.config n).shared.1.runtime.isAlive pid = false := by
  have settled := settled initial n
  have accounted := settled.accounted bound
  apply Bool.eq_false_iff.mpr
  intro alive
  obtain ⟨id, holder⟩ := accounted.valid pid alive
  have here := left id (accounted.spawned.mem_iff.mpr (List.mem_append_left _ holder))
  have numbers := (accounted.spawned.map Prod.snd).nodup_iff.mp (settled.addressed bound).unique
  have distinct := List.nodup_append.mp (List.Nodup.of_map Prod.snd numbers)
  exact distinct.2.2 _ holder _ here rfl

theorem waiter_next {n index : Nat} {pid : Pid} (found : (e.config n).threads[index]? = some (.inr ⟨pid, false⟩)) :
    (e.config (n + 1)).threads[index]? = some (.inr ⟨pid, false⟩) ∨
      ((e.config (n + 1)).threads[index]? = some (.inr ⟨pid, true⟩) ∧
        (e.config n).shared.1.runtime.isAlive pid = false) := by
  rcases e.thread_next found with ⟨input, next, new, -, stepped, after⟩ | same
  · have steps := Program.callerSteps_of_step stepped
    generalize (e.config (n + 1)).shared = later at steps
    generalize shared : (e.config n).shared = now at steps ⊢
    cases steps with
    | @looked w own last caller following given looked =>
      simp only [waiting, Bool.false_eq_true, if_false] at looked
      cases alive : w.runtime.isAlive pid with
      | true =>
        rw [alive, if_pos rfl] at looked
        cases looked
        exact .inl after
      | false =>
        rw [alive, if_neg Bool.false_ne_true] at looked
        cases looked
        exact .inr ⟨after, rfl⟩
    | did looked done => simp [waiting] at looked
  · exact .inl same

theorem waiter_stays {n index : Nat} {pid : Pid} (found : (e.config n).threads[index]? = some (.inr ⟨pid, true⟩)) :
    (e.config (n + 1)).threads[index]? = some (.inr ⟨pid, true⟩) := by
  rcases e.thread_next found with ⟨input, next, new, -, stepped, after⟩ | same
  · cases input <;> simp [Program.withCallers, waiting] at stepped
  · exact same

/-- A call that has returned saw its pid dead on the way. -/
theorem saw_dead {start index : Nat} {pid : Pid} (called : (e.config start).threads[index]? = some (.inr ⟨pid, false⟩))
    {n : Nat} (later : start ≤ n) :
    (e.config n).threads[index]? = some (.inr ⟨pid, false⟩) ∨
      ((e.config n).threads[index]? = some (.inr ⟨pid, true⟩) ∧
        ∃ m, start ≤ m ∧ m ≤ n ∧ (e.config m).shared.1.runtime.isAlive pid = false) := by
  induction n, later using Nat.le_induction with
  | base => exact .inl called
  | succ n later ih =>
    rcases ih with looking | ⟨returned, m, after, before, dead⟩
    · rcases waiter_next looking with still | ⟨returned, dead⟩
      · exact .inl still
      · exact .inr ⟨returned, n, later, Nat.le_succ n, dead⟩
    · exact .inr ⟨waiter_stays returned, m, after, Nat.le_succ_of_le before, dead⟩

theorem waiter_can {index : Nat} {pid : Pid} {c : Config (World × Unit) (Life ⊕ Waiter)}
    (found : c.threads[index]? = some (.inr ⟨pid, false⟩)) : waits.Can index c := by
  refine ⟨.inr (), ?_⟩
  simp [waits, Program.machine, Program.withCallers, found, waiting]

/-- Once its pid is dead for good, the call returns. -/
theorem returns_of_dead (fair : e.Fair) {start index : Nat} {pid : Pid}
    (called : (e.config start).threads[index]? = some (.inr ⟨pid, false⟩)) {quiet : Nat} (later : start ≤ quiet)
    (dead : ∀ n, quiet ≤ n → (e.config n).shared.1.runtime.isAlive pid = false) :
    ∃ n, start ≤ n ∧ (e.config n).threads[index]? = some (.inr ⟨pid, true⟩) := by
  rcases saw_dead called later with looking | ⟨returned, -⟩
  · obtain ⟨n, input, next, new, after, here, stepped, moved⟩ :=
      e.moves_on fair looking fun n _ same => waiter_can same
    have gone := dead n after
    refine ⟨n + 1, by omega, ?_⟩
    rw [moved]
    cases input with
    | inl _ => simp [Program.withCallers] at stepped
    | inr _ =>
      simp only [Program.withCallers, waiting, gone, Bool.false_eq_true, if_false, Option.some.injEq,
        Prod.mk.injEq] at stepped
      rw [← stepped.2.1]
  · exact ⟨quiet, later, returned⟩

def isEnding (id : Nat) (pid : Pid) : Life ⊕ Waiter → Prop
  | .inl (.ending number cleanup) => number = id ∧ cleanup.pid = pid
  | _ => False

def isDone : Life ⊕ Waiter → Prop
  | .inl (.ending _ cleanup) => cleanup.stage = .done
  | _ => False

def remaining : Life ⊕ Waiter → Nat ×ₗ Nat ×ₗ Nat ×ₗ Nat
  | .inl (.ending _ cleanup) => cleanup.measure
  | _ => toLex (0, toLex (0, toLex (0, 0)))

theorem exists_ending {thread : Life ⊕ Waiter} {id : Nat} {pid : Pid} (mine : isEnding id pid thread) :
    ∃ cleanup, thread = .inl (.ending id cleanup) ∧ cleanup.pid = pid := by
  rcases thread with life | waiter
  · cases life with
    | ending number cleanup =>
      obtain ⟨rfl, same⟩ := mine
      exact ⟨cleanup, rfl, same⟩
    | _ => exact mine.elim
  · exact mine.elim

theorem ending_can (initial : e.config 0 = ⟨(.new supervisor pathSupervisors, ()), []⟩) {n index id : Nat}
    {cleanup : Cleanup} (found : (e.config n).threads[index]? = some (.inl (.ending id cleanup)))
    (running : cleanup.stage ≠ .done) : waits.Can index (e.config n) := by
  obtain ⟨moves, run⟩ := run_inside initial n
  have placed := pathsPlaced_of_run run _ (mem_own.mpr (List.mem_of_getElem? found))
  obtain ⟨order, steps⟩ := Cleanup.can placed running
  obtain ⟨⟨rt, next, workers⟩, steps⟩ := Option.isSome_iff_exists.mp steps
  have stepped : cleanup.step (e.config n).shared.1.runtime order = some (rt, next, workers) := steps
  refine ⟨.inl ⟨.receive, .spawned, order⟩, ?_⟩
  simp [waits, Program.machine, Program.withCallers, found, lifecycle, Life.step, stepped]

theorem ending_descends {index : Nat} {shared later : World × Unit} {thread next : Life ⊕ Waiter}
    {input : Fate ⊕ Unit} {new : List (Life ⊕ Waiter)} {id : Nat} {pid : Pid} (mine : isEnding id pid thread)
    (stepped : waits.step index shared thread input = some (later, next, new)) :
    isEnding id pid next ∧ remaining next < remaining thread := by
  obtain ⟨cleanup, rfl, same⟩ := exists_ending mine
  have steps := Program.callerSteps_of_step stepped
  cases steps with
  | program taken =>
    cases Life.steps_of_step taken with
    | cleaned steps => exact ⟨⟨rfl, same⟩, steps.descends⟩

/-- In a fair execution the clean-up of an exited actor comes to its end. -/
theorem cleaned_up (fair : e.Fair) (initial : e.config 0 = ⟨(.new supervisor pathSupervisors, ()), []⟩) {start id : Nat}
    {ending : Cleanup} (member : .inl (.ending id ending) ∈ (e.config start).threads) :
    ∃ n, start ≤ n ∧ (ending.pid, id) ∈ leftAt e n := by
  obtain ⟨index, found⟩ := List.mem_iff_getElem?.mp member
  have wf : WellFounded (InvImage (· < ·) remaining) := InvImage.wf _ wellFounded_lt
  have can : ∀ n thread, start ≤ n → (e.config n).threads[index]? = some thread → isEnding id ending.pid thread →
      ¬ isDone thread → waits.Can index (e.config n) := by
    intro n thread _ here mine running
    obtain ⟨cleanup, rfl, -⟩ := exists_ending mine
    exact ending_can initial here running
  obtain ⟨n, last, later, here, mine, finished⟩ := e.eventually fair wf can
    (fun _ _ _ _ _ _ mine _ stepped => ending_descends mine stepped) found ⟨rfl, rfl⟩
  obtain ⟨cleanup, rfl, same⟩ := exists_ending mine
  have stage : cleanup.stage = .done := finished
  refine ⟨n, later, List.mem_filterMap.mpr ⟨_, mem_own.mpr (List.mem_of_getElem? here), ?_⟩⟩
  simp [Life.left, Cleanup.deallocated, stage, same]

/-- There is a moment from which on all the actors recorded under a pid have left. -/
theorem all_left (fair : e.Fair) (initial : e.config 0 = ⟨(.new supervisor pathSupervisors, ()), []⟩) {start : Nat}
    {pid : Pid} (exits : ∀ id, (pid, id) ∈ spawnedAt e start →
      ∃ n ending, .inl (.ending id ending) ∈ (e.config n).threads ∧ ending.pid = pid) :
    ∃ quiet, start ≤ quiet ∧ ∀ n, quiet ≤ n → ∀ id, (pid, id) ∈ spawnedAt e start → (pid, id) ∈ leftAt e n := by
  have each : ∀ entry ∈ {entry | entry ∈ spawnedAt e start},
      ∀ᶠ n in Filter.atTop, entry.1 = pid → entry ∈ leftAt e n := by
    rintro ⟨other, id⟩ spawned
    by_cases same : other = pid
    · subst same
      obtain ⟨m, ending, member, rfl⟩ := exits id spawned
      obtain ⟨n, -, left⟩ := cleaned_up fair initial member
      exact Filter.eventually_atTop.mpr ⟨n, fun later after _ => (kept e after).1 left⟩
    · exact Filter.Eventually.of_forall fun n mine => absurd mine same
  have together := (Filter.eventually_all_finite (List.finite_toSet (spawnedAt e start))).mpr each
  obtain ⟨quiet, all⟩ := Filter.eventually_atTop.mp together
  refine ⟨max start quiet, Nat.le_max_left _ _, fun n later id spawned => ?_⟩
  exact all n (Nat.le_trans (Nat.le_max_right _ _) later) (pid, id) spawned rfl

end Waiting

/-- What a caller of `wait` can rely on. -/
structure Joins (e : waits.Execution) (start index : Nat) (pid : Pid) : Prop where
  returns : (∃ n, start ≤ n ∧ (e.config n).threads[index]? = some (.inr ⟨pid, true⟩)) ↔
    ∀ id, (pid, id) ∈ (e.config start).shared.1.spawned →
      ∃ n ending, .inl (.ending id ending) ∈ (e.config n).threads ∧ ending.pid = pid
  returned : ∀ n, start ≤ n → (e.config n).threads[index]? = some (.inr ⟨pid, true⟩) →
    ∀ id, (pid, id) ∈ (e.config start).shared.1.spawned →
      Gone (e.config n).shared.1 (Program.inside (e.config n)).threads pid id

/-- In a fair execution a call of `wait` returns just if every actor under its
    pid exits, and it returns only after all of them are gone; the pid must not
    be given out again meanwhile. -/
theorem join_returns_iff {e : waits.Execution} (fair : e.Fair) {supervisor : Supervisor}
    {pathSupervisors : List Supervisor} (initial : e.config 0 = ⟨(.new supervisor pathSupervisors, ()), []⟩)
    (bound : ∀ n, (e.config n).shared.1.runtime.slab.entries.length ≤ 2^32) {start index : Nat} {pid : Pid}
    (called : (e.config start).threads[index]? = some (.inr ⟨pid, false⟩))
    (fresh : ∀ n id, start ≤ n → (pid, id) ∈ (e.config n).shared.1.spawned →
      (pid, id) ∈ (e.config start).shared.1.spawned) : Joins e start index pid := by
  have returned : ∀ n, start ≤ n → (e.config n).threads[index]? = some (.inr ⟨pid, true⟩) →
      ∀ id, (pid, id) ∈ (e.config start).shared.1.spawned →
        Gone (e.config n).shared.1 (Program.inside (e.config n)).threads pid id := by
    intro n later back id spawned
    rcases Waiting.saw_dead called later with looking | ⟨-, m, after, before, dead⟩
    · rw [looking] at back
      cases back
    · have left := Waiting.left_of_dead initial (bound m) dead ((Waiting.kept e after).2 spawned)
      exact ((Waiting.settled initial n).addressed (bound n)).gone_of_left ((Waiting.kept e before).1 left)
  refine ⟨⟨?_, ?_⟩, returned⟩
  · rintro ⟨n, later, back⟩ id spawned
    obtain ⟨ending, member, same, -⟩ := returned n later back id spawned
    exact ⟨n, ending, Waiting.mem_own.mp member, same⟩
  · intro exits
    obtain ⟨quiet, later, left⟩ := Waiting.all_left fair initial exits
    apply Waiting.returns_of_dead fair called later
    intro n after
    apply Waiting.dead_of_left initial (bound n)
    exact fun id spawned => left n after id (fresh n id (Nat.le_trans later after) spawned)

/-- One actor and one call of `wait`, which looks before the actor exits and
    again after the clean-up. -/
def waitAcrossExit : List (Move (Life ⊕ Waiter) (Fate ⊕ Unit) (Operation ⊕ Empty)) :=
  let fate : Fate := ⟨.exit .normal none, .spawned, []⟩
  [.start (.inl .spawning), .step 0 (.inl fate), .start (.inr ⟨makePid 0 1, false⟩), .step 1 (.inr ())] ++
    List.replicate 11 (.step 0 (.inl fate)) ++ [.step 1 (.inr ())]

namespace Waiting

def configAfter (n : Nat) : Config (World × Unit) (Life ⊕ Waiter) :=
  (waits.machine.run ⟨(.new .new [], ()), []⟩ (waitAcrossExit.take n)).getD ⟨(.new .new [], ()), []⟩

def slotsAfter (n : Nat) : Nat := (configAfter n).shared.1.runtime.slab.entries.length

def spawnedAfter (n : Nat) : List (Pid × Nat) := (configAfter n).shared.1.spawned

end Waiting

open Waiting

theorem join_returns_iff_waitAcrossExit :
    ∃ e : waits.Execution, e.Fair ∧ (e.config 16).threads[1]? = some (.inr ⟨makePid 0 1, true⟩) ∧
      Joins e 3 1 (makePid 0 1) := by
  have ends : ∃ d, waits.machine.run ⟨(.new .new [], ()), []⟩ waitAcrossExit = some d ∧
      d.threads[1]? = some (.inr ⟨makePid 0 1, true⟩) ∧
      d.threads[0]? = some (.inl (.ending 0 ⟨makePid 0 1, .normal, none, .done⟩)) ∧ d.threads.length = 2 :=
    waits.machine.exists_of_check (by decide +kernel)
  obtain ⟨d, reached, back, done, two⟩ := ends
  have stuck : ∀ index, ¬ waits.Can index d := by
    rintro index ⟨input, moved⟩
    match index with
    | 0 =>
      rcases input with fate | _
      · simp [waits, Program.machine, Program.withCallers, lifecycle, Life.step, Cleanup.step, done] at moved
      · simp [waits, Program.machine, Program.withCallers, done] at moved
    | 1 => rcases input with _ | _ <;> simp [waits, Program.machine, Program.withCallers, waiting, back] at moved
    | index + 2 =>
      have outside : d.threads[index + 2]? = none := List.getElem?_eq_none (by omega)
      simp [waits, Program.machine, outside] at moved
  have bounded : ∀ n ≤ waitAcrossExit.length, slotsAfter n ≤ 2^32 := by decide +kernel
  have alone : ∀ n ≤ waitAcrossExit.length, spawnedAfter n ⊆ [(makePid 0 1, 0)] := by decide +kernel
  have fair := Program.Execution.ofRun_fair reached stuck
  refine ⟨.ofRun waits reached, fair, ?_, ?_⟩
  · rw [Program.Execution.ofRun_config reached (by decide)]
    exact back
  · have called : (configAfter 3).threads[1]? = some (.inr ⟨makePid 0 1, false⟩) := by decide +kernel
    have known : spawnedAfter 3 = [(makePid 0 1, 0)] := by decide +kernel
    refine join_returns_iff fair rfl ?_ called ?_
    · exact Program.Execution.ofRun_forall reached (Q := fun c => c.shared.1.runtime.slab.entries.length ≤ 2^32) bounded
    · intro n id _ spawned
      show (makePid 0 1, id) ∈ spawnedAfter 3
      rw [known]
      exact Program.Execution.ofRun_forall reached
        (Q := fun c => c.shared.1.spawned ⊆ [(makePid 0 1, 0)]) alone n spawned

end Myrmidon
