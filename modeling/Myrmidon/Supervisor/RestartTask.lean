import Myrmidon.Supervisor.Links

namespace Myrmidon

open Transition

/-- What the factory of the spec answers to its calls, the first being call 0. -/
def ChildSpec.answers (spec : ChildSpec) (results : Nat → Except String Pid) (call : Nat) : Except String Pid :=
  spec.factory.call (results call)

def FirstOk (answers : Nat → Except String Pid) (call : Nat) (pid : Pid) : Prop :=
  answers call = .ok pid ∧ ∀ earlier < call, ∃ error, answers earlier = .error error

/-- No attempt within the limit succeeds. -/
def Refused (answers : Nat → Except String Pid) : Prop :=
  ∀ call < Task.maxAttempts, ∃ error, answers call = .error error

def errorOf : Except String Pid → Option String
  | .ok _ => none
  | .error error => some error

def refusals (answers : Nat → Except String Pid) (calls : Nat) : List String :=
  (List.range calls).filterMap fun call => errorOf (answers call)

namespace Task

/-- A restart task that nothing interrupts, with what its factory returns. -/
def alone (results : Nat → Except String Pid) : Machine (Supervisor × Task) Unit where
  step c _ := c.2.step c.1 (results c.2.attempts)

def callsFactory (c : Supervisor × Task) (_ : Unit) : Nat :=
  match c.2.stage with
  | .call => 1
  | _ => 0

def child (task : Task) : Pid × ChildSpec := (task.orig, task.spec)

theorem step_child {s later : Supervisor} {task next : Task} {result : Except String Pid}
    (stepped : task.step s result = some (later, next)) : next.child = task.child := by
  cases steps_of_step stepped <;> rfl

theorem step_attempts {s later : Supervisor} {task next : Task} {result : Except String Pid}
    (stepped : task.step s result = some (later, next)) :
    next.attempts = task.attempts + callsFactory (s, task) () := by
  obtain ⟨orig, spec, attempts, backoffMs, replacement, stage⟩ := task
  cases steps_of_step stepped with
  | _ now => cases now; rfl

theorem attempts_eq_calls {results : Nat → Except String Pid} {s t : Supervisor} {task last : Task} {labels : List Unit}
    (reached : (alone results).run (s, task) labels = some (t, last)) :
    last.attempts = task.attempts + (alone results).tally callsFactory (s, task) labels := by
  refine (alone results).run_tally_of_meets (P := fun n c => c.2.attempts = n) callsFactory ?_ rfl
    ((alone results).meets_true (s, task) labels) reached
  intro n c label d counted _ stepped
  rw [step_attempts stepped, counted]

/-- The task, run alone, comes to this end. -/
def Ends (results : Nat → Except String Pid) (s : Supervisor) (task : Task) (t : Supervisor) (last : Task) : Prop :=
  ∃ steps, (alone results).run (s, task) (List.replicate steps ()) = some (t, last)

section Ends

variable {results : Nat → Except String Pid} {s middle t : Supervisor} {task next last : Task}

theorem Ends.refl : Ends results s task s task := ⟨0, rfl⟩

theorem Ends.back (stepped : task.step s (results task.attempts) = some (middle, next))
    (ends : Ends results middle next t last) : Ends results s task t last := by
  obtain ⟨steps, reached⟩ := ends
  refine ⟨steps + 1, ?_⟩
  rw [List.replicate_succ, Machine.run_cons]
  exact (congrArg (fun c => c.bind fun d => (alone results).run d (List.replicate steps ())) stepped).trans reached

end Ends

variable {results : Nat → Except String Pid} (s : Supervisor) (orig : Pid) (spec : ChildSpec)
  (attempts backoffMs : Nat) (replacement : Option Pid)

/-- The common end of both paths, as one update. -/
def finish : Supervisor := ((s.dropChild orig).cleanupLinksInternal orig).unflag orig

theorem ends_retain (peers : List Pid) : Ends results s ⟨orig, spec, attempts, backoffMs, replacement, .retain peers⟩
    ((s.forgetAll orig peers).unflag orig) ⟨orig, spec, attempts, backoffMs, replacement, .finished⟩ := by
  induction peers generalizing s with
  | nil => exact .back rfl (.back rfl .refl)
  | cons peer peers ih => exact .back rfl (ih (s.forget peer orig))

theorem ends_removeOld : Ends results s ⟨orig, spec, attempts, backoffMs, replacement, .removeOld⟩
    (finish s orig) ⟨orig, spec, attempts, backoffMs, replacement, .finished⟩ :=
  .back rfl (.back rfl (ends_retain _ orig spec attempts backoffMs replacement _))

theorem ends_call_ok {q : Pid} (answered : spec.answers results attempts = .ok q) :
    Ends results s ⟨orig, spec, attempts, backoffMs, replacement, .call⟩
      (finish (s.addChild q spec) orig) ⟨orig, spec, attempts + 1, backoffMs, some q, .finished⟩ := by
  have inserts : Ends results s ⟨orig, spec, attempts + 1, backoffMs, some q, .insertNew q⟩
      (finish (s.addChild q spec) orig) ⟨orig, spec, attempts + 1, backoffMs, some q, .finished⟩ :=
    .back rfl (ends_removeOld _ orig spec (attempts + 1) backoffMs (some q))
  refine .back ?_ inserts
  have returned : spec.factory.call (results attempts) = .ok q := answered
  simp only [step, returned]

theorem ends_call_last {error : String} (failed : spec.answers results attempts = .error error)
    (last : maxAttempts ≤ attempts + 1) : Ends results s ⟨orig, spec, attempts, backoffMs, replacement, .call⟩
      (finish (s.pushError error) orig) ⟨orig, spec, attempts + 1, backoffMs, replacement, .finished⟩ := by
  have pushes : Ends results s ⟨orig, spec, attempts + 1, backoffMs, replacement, .pushError error⟩
      (finish (s.pushError error) orig) ⟨orig, spec, attempts + 1, backoffMs, replacement, .finished⟩ := by
    refine .back ?_ (ends_removeOld _ orig spec (attempts + 1) backoffMs replacement)
    simp only [step, if_pos last]
  refine .back ?_ pushes
  have returned : spec.factory.call (results attempts) = .error error := failed
  simp only [step, returned]

theorem ends_call_more {error : String} {t : Supervisor} {final : Task}
    (failed : spec.answers results attempts = .error error) (more : ¬ maxAttempts ≤ attempts + 1)
    (ends : Ends results (s.pushError error)
      ⟨orig, spec, attempts + 1, min (backoffMs * 2) (2^64 - 1), replacement, .call⟩ t final) :
    Ends results s ⟨orig, spec, attempts, backoffMs, replacement, .call⟩ t final := by
  have waits : Ends results (s.pushError error) ⟨orig, spec, attempts + 1, backoffMs, replacement, .backoff⟩ t final :=
    .back rfl ends
  have pushes : Ends results s ⟨orig, spec, attempts + 1, backoffMs, replacement, .pushError error⟩ t final := by
    refine .back ?_ waits
    simp only [step, if_neg more]
  refine .back ?_ pushes
  have returned : spec.factory.call (results attempts) = .error error := failed
  simp only [step, returned]

theorem ends_of_call (left : Nat) : ∀ s attempts backoffMs, maxAttempts ≤ attempts + left →
    ∃ t last, Ends results s ⟨orig, spec, attempts, backoffMs, replacement, .call⟩ t last ∧ last.stage = .finished := by
  induction left with
  | zero =>
    intro s attempts backoffMs room
    cases answer : spec.answers results attempts with
    | ok q => exact ⟨_, _, ends_call_ok s orig spec attempts backoffMs replacement answer, rfl⟩
    | error error =>
      exact ⟨_, _, ends_call_last s orig spec attempts backoffMs replacement answer (by omega), rfl⟩
  | succ left ih =>
    intro s attempts backoffMs room
    cases answer : spec.answers results attempts with
    | ok q => exact ⟨_, _, ends_call_ok s orig spec attempts backoffMs replacement answer, rfl⟩
    | error error =>
      by_cases last : maxAttempts ≤ attempts + 1
      · exact ⟨_, _, ends_call_last s orig spec attempts backoffMs replacement answer last, rfl⟩
      · obtain ⟨t, final, ends, finished⟩ :=
          ih (s.pushError error) (attempts + 1) (min (backoffMs * 2) (2^64 - 1)) (by omega)
        exact ⟨t, final, ends_call_more s orig spec attempts backoffMs replacement answer last ends, finished⟩

/-- Wherever a task stands, it comes to an end when it is left alone. -/
theorem ends (results : Nat → Except String Pid) (s : Supervisor) (task : Task) :
    ∃ t last, Ends results s task t last ∧ last.stage = .finished := by
  obtain ⟨orig, spec, attempts, backoffMs, replacement, stage⟩ := task
  have called : ∀ s attempts backoffMs, ∃ t last,
      Ends results s ⟨orig, spec, attempts, backoffMs, replacement, .call⟩ t last ∧ last.stage = .finished :=
    fun s attempts backoffMs =>
      ends_of_call orig spec replacement maxAttempts s attempts backoffMs (Nat.le_add_left _ _)
  cases stage with
  | call => exact called s attempts backoffMs
  | backoff =>
    obtain ⟨t, last, ends, finished⟩ := called s attempts (min (backoffMs * 2) (2^64 - 1))
    exact ⟨t, last, .back rfl ends, finished⟩
  | pushError error =>
    by_cases last : maxAttempts ≤ attempts
    · refine ⟨_, _, .back ?_ (ends_removeOld (s.pushError error) orig spec attempts backoffMs replacement), rfl⟩
      simp only [step, if_pos last]
    · obtain ⟨t, final, ends, finished⟩ := called (s.pushError error) attempts (min (backoffMs * 2) (2^64 - 1))
      have waits : Ends results (s.pushError error) ⟨orig, spec, attempts, backoffMs, replacement, .backoff⟩ t final :=
        .back rfl ends
      refine ⟨t, final, .back ?_ waits, finished⟩
      simp only [step, if_neg last]
  | insertNew q => exact ⟨_, _, .back rfl (ends_removeOld _ orig spec attempts backoffMs replacement), rfl⟩
  | removeOld => exact ⟨_, _, ends_removeOld s orig spec attempts backoffMs replacement, rfl⟩
  | removeLinks => exact ⟨_, _, .back rfl (ends_retain _ orig spec attempts backoffMs replacement _), rfl⟩
  | retain peers => exact ⟨_, _, ends_retain s orig spec attempts backoffMs replacement peers, rfl⟩
  | clearFlag => exact ⟨_, _, .back rfl .refl, rfl⟩
  | finished => exact ⟨_, _, .refl, rfl⟩

end Task

theorem refusals_succ_error {answers : Nat → Except String Pid} {call : Nat} {error : String}
    (failed : answers call = .error error) : refusals answers (call + 1) = refusals answers call ++ [error] := by
  simp [refusals, List.range_succ, failed, errorOf]

theorem refusals_succ_ok {answers : Nat → Except String Pid} {call : Nat} {pid : Pid}
    (answered : answers call = .ok pid) :
    refusals answers (call + 1) = refusals answers call := by
  simp [refusals, List.range_succ, answered, errorOf]

def Supervisor.pushErrors (s : Supervisor) (errors : List String) : Supervisor :=
  { s with errors := s.errors ++ errors }

theorem Supervisor.pushErrors_pushError (s : Supervisor) (errors : List String) (error : String) :
    (s.pushErrors errors).pushError error = s.pushErrors (errors ++ [error]) := by
  simp [pushErrors, pushError]

/-- Both ends of the loop, with the number of calls that it took. -/
inductive Task.Result (s : Supervisor) (orig : Pid) (spec : ChildSpec) (answers : Nat → Except String Pid) :
    Nat → Supervisor → Prop where
  | replaced {call : Nat} {q : Pid} (first : FirstOk answers call q) (within : call < maxAttempts) :
      Result s orig spec answers (call + 1)
        (finish ((s.pushErrors (refusals answers (call + 1))).addChild q spec) orig)
  | refused (all : Refused answers) :
      Result s orig spec answers maxAttempts (finish (s.pushErrors (refusals answers maxAttempts)) orig)

theorem fails_succ {answers : Nat → Except String Pid} {attempts : Nat} {error : String}
    (earlier : ∀ call < attempts, ∃ error, answers call = .error error) (failed : answers attempts = .error error) :
    ∀ call < attempts + 1, ∃ error, answers call = .error error := by
  intro call early
  rcases Nat.lt_succ_iff_lt_or_eq.mp early with early | rfl
  · exact earlier call early
  · exact ⟨error, failed⟩

theorem Task.ends_answered {results : Nat → Except String Pid} (s : Supervisor) (orig : Pid) {spec : ChildSpec}
    {attempts : Nat} (backoffMs : Nat) {q : Pid} (within : attempts < maxAttempts)
    (earlier : ∀ call < attempts, ∃ error, spec.answers results call = .error error)
    (answer : spec.answers results attempts = .ok q) :
    ∃ t last, Ends results (s.pushErrors (refusals (spec.answers results) attempts))
        ⟨orig, spec, attempts, backoffMs, none, .call⟩ t last ∧
      last.stage = .finished ∧ Result s orig spec (spec.answers results) last.attempts t := by
  rw [← refusals_succ_ok answer]
  exact ⟨_, _, ends_call_ok _ orig spec attempts backoffMs none answer, rfl, .replaced ⟨answer, earlier⟩ within⟩

/-- The retry loop: by induction on the attempts that are left. -/
theorem Task.ends_call (results : Nat → Except String Pid) (s : Supervisor) (orig : Pid) (spec : ChildSpec)
    (left : Nat) : ∀ attempts backoffMs, attempts + left + 1 = maxAttempts →
      (∀ earlier < attempts, ∃ error, spec.answers results earlier = .error error) →
      ∃ t last, Ends results (s.pushErrors (refusals (spec.answers results) attempts))
          ⟨orig, spec, attempts, backoffMs, none, .call⟩ t last ∧
        last.stage = .finished ∧ Result s orig spec (spec.answers results) last.attempts t := by
  induction left with
  | zero =>
    intro attempts backoffMs room earlier
    cases answer : spec.answers results attempts with
    | ok q => exact ends_answered s orig backoffMs (by omega) earlier answer
    | error error =>
      refine ⟨_, _, ends_call_last _ orig spec attempts backoffMs none answer (by omega), rfl, ?_⟩
      have last : attempts + 1 = maxAttempts := room
      rw [Supervisor.pushErrors_pushError, ← refusals_succ_error answer]
      dsimp only
      rw [last]
      apply Result.refused
      intro call within
      exact fails_succ earlier answer call (last ▸ within)
  | succ left ih =>
    intro attempts backoffMs room earlier
    cases answer : spec.answers results attempts with
    | ok q => exact ends_answered s orig backoffMs (by omega) earlier answer
    | error error =>
      obtain ⟨t, last, ends, finished, result⟩ :=
        ih (attempts + 1) (min (backoffMs * 2) (2^64 - 1)) (by omega) (fails_succ earlier answer)
      rw [refusals_succ_error answer, ← Supervisor.pushErrors_pushError] at ends
      exact ⟨t, last, ends_call_more _ orig spec attempts backoffMs none answer (by omega) ends, finished, result⟩

theorem Task.ends_new (results : Nat → Except String Pid) (s : Supervisor) (orig : Pid) (spec : ChildSpec) :
    ∃ t last, Ends results s (.new orig spec) t last ∧ last.stage = .finished ∧
      Result s orig spec (spec.answers results) last.attempts t := by
  have nothing : s.pushErrors (refusals (spec.answers results) 0) = s := by
    simp [Supervisor.pushErrors, refusals]
  have ends := ends_call results s orig spec 2 0 100 rfl (by simp)
  rwa [nothing] at ends

theorem FirstOk.unique {answers : Nat → Except String Pid} {first second : Nat} {p q : Pid}
    (one : FirstOk answers first p) (two : FirstOk answers second q) : first = second ∧ p = q := by
  have later : ∀ {a b : Nat} {p q : Pid}, FirstOk answers a p → FirstOk answers b q → ¬ a < b := by
    intro a b p q early late before
    obtain ⟨error, failed⟩ := late.2 a before
    rw [early.1] at failed
    cases failed
  have same : first = second := Nat.le_antisymm (Nat.le_of_not_lt (later two one)) (Nat.le_of_not_lt (later one two))
  subst same
  exact ⟨rfl, Except.ok.inj (one.1.symm.trans two.1)⟩

theorem Refused.not_firstOk {answers : Nat → Except String Pid} (all : Refused answers) {call : Nat} {q : Pid}
    (first : FirstOk answers call q) : ¬ call < Task.maxAttempts := by
  intro within
  obtain ⟨error, failed⟩ := all call within
  rw [first.1] at failed
  cases failed

/-- What a restart task owes: `calls` counts the calls of the factory, which
    are numbered from 0. -/
structure Restarted (s t : Supervisor) (pid : Pid) (spec : ChildSpec) (answers : Nat → Except String Pid)
    (calls : Nat) : Prop where
  called : ∀ call q, FirstOk answers call q → calls = min 3 (call + 1)
  exhausted : Refused answers → calls = 3
  errors : t.errors = s.errors ++ refusals answers calls
  unflagged : pid ∉ t.restarting
  forgotten : t.Forgets pid
  replaced : ∀ call q, FirstOk answers call q → call < 3 → q ≠ pid → ∀ other, t.children.lookup other =
    if other = q then some spec else if other = pid then none else s.children.lookup other
  dropped : Refused answers → ∀ other, t.children.lookup other = if other = pid then none else s.children.lookup other
  otherFlags : ∀ other ≠ pid, (other ∈ t.restarting ↔ other ∈ s.restarting)
  otherLinks : ∀ other ≠ pid, t.links.lookup other = (s.links.lookup other).map fun pids => pids.filter (· ≠ pid)

theorem Supervisor.lookup_addChild (s : Supervisor) (pid other : Pid) (spec : ChildSpec) :
    (s.addChild pid spec).children.lookup other = if other = pid then some spec else s.children.lookup other := by
  by_cases same : other = pid
  · rw [same, addChild, AList.lookup_insert, if_pos rfl]
  · rw [addChild, AList.lookup_insert_ne same, if_neg same]

theorem Supervisor.lookup_dropChild (s : Supervisor) (pid other : Pid) :
    (s.dropChild pid).children.lookup other = if other = pid then none else s.children.lookup other := by
  by_cases same : other = pid
  · rw [same, dropChild, AList.lookup_erase, if_pos rfl]
  · rw [dropChild, AList.lookup_erase_ne same, if_neg same]

namespace Task

variable {s : Supervisor} {pid : Pid}

theorem finish_children (s : Supervisor) (pid other : Pid) :
    (finish s pid).children.lookup other = if other = pid then none else s.children.lookup other := by
  have kept : (finish s pid).children = (s.dropChild pid).children := Supervisor.forgetAll_children _ _ _
  rw [kept, Supervisor.lookup_dropChild]

theorem finish_restarting (s : Supervisor) (pid : Pid) : (finish s pid).restarting = s.restarting.erase pid := by
  have kept : ((s.dropChild pid).cleanupLinksInternal pid).restarting = s.restarting :=
    Supervisor.forgetAll_restarting _ _ _
  exact congrArg (Finset.erase · pid) kept

theorem finish_errors (s : Supervisor) (pid : Pid) : (finish s pid).errors = s.errors :=
  Supervisor.forgetAll_errors _ _ _

theorem finish_forgets (symmetric : s.Symmetric) (pid : Pid) : (finish s pid).Forgets pid := by
  have dropped : (s.dropChild pid).Symmetric := symmetric
  exact dropped.cleanup_forgets pid

theorem finish_links (symmetric : s.Symmetric) {pid other : Pid} (apart : other ≠ pid) :
    (finish s pid).links.lookup other = (s.links.lookup other).map fun pids => pids.filter (· ≠ pid) := by
  have dropped : (s.dropChild pid).Symmetric := symmetric
  exact (dropped.lookup_cleanup pid other).trans (if_neg apart)

theorem unflagged_finish (s : Supervisor) (pid : Pid) : pid ∉ (finish s pid).restarting := by
  rw [finish_restarting]
  exact Finset.notMem_erase pid _

theorem otherFlags_finish (s : Supervisor) {pid other : Pid} (apart : other ≠ pid) :
    other ∈ (finish s pid).restarting ↔ other ∈ s.restarting := by
  rw [finish_restarting, Finset.mem_erase, and_iff_right apart]

theorem Result.restarted {t : Supervisor} {spec : ChildSpec} {answers : Nat → Except String Pid} {calls : Nat}
    (symmetric : s.Symmetric) (result : Result s pid spec answers calls t) : Restarted s t pid spec answers calls := by
  cases result with
  | @replaced call q first within =>
    have linked : ((s.pushErrors (refusals answers (call + 1))).addChild q spec).Symmetric := symmetric
    refine ⟨?_, ?_, finish_errors _ pid, unflagged_finish _ pid, finish_forgets linked pid, ?_, ?_,
      fun other apart => otherFlags_finish _ apart, fun other apart => finish_links linked apart⟩
    · intro other p also
      have bound : call < 3 := within
      have same := (first.unique also).1
      omega
    · intro all
      exact absurd within (all.not_firstOk first)
    · intro other p also _ apart key
      obtain ⟨-, rfl⟩ := first.unique also
      rw [finish_children, Supervisor.lookup_addChild]
      by_cases mine : key = pid
      · rw [if_pos mine, if_neg (mine ▸ Ne.symm apart), if_pos mine]
      · rw [if_neg mine, if_neg mine]
        rfl
    · intro all
      exact absurd within (all.not_firstOk first)
  | refused all =>
    have linked : (s.pushErrors (refusals answers maxAttempts)).Symmetric := symmetric
    refine ⟨?_, fun _ => rfl, finish_errors _ pid, unflagged_finish _ pid, finish_forgets linked pid, ?_, ?_,
      fun other apart => otherFlags_finish _ apart, fun other apart => finish_links linked apart⟩
    · intro call q first
      have late : ¬ call < 3 := all.not_firstOk first
      rw [maxAttempts]
      omega
    · intro call q first within
      exact absurd within (all.not_firstOk first)
    · intro _ other
      exact finish_children _ pid other

end Task

theorem restart_task_ends {s : Supervisor} (symmetric : s.Symmetric) (pid : Pid) (spec : ChildSpec)
    (results : Nat → Except String Pid) : ∃ steps t last,
      (Task.alone results).run (s, .new pid spec) (List.replicate steps ()) = some (t, last) ∧ last.stage = .finished ∧
      Restarted s t pid spec (spec.answers results)
        ((Task.alone results).tally Task.callsFactory (s, .new pid spec) (List.replicate steps ())) := by
  obtain ⟨t, last, ⟨steps, reached⟩, finished, result⟩ := Task.ends_new results s pid spec
  have counted := Task.attempts_eq_calls reached
  have fresh : (Task.new pid spec).attempts = 0 := rfl
  rw [fresh, Nat.zero_add] at counted
  refine ⟨steps, t, last, reached, finished, ?_⟩
  rw [← counted]
  exact result.restarted symmetric

end Myrmidon
