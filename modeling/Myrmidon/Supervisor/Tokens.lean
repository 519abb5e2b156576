import Myrmidon.Supervisor.Model
import Myrmidon.Transition.Interleaving

namespace Myrmidon

open Transition

/-- The activities that touch the tables of a supervisor in more than one operation. -/
inductive Activity where
  | notify (call : Notify)
  | task (task : Task)
  | removal (removal : Removal)
  deriving DecidableEq

/-- What an activity is told: the factory's result and the order of a map's iteration. -/
structure Outside where
  result : Except String Pid
  order : List Pid

inductive Registration where
  | addChild (pid : Pid) (spec : ChildSpec)
  | watch (pid : Pid)

def Registration.pid : Registration → Pid
  | .addChild pid _ => pid
  | .watch pid => pid

/-- A supervisor under any number of concurrent calls and restart tasks, at the
    granularity of single operations on its maps and sets. -/
def supervision : Program Supervisor Activity Outside Registration where
  starts
    | .notify call => call.stage = .flag
    | .task _ => false
    | .removal removal => removal.stage = .dropChild
  step _ s activity outside :=
    match activity with
    | .notify call => (call.step s outside.order).map fun (s, call, tasks) => (s, .notify call, tasks.map .task)
    | .task task => (task.step s outside.result).map fun (s, task) => (s, .task task, [])
    | .removal removal => (removal.step s).map fun (s, removal) => (s, .removal removal, [])
  ambient s
    | .addChild pid spec => some (s.addChild pid spec)
    | .watch pid => some (s.watch pid)

inductive Activity.Steps (s : Supervisor) : Activity → Supervisor → Activity → List Activity → Prop where
  | notify {later : Supervisor} {call next : Notify} {tasks : List Task} (steps : call.Steps s later next tasks) :
      Steps s (.notify call) later (.notify next) (tasks.map .task)
  | task {later : Supervisor} {restart next : Task} {result : Except String Pid}
      (stepped : restart.step s result = some (later, next)) : Steps s (.task restart) later (.task next) []
  | removal {later : Supervisor} {call next : Removal} (stepped : call.step s = some (later, next)) :
      Steps s (.removal call) later (.removal next) []

theorem Activity.steps_of_step {index : Nat} {s later : Supervisor} {activity next : Activity} {new : List Activity}
    {outside : Outside} (stepped : supervision.step index s activity outside = some (later, next, new)) :
    activity.Steps s later next new := by
  cases activity with
  | notify call =>
    obtain ⟨⟨s, call, tasks⟩, done, same⟩ := Option.map_eq_some_iff.mp stepped
    cases same
    exact .notify (Notify.steps_of_step done)
  | task restart =>
    obtain ⟨⟨s, restart⟩, done, same⟩ := Option.map_eq_some_iff.mp stepped
    cases same
    exact .task done
  | removal call =>
    obtain ⟨⟨s, call⟩, done, same⟩ := Option.map_eq_some_iff.mp stepped
    cases same
    exact .removal done

def keysOf (children : List (Pid × ChildSpec)) : List Pid := children.map Prod.fst

/-- What is counted of the restarts of one pid: who set its flag, who is going
    to spawn a task for it, which tasks still have it to remove, and all tasks. -/
inductive Aspect where
  | holds
  | pending
  | unremoved
  | started
  deriving DecidableEq

def Notify.weight (pid : Pid) (call : Notify) : Aspect → Nat
  | .holds =>
    match call.stage with
    | .flag | .returned => 0
    | .lookup | .unflag | .snapshot | .spawnOne _ => if call.pid = pid then 1 else 0
    | .flagGroup done _ => if call.pid = pid then 1 else (keysOf done).count pid
    | .spawnGroup todo => (keysOf todo).count pid
  | .pending =>
    match call.stage with
    | .flag | .returned | .lookup | .unflag => 0
    | .snapshot | .spawnOne _ => if call.pid = pid then 1 else 0
    | .flagGroup done _ => if call.pid = pid then 1 else (keysOf done).count pid
    | .spawnGroup todo => (keysOf todo).count pid
  | .unremoved | .started => 0

def Task.removes (task : Task) : Bool :=
  match task.stage with
  | .call | .insertNew _ | .pushError _ | .backoff | .removeOld => true
  | .removeLinks | .retain _ | .clearFlag | .finished => false

def Task.unfinished (task : Task) : Bool :=
  match task.stage with
  | .finished => false
  | _ => true

def Task.weight (pid : Pid) (task : Task) : Aspect → Nat
  | .holds => if task.orig = pid ∧ task.unfinished = true then 1 else 0
  | .pending => 0
  | .unremoved => if task.orig = pid ∧ task.removes = true then 1 else 0
  | .started => if task.orig = pid then 1 else 0

def Activity.weight (pid : Pid) : Activity → Aspect → Nat
  | .notify call => call.weight pid
  | .task restart => restart.weight pid
  | .removal _ => fun _ => 0

def weigh (pid : Pid) (activities : List Activity) (aspect : Aspect) : Nat :=
  Program.total (fun activity => activity.weight pid aspect) activities

/-- Everything one step can do to the restarts of `pid`. -/
inductive Shift (pid : Pid) (old new : Supervisor) (w v : Aspect → Nat) : Prop where
  | keep (same : v = w) (flags : pid ∈ old.restarting → pid ∈ new.restarting)
      (children : pid ∈ new.children → pid ∈ old.children)
      (registered : new.registered.count pid = old.registered.count pid)
  | insert (same : v = w) (flags : new.restarting = old.restarting)
      (registered : new.registered.count pid = old.registered.count pid + 1)
  | flag (free : pid ∉ old.restarting) (flagged : pid ∈ new.restarting) (holds : v .holds = w .holds + 1)
      (others : ∀ aspect, aspect ≠ .holds → v aspect = w aspect)
      (children : new.children = old.children) (registered : new.registered = old.registered)
  | unflag (cleared : pid ∉ new.restarting) (holds : v .holds + 1 = w .holds)
      (others : ∀ aspect, aspect ≠ .holds → v aspect = w aspect)
      (children : new.children = old.children) (registered : new.registered = old.registered)
  | found (held : 0 < w .holds) (idle : w .pending = 0 ∧ w .unremoved = 0) (child : pid ∈ old.children)
      (pending : v .pending = 1) (others : ∀ aspect, aspect ≠ .pending → v aspect = w aspect) (unchanged : new = old)
  | claim (free : pid ∉ old.restarting) (flagged : pid ∈ new.restarting) (child : pid ∈ old.children)
      (holds : v .holds = w .holds + 1) (pending : v .pending = w .pending + 1)
      (unremoved : v .unremoved = w .unremoved) (started : v .started = w .started)
      (children : new.children = old.children) (registered : new.registered = old.registered)
  | spawn (holds : v .holds = w .holds) (pending : v .pending + 1 = w .pending)
      (unremoved : v .unremoved = w .unremoved + 1) (started : v .started = w .started + 1) (unchanged : new = old)
  | remove (unremoved : v .unremoved + 1 = w .unremoved)
      (others : ∀ aspect, aspect ≠ .unremoved → v aspect = w aspect)
      (gone : pid ∉ new.children) (flags : new.restarting = old.restarting)
      (registered : new.registered = old.registered)
  | abandon (holds : v .holds + 1 = w .holds) (pending : v .pending + 1 = w .pending)
      (unremoved : v .unremoved = w .unremoved) (started : v .started = w .started) (unchanged : new = old)

/-- The group that a `RestartAll` has read has every child once. -/
def Notify.Sound (call : Notify) : Prop :=
  match call.stage with
  | .flagGroup done todo => (keysOf (done ++ todo)).Nodup
  | _ => True

/-- A `RestartAll` about to flag another child finds it supervised and not restarting. -/
def Notify.Free (s : Supervisor) (call : Notify) : Prop :=
  match call.stage with
  | .flagGroup _ (child :: _) => child.1 ≠ call.pid → child.1 ∉ s.restarting ∧ child.1 ∈ s.children
  | _ => True

instance (s : Supervisor) (call : Notify) : Decidable (call.Free s) :=
  match call with
  | ⟨pid, .flagGroup _ (child :: _)⟩ =>
    inferInstanceAs (Decidable (child.1 ≠ pid → child.1 ∉ s.restarting ∧ child.1 ∈ s.children))
  | ⟨_, .flagGroup _ []⟩ => .isTrue trivial
  | ⟨_, .flag⟩ => .isTrue trivial
  | ⟨_, .lookup⟩ => .isTrue trivial
  | ⟨_, .unflag⟩ => .isTrue trivial
  | ⟨_, .snapshot⟩ => .isTrue trivial
  | ⟨_, .spawnGroup _⟩ => .isTrue trivial
  | ⟨_, .spawnOne _⟩ => .isTrue trivial
  | ⟨_, .returned⟩ => .isTrue trivial

theorem Shift.refl {pid : Pid} {s : Supervisor} {w v : Aspect → Nat} (same : v = w) : Shift pid s s w v :=
  .keep same id id rfl

theorem mem_flag_of_mem (s : Supervisor) (other : Pid) {pid : Pid} (flagged : pid ∈ s.restarting) :
    pid ∈ (s.flag other).restarting := Finset.mem_insert_of_mem flagged

theorem mem_unflag_of_ne {s : Supervisor} {pid other : Pid} (different : other ≠ pid)
    (flagged : pid ∈ s.restarting) : pid ∈ (s.unflag other).restarting :=
  Finset.mem_erase.mpr ⟨Ne.symm different, flagged⟩

theorem keysOf_append (first second : List (Pid × ChildSpec)) :
    keysOf (first ++ second) = keysOf first ++ keysOf second := List.map_append

def afterwards (pid : Pid) (next : Activity) (new : List Activity) (aspect : Aspect) : Nat :=
  next.weight pid aspect + weigh pid new aspect

theorem afterwards_nil (pid : Pid) (next : Activity) : afterwards pid next [] = next.weight pid := rfl

theorem new_task_weight (pid orig : Pid) (spec : ChildSpec) : (Task.new orig spec).weight pid = fun
    | .holds | .unremoved | .started => if orig = pid then 1 else 0
    | .pending => 0 := by
  funext aspect
  cases aspect with
  | holds => simp [Task.weight, Task.new, Task.unfinished]
  | pending => rfl
  | unremoved => simp [Task.weight, Task.new, Task.removes]
  | started => rfl

namespace Notify

theorem shift_flag (pid own : Pid) {s : Supervisor} (free : own ∉ s.restarting) :
    Shift pid s (s.flag own) (weight pid ⟨own, .flag⟩) (weight pid ⟨own, .lookup⟩) := by
  by_cases same : own = pid
  · subst same
    refine .flag free (Finset.mem_insert_self _ _) ?_ ?_ rfl rfl
    · simp [weight]
    · intro aspect other
      cases aspect <;> first | exact absurd rfl other | rfl
  · refine .keep ?_ (mem_flag_of_mem _ _) id rfl
    funext aspect
    cases aspect <;> simp [weight, same]

theorem shift_unflag (pid own : Pid) (s : Supervisor) :
    Shift pid s (s.unflag own) (weight pid ⟨own, .unflag⟩) (weight pid ⟨own, .returned⟩) := by
  by_cases same : own = pid
  · subst same
    refine .unflag (Finset.notMem_erase _ _) ?_ ?_ rfl rfl
    · simp [weight]
    · intro aspect other
      cases aspect <;> first | exact absurd rfl other | rfl
  · refine .keep ?_ (mem_unflag_of_ne same) id rfl
    funext aspect
    cases aspect <;> simp [weight, same]

theorem shift_found (pid own : Pid) {s : Supervisor} (child : own ∈ s.children) (stage : NotifyStage)
    (answered : weight own ⟨own, stage⟩ .holds = 1 ∧ weight own ⟨own, stage⟩ .pending = 1)
    (alone : ∀ other aspect, own ≠ other → weight other ⟨own, stage⟩ aspect = 0) :
    Shift pid s s (weight pid ⟨own, .lookup⟩) (weight pid ⟨own, stage⟩) := by
  by_cases same : own = pid
  · subst same
    refine .found ?_ ⟨rfl, rfl⟩ child answered.2 ?_ rfl
    · simp [weight]
    · intro aspect other
      cases aspect with
      | holds => rw [answered.1]; simp [weight]
      | pending => exact absurd rfl other
      | unremoved => rfl
      | started => rfl
  · apply Shift.refl
    funext aspect
    rw [alone pid aspect same]
    cases aspect <;> simp [weight, same]

theorem shift_claim (pid own : Pid) {s : Supervisor} {done todo : List (Pid × ChildSpec)} {child : Pid × ChildSpec}
    (free : child.1 ≠ own → child.1 ∉ s.restarting ∧ child.1 ∈ s.children) :
    Shift pid s (s.flag child.1) (weight pid ⟨own, .flagGroup done (child :: todo)⟩)
      (weight pid ⟨own, .flagGroup (done ++ [child]) todo⟩) := by
  have keys : (keysOf (done ++ [child])).count pid = (keysOf done).count pid + if child.1 = pid then 1 else 0 := by
    rw [keysOf_append, List.count_append]
    simp [keysOf, List.count_cons]
  by_cases mine : own = pid
  · refine .keep ?_ (mem_flag_of_mem _ _) id rfl
    funext aspect
    cases aspect <;> simp [weight, mine]
  · by_cases same : child.1 = pid
    · subst same
      obtain ⟨unflagged, supervised⟩ := free (Ne.symm mine)
      rw [if_pos rfl] at keys
      refine .claim unflagged (Finset.mem_insert_self _ _) supervised ?_ ?_ rfl rfl rfl rfl
      · simp [weight, mine, keys]
      · simp [weight, mine, keys]
    · refine .keep ?_ (mem_flag_of_mem _ _) id rfl
      rw [if_neg same] at keys
      funext aspect
      cases aspect <;> simp [weight, mine, keys]

theorem shift_group (pid own : Pid) {s : Supervisor} {done : List (Pid × ChildSpec)} (once : (keysOf done).Nodup) :
    Shift pid s s (weight pid ⟨own, .flagGroup done []⟩) (weight pid ⟨own, .spawnGroup done⟩) := by
  by_cases mine : own = pid
  · subst mine
    by_cases member : own ∈ keysOf done
    · have count : (keysOf done).count own = 1 := List.count_eq_one_of_mem once member
      apply Shift.refl
      funext aspect
      cases aspect <;> simp [weight, count]
    · have count : (keysOf done).count own = 0 := List.count_eq_zero_of_not_mem member
      refine .abandon ?_ ?_ rfl rfl rfl
      · simp [weight, count]
      · simp [weight, count]
  · apply Shift.refl
    funext aspect
    cases aspect <;> simp [weight, mine]

theorem shift_spawn {pid orig : Pid} {s : Supervisor} {spec : ChildSpec} {call next : Notify}
    (passed : ∀ aspect, aspect = .holds ∨ aspect = .pending →
      call.weight pid aspect = next.weight pid aspect + if orig = pid then 1 else 0) :
    Shift pid s s (call.weight pid) (afterwards pid (.notify next) [.task (Task.new orig spec)]) := by
  have weights : ∀ aspect, afterwards pid (.notify next) [.task (Task.new orig spec)] aspect =
      next.weight pid aspect + Task.weight pid (Task.new orig spec) aspect := by
    intro aspect
    simp [afterwards, weigh, Program.total, Activity.weight]
  have holds := passed .holds (.inl rfl)
  have pending := passed .pending (.inr rfl)
  by_cases same : orig = pid
  · rw [if_pos same] at holds pending
    refine .spawn ?_ ?_ ?_ ?_ rfl
    · rw [weights, new_task_weight, holds, same, if_pos rfl]
    · rw [weights, new_task_weight, pending]
      rfl
    · rw [weights, new_task_weight, same, if_pos rfl]
      rfl
    · rw [weights, new_task_weight, same, if_pos rfl]
      rfl
  · rw [if_neg same] at holds pending
    apply Shift.refl
    funext aspect
    rw [weights, new_task_weight]
    cases aspect with
    | holds => rw [holds, if_neg same]
    | pending => rw [pending]
    | unremoved => rw [if_neg same]; rfl
    | started => rw [if_neg same]; rfl

theorem step_shift (pid : Pid) {s later : Supervisor} {call next : Notify} {tasks : List Task} (sound : call.Sound)
    (free : call.Free s) (steps : Steps s call later next tasks) :
    Shift pid s later (call.weight pid) (afterwards pid (.notify next) (tasks.map .task)) := by
  cases steps with
  | ignored busy => exact .refl rfl
  | flagged unflagged => exact shift_flag pid _ unflagged
  | unknown absent =>
    apply Shift.refl
    funext aspect
    cases aspect <;> rfl
  | @foundAll own spec found all =>
    have child : own ∈ s.children := AList.lookup_isSome.mp (by rw [found]; rfl)
    apply shift_found pid own child .snapshot (by simp [weight])
    intro other aspect different
    cases aspect <;> simp [weight, different]
  | @foundOne own spec found one =>
    have child : own ∈ s.children := AList.lookup_isSome.mp (by rw [found]; rfl)
    apply shift_found pid own child (.spawnOne spec) (by simp [weight])
    intro other aspect different
    cases aspect <;> simp [weight, different]
  | unflagged => exact shift_unflag pid _ s
  | read whole =>
    apply Shift.refl
    funext aspect
    cases aspect <;> simp [afterwards_nil, Activity.weight, weight, keysOf]
  | claimed => exact shift_claim pid _ free
  | @marked own done =>
    have once : (keysOf (done ++ [])).Nodup := sound
    rw [List.append_nil] at once
    exact shift_group pid own once
  | spawned =>
    apply shift_spawn
    rintro aspect (rfl | rfl) <;> simp [weight, keysOf, List.count_cons]
  | spawnedAll =>
    apply Shift.refl
    funext aspect
    cases aspect <;> rfl
  | spawnedOne =>
    apply shift_spawn
    rintro aspect (rfl | rfl) <;> simp [weight]

end Notify

theorem Shift.untouched {pid : Pid} {old new : Supervisor} {w v : Aspect → Nat} (same : v = w)
    (children : new.children = old.children) (flags : new.restarting = old.restarting)
    (registered : new.registered = old.registered) : Shift pid old new w v := by
  refine .keep same ?_ ?_ ?_
  · rw [flags]
    exact id
  · rw [children]
    exact id
  · rw [registered]

theorem Shift.addChild (pid other : Pid) {s : Supervisor} (spec : ChildSpec) {w v : Aspect → Nat} (same : v = w) :
    Shift pid s (s.addChild other spec) w v := by
  by_cases mine : other = pid
  · exact .insert same rfl (by rw [Supervisor.addChild, mine, List.count_cons_self])
  · refine .keep same id ?_ (List.count_cons_of_ne mine)
    intro member
    rcases AList.mem_insert _ |>.mp member with rfl | member
    · exact absurd rfl mine
    · exact member

theorem Shift.dropChild {pid other : Pid} {s : Supervisor} {w v : Aspect → Nat} (same : v = w) :
    Shift pid s (s.dropChild other) w v :=
  .keep same id (fun member => (AList.mem_erase.mp member).2) rfl

theorem Shift.registered_le {pid : Pid} {old new : Supervisor} {w v : Aspect → Nat} (shift : Shift pid old new w v) :
    old.registered.count pid ≤ new.registered.count pid := by
  cases shift with
  | keep same flags children registered => rw [registered]
  | insert same flags registered => rw [registered]; exact Nat.le_succ _
  | flag free set holds others children registered => rw [registered]
  | unflag cleared holds others children registered => rw [registered]
  | found held idle child pending others unchanged => rw [unchanged]
  | claim free set child holds pending unremoved started children registered => rw [registered]
  | spawn holds pending unremoved started unchanged => rw [unchanged]
  | remove unremoved others gone flags registered => rw [registered]
  | abandon holds pending unremoved started unchanged => rw [unchanged]

theorem Task.weight_eq (pid : Pid) {first second : Task} (orig : first.orig = second.orig)
    (unfinished : first.unfinished = second.unfinished) (removes : first.removes = second.removes) :
    first.weight pid = second.weight pid := by
  funext aspect
  cases aspect <;> simp only [Task.weight, orig, unfinished, removes]

theorem Task.step_shift (pid : Pid) {s later : Supervisor} {task next : Task} {result : Except String Pid}
    (stepped : task.step s result = some (later, next)) : Shift pid s later (task.weight pid) (next.weight pid) := by
  obtain ⟨orig, spec, attempts, backoffMs, replacement, stage⟩ := task
  cases steps_of_step stepped with
  | answered now answer => cases now; exact .refl (weight_eq pid rfl rfl rfl)
  | refused now => cases now; exact .refl (weight_eq pid rfl rfl rfl)
  | @inserted new now => cases now; exact .addChild pid new spec (weight_eq pid rfl rfl rfl)
  | gaveUp now last => cases now; exact .untouched (weight_eq pid rfl rfl rfl) rfl rfl rfl
  | failed now more => cases now; exact .untouched (weight_eq pid rfl rfl rfl) rfl rfl rfl
  | waited now => cases now; exact .refl (weight_eq pid rfl rfl rfl)
  | removed now =>
    cases now
    by_cases same : orig = pid
    · subst same
      refine .remove ?_ ?_ (fun member => (AList.mem_erase.mp member).1 rfl) rfl rfl
      · simp [Task.weight, Task.removes]
      · intro aspect other
        cases aspect <;> first | exact absurd rfl other | rfl
    · apply Shift.dropChild
      funext aspect
      cases aspect <;> simp [Task.weight, same]
  | tookLinks now => cases now; exact .untouched (weight_eq pid rfl rfl rfl) rfl rfl rfl
  | forgot now =>
    cases now
    exact .untouched (weight_eq pid rfl rfl rfl) (s.forget_children _ _) (s.forget_restarting _ _)
      (s.forget_registered _ _)
  | forgotAll now => cases now; exact .refl (weight_eq pid rfl rfl rfl)
  | cleared now =>
    cases now
    by_cases same : orig = pid
    · subst same
      refine .unflag (Finset.notMem_erase _ _) ?_ ?_ rfl rfl
      · simp [Task.weight, Task.unfinished]
      · intro aspect other
        cases aspect <;> first | exact absurd rfl other | rfl
    · refine .keep ?_ (mem_unflag_of_ne same) id rfl
      funext aspect
      cases aspect <;> simp [Task.weight, same]

theorem Removal.step_shift (pid : Pid) {s later : Supervisor} {removal next : Removal}
    (idle : removal.stage = .unflag → removal.pid ∉ s.restarting) (stepped : removal.step s = some (later, next))
    (w : Aspect → Nat) : Shift pid s later w w := by
  cases steps_of_step stepped with
  | dropped stage => exact .dropChild rfl
  | cleared stage =>
    refine .keep rfl ?_ id rfl
    intro flagged
    apply mem_unflag_of_ne _ flagged
    rintro rfl
    exact idle stage flagged
  | tookLinks stage => exact .untouched rfl rfl rfl rfl
  | forgot stage =>
    exact .untouched rfl (s.forget_children _ _) (s.forget_restarting _ _) (s.forget_registered _ _)
  | forgotAll stage => exact .refl rfl

end Myrmidon
