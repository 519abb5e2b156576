import Myrmidon.Supervisor.RestartTask
import Myrmidon.Supervisor.Tokens

namespace Myrmidon

open Transition

/-- The next step of the activity writes to the entry of `q`. -/
def Activity.writes (q : Pid) : Activity → Bool
  | .notify _ => false
  | .task restart =>
    match restart.stage with
    | .insertNew pid => decide (pid = q)
    | .removeOld => decide (restart.orig = q)
    | _ => false
  | .removal call =>
    match call.stage with
    | .dropChild => decide (call.pid = q)
    | _ => false

/-- Nobody but the task at `index` removes or registers `q`. -/
def Spares (index : Nat) (q : Pid) (c : Config Supervisor Activity) : Move Activity Outside Registration → Prop
  | .start _ => True
  | .step other _ => other = index ∨ ∀ activity ∈ c.threads[other]?, activity.writes q = false
  | .ambient registration => registration.pid ≠ q

/-- What the task has done to the entry of `q`. -/
def Task.Keeps (q : Pid) (s : Supervisor) (task : Task) : Prop :=
  match task.stage with
  | .call | .backoff | .pushError _ => task.replacement = none
  | .insertNew pid => task.replacement = some pid
  | .removeOld => task.replacement = some q → s.children.lookup q = some task.spec
  | _ => task.replacement = some q → s.children.lookup q = if q = task.orig then none else some task.spec

section

variable {q : Pid} {s later : Supervisor} {task next : Task}

theorem Task.Keeps.frame (keeps : task.Keeps q s) (same : later.children.lookup q = s.children.lookup q) :
    task.Keeps q later := by
  obtain ⟨orig, spec, attempts, backoffMs, replacement, stage⟩ := task
  cases stage with
  | call | backoff | pushError _ | insertNew _ => exact keeps
  | _ => exact fun mine => same.trans (keeps mine)

theorem Task.Keeps.step (keeps : task.Keeps q s) (steps : task.Steps s later next) : next.Keeps q later := by
  obtain ⟨orig, spec, attempts, backoffMs, replacement, stage⟩ := task
  cases steps with
  | answered now answer => exact rfl
  | refused now | waited now =>
    cases now
    exact keeps
  | @inserted pid now =>
    cases now
    intro mine
    have same : q = pid := Option.some.inj (mine.symm.trans keeps)
    rw [Supervisor.lookup_addChild, if_pos same]
  | gaveUp now last =>
    cases now
    intro mine
    cases keeps.symm.trans mine
  | failed now more =>
    cases now
    exact keeps
  | removed now =>
    cases now
    intro mine
    rw [Supervisor.lookup_dropChild, keeps mine]
  | @forgot peer peers now =>
    cases now
    intro mine
    rw [Supervisor.forget_children]
    exact keeps mine
  | tookLinks now | forgotAll now | cleared now =>
    cases now
    exact keeps

theorem Activity.step_spared {activity following : Activity} {new : List Activity}
    (spared : activity.writes q = false) (steps : activity.Steps s later following new) :
    later.children.lookup q = s.children.lookup q := by
  cases steps with
  | notify steps => cases steps <;> rfl
  | task stepped =>
    cases Task.steps_of_step stepped with
    | inserted now =>
      simp only [Activity.writes, now, decide_eq_false_iff_not] at spared
      rw [Supervisor.lookup_addChild, if_neg (Ne.symm spared)]
    | removed now =>
      simp only [Activity.writes, now, decide_eq_false_iff_not] at spared
      rw [Supervisor.lookup_dropChild, if_neg (Ne.symm spared)]
    | forgot now => rw [Supervisor.forget_children]
    | _ now => rfl
  | removal stepped =>
    cases Removal.steps_of_step stepped with
    | dropped now =>
      simp only [Activity.writes, now, decide_eq_false_iff_not] at spared
      rw [Supervisor.lookup_dropChild, if_neg (Ne.symm spared)]
    | forgot now => rw [Supervisor.forget_children]
    | _ now => rfl

end

/-- The restart task of `pid` is at `index`. -/
def Swapping (index : Nat) (pid q : Pid) (spec : ChildSpec) (c : Config Supervisor Activity) : Prop :=
  ∃ task, c.threads[index]? = some (.task task) ∧ task.orig = pid ∧ task.spec = spec ∧ task.Keeps q c.shared

theorem Swapping.move {index : Nat} {pid q : Pid} {spec : ChildSpec} {c d : Config Supervisor Activity}
    {move : Move Activity Outside Registration} (swapping : Swapping index pid q spec c)
    (spares : Spares index q c move) (moves : supervision.Moves c move d) : Swapping index pid q spec d := by
  obtain ⟨task, found, orig, specs, keeps⟩ := swapping
  rcases moves.thread_at found with ⟨outside, next, new, rfl, stepped, now⟩ | ⟨others, still⟩
  · obtain ⟨⟨later, next⟩, done, same⟩ := Option.map_eq_some_iff.mp stepped
    have kept := keeps.step (Task.steps_of_step done)
    have child := Task.step_child done
    cases same
    exact ⟨next, now, (congrArg Prod.fst child).trans orig, (congrArg Prod.snd child).trans specs, kept⟩
  · refine ⟨task, still, orig, specs, keeps.frame ?_⟩
    cases moves with
    | start allowed => rfl
    | @step shared later before after new activity next outside stepped =>
      have taken : before.length ≠ index := fun same => others outside (same ▸ rfl)
      have spared := spares.resolve_left taken activity (by simp)
      exact Activity.step_spared spared (Activity.steps_of_step stepped)
    | @ambient shared later threads registration done =>
      have apart : registration.pid ≠ q := spares
      cases registration with
      | addChild other spec =>
        cases done
        exact (Supervisor.lookup_addChild shared other q spec).trans (if_neg (Ne.symm apart))
      | watch other =>
        cases done
        exact (Supervisor.lookup_addChild shared other q _).trans (if_neg (Ne.symm apart))

def Supervisor.childrenCount (s : Supervisor) : Nat := s.children.keys.length

theorem Task.finish_keys (s : Supervisor) (pid : Pid) : (finish s pid).children.keys = s.children.keys.erase pid := by
  have kept : (finish s pid).children = (s.dropChild pid).children := Supervisor.forgetAll_children _ _ _
  rw [kept]
  exact AList.keys_erase pid s.children

theorem Supervisor.addChild_keys (s : Supervisor) (pid : Pid) (spec : ChildSpec) :
    (s.addChild pid spec).children.keys = pid :: s.children.keys.erase pid := AList.keys_insert _

/-- How many children are left of a swap. -/
theorem length_swapped {keys : List Pid} {pid q : Pid} (child : pid ∈ keys) :
    ((q :: keys.erase q).erase pid).length = if q ∈ keys then keys.length - 1 else keys.length := by
  by_cases present : q ∈ keys
  · rw [if_pos present, List.length_erase_of_mem, List.length_cons, List.length_erase_of_mem present]
    · have positive := List.length_pos_of_mem present
      omega
    · by_cases same : pid = q
      · rw [same]
        exact List.mem_cons_self
      · exact List.mem_cons_of_mem _ ((List.mem_erase_of_ne same).mpr child)
  · have apart : q ≠ pid := fun same => present (same ▸ child)
    rw [if_neg present, List.erase_of_not_mem present, List.erase_cons_tail (by simpa using apart), List.length_cons,
      List.length_erase_of_mem child]
    have positive := List.length_pos_of_mem child
    omega

theorem restart_alone_keeps_count (s : Supervisor) (results : Nat → Except String Pid) {pid q : Pid} {spec : ChildSpec}
    {call : Nat} (child : pid ∈ s.children) (first : FirstOk (spec.answers results) call q) (within : call < 3) :
    ∃ steps t last,
      (Task.alone results).run (s, .new pid spec) (List.replicate steps ()) = some (t, last) ∧ last.stage = .finished ∧
      (t.children.lookup q = some spec ∧ s.childrenCount ≤ t.childrenCount ↔ q ∉ s.children) := by
  obtain ⟨t, last, ⟨steps, reached⟩, finished, result⟩ := Task.ends_new results s pid spec
  refine ⟨steps, t, last, reached, finished, ?_⟩
  generalize last.attempts = calls at result
  cases result with
  | refused all => exact absurd within (all.not_firstOk first)
  | @replaced call p also bound =>
    obtain ⟨-, rfl⟩ := first.unique also
    have keys :
        (Task.finish ((s.pushErrors (refusals (spec.answers results) (call + 1))).addChild q spec) pid).children.keys
          = (q :: s.children.keys.erase q).erase pid := by
      rw [Task.finish_keys, Supervisor.addChild_keys]
      rfl
    have listed : pid ∈ s.children.keys := child
    have positive := List.length_pos_of_mem listed
    rw [Task.finish_children, Supervisor.lookup_addChild, if_pos rfl, Supervisor.childrenCount,
      Supervisor.childrenCount, keys, length_swapped listed]
    by_cases present : q ∈ s.children
    · have counted : q ∈ s.children.keys := present
      rw [if_pos counted]
      constructor
      · intro both
        omega
      · exact fun absent => absurd present absent
    · have counted : q ∉ s.children.keys := present
      have apart : q ≠ pid := fun same => present (same ▸ child)
      rw [if_neg counted, if_neg apart]
      exact iff_of_true ⟨rfl, Nat.le_refl _⟩ present

/-- When the task has finished, the entry that it inserted is there exactly if
    it is not the one that it removes. Run alone, it keeps the number of
    children as well exactly if the pid of the replacement was not a child. -/
theorem restart_keeps_child_iff (pid q : Pid) (spec : ChildSpec) :
    (∀ (c d : Config Supervisor Activity) (index : Nat) (moves : List (Move Activity Outside Registration)) (last : Task),
      c.threads[index]? = some (.task (.new pid spec)) → supervision.machine.run c moves = some d →
      supervision.machine.Meets (Spares index q) c moves → d.threads[index]? = some (.task last) →
      last.stage = .finished → last.replacement = some q →
      (d.shared.children.lookup q = some spec ↔ q ≠ pid)) ∧
    ∀ (s : Supervisor) (results : Nat → Except String Pid) (call : Nat), pid ∈ s.children →
      FirstOk (spec.answers results) call q → call < 3 → ∃ steps t last,
        (Task.alone results).run (s, .new pid spec) (List.replicate steps ()) = some (t, last) ∧
        last.stage = .finished ∧
        (t.children.lookup q = some spec ∧ s.childrenCount ≤ t.childrenCount ↔ q ∉ s.children) := by
  constructor
  · intro c d index moves last found reached spares now finished replaced
    have start : Swapping index pid q spec c := ⟨_, found, rfl, rfl, rfl⟩
    obtain ⟨task, present, orig, specs, keeps⟩ := supervision.run_invariant_of_meets
      (fun c move d swapping spared moves => swapping.move spared moves) start spares reached
    have same : task = last := Activity.task.inj (Option.some.inj (present.symm.trans now))
    subst same
    obtain ⟨own, mine, attempts, backoffMs, replacement, stage⟩ := task
    cases finished
    have entry : d.shared.children.lookup q = if q = own then none else some mine := keeps replaced
    have origs : own = pid := orig
    have kinds : mine = spec := specs
    rw [entry, origs, kinds]
    by_cases same : q = pid
    · simp [same]
    · simp [same]
  · intro s results call child first within
    exact restart_alone_keeps_count s results child first within

def countedChild : Supervisor := Supervisor.new.addChild 1 ⟨.foreign 0, .restartOne⟩

theorem restart_keeps_child_iff_fresh : ∃ steps t last,
    (Task.alone fun _ => .ok 2).run (countedChild, .new 1 ⟨.foreign 0, .restartOne⟩) (List.replicate steps ()) =
      some (t, last) ∧
    t.children.lookup 2 = some ⟨.foreign 0, .restartOne⟩ ∧ 1 ≤ t.childrenCount := by
  have first : FirstOk (ChildSpec.answers ⟨.foreign 0, .restartOne⟩ fun _ => .ok 2) 0 2 := ⟨rfl, by simp⟩
  obtain ⟨steps, t, last, reached, -, kept⟩ := (restart_keeps_child_iff 1 2 ⟨.foreign 0, .restartOne⟩).2 countedChild
    (fun _ => .ok 2) 0 (by decide +kernel) first (by decide)
  exact ⟨steps, t, last, reached, kept.mpr (by decide +kernel)⟩

/-- A watched pid whose factory succeeds at once is no longer supervised. -/
theorem watched_child_dropped :
    ¬ ∀ (s : Supervisor) (pid q : Pid) (spec : ChildSpec) (results : Nat → Except String Pid) (call steps : Nat)
      (t : Supervisor) (last : Task), s.children.lookup pid = some spec → FirstOk (spec.answers results) call q →
      call < 3 → (Task.alone results).run (s, .new pid spec) (List.replicate steps ()) = some (t, last) →
      last.stage = .finished →
      t.children.lookup q = some spec ∧ s.childrenCount ≤ t.childrenCount := by
  intro kept
  have dropped : ((Task.alone fun _ => .error "unused").run (Supervisor.new.watch 1, .new 1 ⟨.same 1, .restartOne⟩)
      (List.replicate 6 ())).map (fun c => (c.2.stage, c.1.children.lookup 1)) = some (.finished, none) := by
    decide +kernel
  obtain ⟨⟨t, last⟩, reached, both⟩ := Option.map_eq_some_iff.mp dropped
  obtain ⟨finished, absent⟩ := Prod.mk.inj both
  have first : FirstOk (ChildSpec.answers ⟨.same 1, .restartOne⟩ fun _ => .error "unused") 0 1 := ⟨rfl, by simp⟩
  have present := (kept _ 1 1 _ _ 0 6 t last (by decide +kernel) first (by decide) reached finished).1
  cases absent.symm.trans present

end Myrmidon
