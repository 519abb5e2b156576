import Myrmidon.Supervisor.RestartTask
import Myrmidon.Supervisor.Tokens

namespace Myrmidon

open Transition

/-- What the restart loop gets from a factory that answers so. -/
def replacementOf (answers : Nat → Except String Pid) : Option Pid :=
  (List.range Task.maxAttempts).findSome? fun call => (answers call).toOption

theorem replacementOf_firstOk {answers : Nat → Except String Pid} {call : Nat} {q : Pid}
    (first : FirstOk answers call q) (within : call < Task.maxAttempts) : replacementOf answers = some q := by
  obtain ⟨answered, earlier⟩ := first
  have cases : call = 0 ∨ call = 1 ∨ call = 2 := by
    rw [Task.maxAttempts] at within
    omega
  rcases cases with rfl | rfl | rfl
  · simp [replacementOf, Task.maxAttempts, List.range_succ, answered, Except.toOption]
  · obtain ⟨error, failed⟩ := earlier 0 (by decide)
    simp [replacementOf, Task.maxAttempts, List.range_succ, answered, failed, Except.toOption]
  · obtain ⟨error, failed⟩ := earlier 0 (by decide)
    obtain ⟨again, failed'⟩ := earlier 1 (by decide)
    simp [replacementOf, Task.maxAttempts, List.range_succ, answered, failed, failed', Except.toOption]

theorem replacementOf_refused {answers : Nat → Except String Pid} (all : Refused answers) :
    replacementOf answers = none := by
  rw [replacementOf, List.findSome?_eq_none_iff]
  intro call member
  obtain ⟨error, failed⟩ := all call (List.mem_range.mp member)
  rw [failed]
  rfl

/-- The tasks of a `RestartAll`, at the granularity of single operations, with
    what the factory of each child returns. -/
def restartGroup (results : Pid → Nat → Except String Pid) : Program Supervisor Task Unit Empty where
  starts _ := false
  step _ s task _ := (task.step s (results task.orig task.attempts)).map fun (s, task) => (s, task, [])
  ambient _ operation := operation.elim

def groupTasks (group : List (Pid × ChildSpec)) : List Task := group.map fun child => Task.new child.1 child.2

def GroupDone (c : Config Supervisor Task) : Prop := ∀ task ∈ c.threads, task.stage = .finished

def successor (results : Pid → Nat → Except String Pid) (child : Pid × ChildSpec) : Option Pid :=
  replacementOf (child.2.answers (results child.1))

def groupChildren (s : Supervisor) (group : List (Pid × ChildSpec)) (results : Pid → Nat → Except String Pid)
    (pid : Pid) : Option ChildSpec :=
  if pid ∈ keysOf group then none
  else
    match group.find? fun child => successor results child = some pid with
    | some child => some child.2
    | none => s.children.lookup pid

def groupLinks (s : Supervisor) (group : List (Pid × ChildSpec)) (pid : Pid) : Option (List Pid) :=
  if pid ∈ keysOf group then none
  else (s.links.lookup pid).map fun pids => pids.filter (· ∉ keysOf group)

def groupFlags (s : Supervisor) (group : List (Pid × ChildSpec)) : Finset Pid :=
  s.restarting.filter (· ∉ keysOf group)

/-- The factories return distinct pids that none of the children has. -/
structure FreshPids (group : List (Pid × ChildSpec)) (results : Pid → Nat → Except String Pid) : Prop where
  fresh : ∀ child ∈ group, ∀ q, successor results child = some q → q ∉ keysOf group
  distinct : ∀ child ∈ group, ∀ other ∈ group, ∀ q, successor results child = some q →
    successor results other = some q → child = other

/-- What is left of a failed attempt is an error, and past the loop the task holds what the loop got. -/
def Task.Faithful (answers : Nat → Except String Pid) (task : Task) : Prop :=
  match task.stage with
  | .call | .backoff => task.replacement = none ∧ task.attempts < maxAttempts ∧
      ∀ earlier < task.attempts, ∃ error, answers earlier = .error error
  | .pushError _ => task.replacement = none ∧ ∀ earlier < task.attempts, ∃ error, answers earlier = .error error
  | .insertNew q => task.replacement = some q ∧ replacementOf answers = some q
  | _ => task.replacement = replacementOf answers

theorem Task.Faithful.step {s later : Supervisor} {task next : Task} {results : Nat → Except String Pid}
    (faithful : task.Faithful (task.spec.answers results))
    (stepped : task.step s (results task.attempts) = some (later, next)) :
    next.Faithful (task.spec.answers results) := by
  obtain ⟨orig, spec, attempts, backoffMs, replacement, stage⟩ := task
  cases stage with
  | call =>
    obtain ⟨none, within, earlier⟩ := faithful
    simp only [Task.step] at stepped
    split at stepped
    · rename_i q answer
      cases stepped
      exact ⟨rfl, replacementOf_firstOk ⟨answer, earlier⟩ within⟩
    · rename_i error answer
      cases stepped
      refine ⟨none, fun call early => ?_⟩
      rcases Nat.lt_succ_iff_lt_or_eq.mp early with early | rfl
      · exact earlier call early
      · exact ⟨error, answer⟩
  | insertNew q =>
    cases stepped
    exact faithful.1.trans faithful.2.symm
  | pushError error =>
    obtain ⟨none, earlier⟩ := faithful
    cases stepped
    by_cases last : maxAttempts ≤ attempts
    · simp only [if_pos last]
      exact none.trans (replacementOf_refused fun call within => earlier call (Nat.lt_of_lt_of_le within last)).symm
    · simp only [if_neg last]
      exact ⟨none, Nat.lt_of_not_le last, earlier⟩
  | backoff =>
    cases stepped
    exact faithful
  | retain peers =>
    cases peers with
    | nil =>
      cases stepped
      exact faithful
    | cons peer peers =>
      cases stepped
      exact faithful
  | finished => cases stepped
  | _ =>
    cases stepped
    exact faithful

def Task.inserted (task : Task) : Bool :=
  match task.stage with
  | .call | .insertNew _ | .pushError _ | .backoff => false
  | _ => true

theorem Task.Faithful.replacement_of_inserted {answers : Nat → Except String Pid} {task : Task}
    (faithful : task.Faithful answers) (inserted : task.inserted = true) :
    task.replacement = replacementOf answers := by
  obtain ⟨orig, spec, attempts, backoffMs, replacement, stage⟩ := task
  cases stage with
  | call | insertNew _ | pushError _ | backoff => cases inserted
  | _ => exact faithful

section

variable (s₀ : Supervisor) (group : List (Pid × ChildSpec)) (results : Pid → Nat → Except String Pid)

/-- What the table of children holds of the task. -/
structure Task.Registered (s : Supervisor) (task : Task) : Prop where
  removed : task.removes = false → s.children.lookup task.orig = none
  replaced : task.inserted = true → ∀ q, successor results task.child = some q →
    s.children.lookup q = some task.spec

/-- What the link table holds of the task: `gone o pid` once `pid` has been
    taken out of the list of `o`, which is not of the group. -/
def Task.Visits (gone : Pid → Pid → Bool) (s : Supervisor) (task : Task) : Prop :=
  match task.stage with
  | .retain peers => s.links.lookup task.orig = none ∧ ∀ other ∉ keysOf group,
      other ∈ s₀.linksOf task.orig → other ∈ peers ∨ gone other task.orig = true
  | .clearFlag | .finished => s.links.lookup task.orig = none ∧ ∀ other ∉ keysOf group,
      other ∈ s₀.linksOf task.orig → gone other task.orig = true
  | _ => ∀ other ∉ keysOf group, other ∈ s₀.linksOf task.orig → other ∈ s.linksOf task.orig

structure Visited (gone : Pid → Pid → Bool) (s : Supervisor) : Prop where
  lists : ∀ other ∉ keysOf group,
    s.links.lookup other = (s₀.links.lookup other).map fun pids => pids.filter fun pid => !gone other pid
  named : ∀ other ∉ keysOf group, ∀ pid, gone other pid = true → pid ∈ keysOf group

structure GroupProgress (gone : Pid → Pid → Bool) (c : Config Supervisor Task) : Prop where
  tasks : c.threads.map Task.child = group
  faithful : ∀ task ∈ c.threads, task.Faithful (task.spec.answers (results task.orig))
  registered : ∀ task ∈ c.threads, task.Registered results c.shared
  otherChildren : ∀ pid ∉ keysOf group, (∀ child ∈ group, successor results child ≠ some pid) →
    c.shared.children.lookup pid = s₀.children.lookup pid
  visits : ∀ task ∈ c.threads, task.Visits s₀ group gone c.shared
  visited : Visited s₀ group gone c.shared
  unflagged : ∀ task ∈ c.threads, task.stage = .finished → task.orig ∉ c.shared.restarting
  otherFlags : ∀ pid ∉ keysOf group, (pid ∈ c.shared.restarting ↔ pid ∈ s₀.restarting)

end

section

variable {s₀ s later : Supervisor} {group : List (Pid × ChildSpec)} {results : Pid → Nat → Except String Pid}
  {task next other : Task} {gone grown : Pid → Pid → Bool}

/-- A task touches the entries of its child and of the replacement alone. -/
theorem Task.step_lookup (faithful : task.Faithful (task.spec.answers (results task.orig)))
    (steps : task.Steps s later next) {pid : Pid} (apart : pid ≠ task.orig)
    (unrelated : successor results task.child ≠ some pid) : later.children.lookup pid = s.children.lookup pid := by
  obtain ⟨orig, spec, attempts, backoffMs, replacement, stage⟩ := task
  cases steps with
  | @inserted q now =>
    cases now
    have other : pid ≠ q := fun same => unrelated (same ▸ faithful.2)
    rw [Supervisor.lookup_addChild, if_neg other]
  | removed now => rw [Supervisor.lookup_dropChild, if_neg apart]
  | forgot now => rw [Supervisor.forget_children]
  | _ now => rfl

theorem Task.Registered.frame (registered : other.Registered results s)
    (faithful : task.Faithful (task.spec.answers (results task.orig))) (steps : task.Steps s later next)
    (own : other.orig ≠ task.orig ∧ successor results task.child ≠ some other.orig)
    (theirs : ∀ q, successor results other.child = some q → q ≠ task.orig ∧ successor results task.child ≠ some q) :
    other.Registered results later := by
  constructor
  · intro removed
    rw [Task.step_lookup faithful steps own.1 own.2]
    exact registered.removed removed
  · intro inserted q replacement
    obtain ⟨apart, unrelated⟩ := theirs q replacement
    rw [Task.step_lookup faithful steps apart unrelated]
    exact registered.replaced inserted q replacement

theorem Task.registered_early (removes : task.removes = true) (waiting : task.inserted = false) :
    task.Registered results s := by
  constructor
  · intro removed
    rw [removes] at removed
    cases removed
  · intro inserted
    rw [waiting] at inserted
    cases inserted

theorem Task.Registered.step (registered : task.Registered results s)
    (faithful : task.Faithful (task.spec.answers (results task.orig)))
    (kept : next.Faithful (next.spec.answers (results next.orig))) (steps : task.Steps s later next)
    (apart : ∀ q, successor results task.child = some q → q ≠ task.orig) : next.Registered results later := by
  obtain ⟨orig, spec, attempts, backoffMs, replacement, stage⟩ := task
  cases steps with
  | answered now | refused now | failed now more | waited now => exact Task.registered_early rfl rfl
  | @inserted q now =>
    cases now
    constructor
    · intro removed
      cases removed
    · intro _ p replaced
      have same : p = q := Option.some.inj (replaced.symm.trans faithful.2)
      rw [Supervisor.lookup_addChild, if_pos same]
  | gaveUp now last =>
    cases now
    constructor
    · intro removed
      cases removed
    · intro inserted p replaced
      have held := kept.replacement_of_inserted inserted
      cases (faithful.1.symm.trans held).trans replaced
  | removed now =>
    cases now
    refine ⟨fun _ => ?_, fun _ q replaced => ?_⟩
    · rw [Supervisor.lookup_dropChild, if_pos rfl]
    · rw [Supervisor.lookup_dropChild, if_neg (apart q replaced)]
      exact registered.replaced rfl q replaced
  | tookLinks now =>
    cases now
    exact ⟨fun _ => registered.removed rfl, fun _ => registered.replaced rfl⟩
  | @forgot peer peers now =>
    cases now
    refine ⟨fun _ => ?_, fun _ q replaced => ?_⟩
    · rw [Supervisor.forget_children]
      exact registered.removed rfl
    · rw [Supervisor.forget_children]
      exact registered.replaced rfl q replaced
  | forgotAll now =>
    cases now
    exact ⟨fun _ => registered.removed rfl, fun _ => registered.replaced rfl⟩
  | cleared now =>
    cases now
    exact ⟨fun _ => registered.removed rfl, fun _ => registered.replaced rfl⟩

theorem Task.step_links (steps : task.Steps s later next) {holder pid : Pid} (apart : holder ≠ task.orig)
    (unrelated : pid ≠ task.orig) :
    (s.links.lookup holder = none → later.links.lookup holder = none) ∧
      (pid ∈ s.linksOf holder → pid ∈ later.linksOf holder) := by
  cases steps with
  | tookLinks now =>
    have same : (s.takeLinks task.orig).2.links.lookup holder = s.links.lookup holder :=
      AList.lookup_erase_ne apart
    rw [Supervisor.linksOf, Supervisor.linksOf, same]
    exact ⟨id, id⟩
  | @forgot peer peers now =>
    rw [Supervisor.mem_linksOf, Supervisor.mem_linksOf, Supervisor.lookup_forget]
    constructor
    · intro absent
      rw [absent, Option.map_none]
    · rintro ⟨pids, found, member⟩
      refine ⟨_, congrArg _ found, ?_⟩
      split
      · exact List.mem_filter.mpr ⟨member, decide_eq_true unrelated⟩
      · exact member
  | _ now => exact ⟨id, id⟩

theorem Task.Visits.frame (visits : other.Visits s₀ group gone s) (steps : task.Steps s later next)
    (apart : other.orig ≠ task.orig) (member : task.orig ∈ keysOf group)
    (grows : ∀ holder pid, gone holder pid = true → grown holder pid = true) :
    other.Visits s₀ group grown later := by
  obtain ⟨orig, spec, attempts, backoffMs, replacement, stage⟩ := other
  have stranger : ∀ holder ∉ keysOf group, holder ≠ task.orig := fun holder outside same => outside (same ▸ member)
  cases stage with
  | retain peers =>
    obtain ⟨absent, named⟩ := visits
    refine ⟨(Task.step_links steps apart apart).1 absent, fun holder outside linked => ?_⟩
    exact (named holder outside linked).imp id (grows holder orig)
  | clearFlag =>
    obtain ⟨absent, done⟩ := visits
    refine ⟨(Task.step_links steps apart apart).1 absent, fun holder outside linked => ?_⟩
    exact grows holder orig (done holder outside linked)
  | finished =>
    obtain ⟨absent, done⟩ := visits
    refine ⟨(Task.step_links steps apart apart).1 absent, fun holder outside linked => ?_⟩
    exact grows holder orig (done holder outside linked)
  | _ =>
    intro holder outside linked
    exact (Task.step_links steps apart (stranger holder outside)).2 (visits holder outside linked)

/-- The step that takes `pid` out of the list of `peer` is recorded. -/
theorem Visited.forget (visited : Visited s₀ group gone s) {peer pid : Pid} (member : pid ∈ keysOf group) :
    Visited s₀ group (fun holder other => gone holder other || decide (holder = peer ∧ other = pid))
      (s.forget peer pid) := by
  constructor
  · intro holder outside
    rw [Supervisor.lookup_forget, visited.lists holder outside, Option.map_map]
    refine Option.map_congr fun pids _ => ?_
    by_cases same : holder = peer
    · simp [same, List.filter_filter, Bool.and_comm]
    · simp [same]
  · intro holder outside other taken
    rcases Bool.or_eq_true_iff.mp taken with before | now
    · exact visited.named holder outside other before
    · exact (of_decide_eq_true now).2 ▸ member

theorem Visited.takeLinks (visited : Visited s₀ group gone s) {pid : Pid} (member : pid ∈ keysOf group) :
    Visited s₀ group gone (s.takeLinks pid).2 := by
  refine ⟨fun holder outside => ?_, visited.named⟩
  have apart : holder ≠ pid := fun same => outside (same ▸ member)
  rw [← visited.lists holder outside]
  exact AList.lookup_erase_ne apart

theorem Task.Visits.step (visits : task.Visits s₀ group gone s) (visited : Visited s₀ group gone s)
    (member : task.orig ∈ keysOf group) (steps : task.Steps s later next) :
    ∃ grown : Pid → Pid → Bool, (∀ holder pid, gone holder pid = true → grown holder pid = true) ∧
      Visited s₀ group grown later ∧ next.Visits s₀ group grown later := by
  obtain ⟨orig, spec, attempts, backoffMs, replacement, stage⟩ := task
  cases steps with
  | tookLinks now =>
    cases now
    refine ⟨gone, fun _ _ => id, visited.takeLinks member, AList.lookup_erase _ _, fun holder outside linked => ?_⟩
    exact .inl (visits holder outside linked)
  | @forgot peer peers now =>
    cases now
    obtain ⟨absent, named⟩ := visits
    refine ⟨_, fun holder pid before => ?_, visited.forget member, ?_, fun holder outside linked => ?_⟩
    · exact Bool.or_eq_true_iff.mpr (.inl before)
    · rw [Supervisor.lookup_forget]
      exact congrArg _ absent
    · rcases named holder outside linked with listed | before
      · rcases List.mem_cons.mp listed with same | later
        · exact .inr (Bool.or_eq_true_iff.mpr (.inr (decide_eq_true ⟨same, rfl⟩)))
        · exact .inl later
      · exact .inr (Bool.or_eq_true_iff.mpr (.inl before))
  | forgotAll now =>
    cases now
    obtain ⟨absent, named⟩ := visits
    refine ⟨gone, fun _ _ => id, visited, absent, fun holder outside linked => ?_⟩
    exact (named holder outside linked).resolve_left (List.not_mem_nil)
  | cleared now =>
    cases now
    exact ⟨gone, fun _ _ => id, ⟨visited.lists, visited.named⟩, visits⟩
  | _ now =>
    cases now
    exact ⟨gone, fun _ _ => id, ⟨visited.lists, visited.named⟩, visits⟩

theorem Task.step_flags (steps : task.Steps s later next) :
    (∀ pid ≠ task.orig, pid ∈ later.restarting ↔ pid ∈ s.restarting) ∧
      (next.stage = .finished → task.orig ∉ later.restarting) := by
  cases steps with
  | cleared now =>
    have erased : (s.unflag task.orig).restarting = s.restarting.erase task.orig := rfl
    rw [erased]
    exact ⟨fun pid apart => by rw [Finset.mem_erase, and_iff_right apart], fun _ => Finset.notMem_erase _ _⟩
  | forgot now =>
    rw [Supervisor.forget_restarting]
    exact ⟨fun _ _ => Iff.rfl, fun finished => by cases finished⟩
  | _ now => exact ⟨fun _ _ => Iff.rfl, fun finished => by cases finished⟩

theorem mem_keysOf_child {threads : List Task} (tasks : threads.map Task.child = group) (member : task ∈ threads) :
    task.child ∈ group ∧ task.orig ∈ keysOf group := by
  have listed : task.child ∈ group := tasks ▸ List.mem_map_of_mem member
  exact ⟨listed, List.mem_map_of_mem listed⟩

/-- The children of a group are told apart by their pids. -/
theorem orig_ne_of_nodup {before after : List Task} (tasks : (before ++ task :: after).map Task.child = group)
    (nodup : (keysOf group).Nodup) (member : other ∈ before ++ after) : other.orig ≠ task.orig := by
  rw [← tasks, keysOf, List.map_map] at nodup
  have origs : (Prod.fst ∘ Task.child) = Task.orig := rfl
  rw [origs, List.map_append, List.map_cons, List.nodup_middle] at nodup
  intro same
  apply (List.nodup_cons.mp nodup).1
  rw [← List.map_append, ← same]
  exact List.mem_map_of_mem member

theorem GroupProgress.move {c d : Config Supervisor Task} {move : Move Task Unit Empty} (nodup : (keysOf group).Nodup)
    (pids : FreshPids group results) (progress : ∃ gone, GroupProgress s₀ group results gone c)
    (moves : (restartGroup results).Moves c move d) : ∃ gone, GroupProgress s₀ group results gone d := by
  obtain ⟨gone, progress⟩ := progress
  cases moves with
  | start allowed => cases allowed
  | ambient done => rename_i operation; exact operation.elim
  | @step shared later before after new task next input stepped =>
    obtain ⟨⟨later, next⟩, done, same⟩ := Option.map_eq_some_iff.mp stepped
    cases same
    have steps := Task.steps_of_step done
    have child := Task.step_child done
    have member : task ∈ before ++ task :: after := List.mem_append_right _ List.mem_cons_self
    obtain ⟨listed, inside⟩ := mem_keysOf_child progress.tasks member
    have faithful := progress.faithful task member
    have stays := faithful.step done
    have others : ∀ other ∈ before ++ after, other ∈ before ++ task :: after ∧ other.orig ≠ task.orig := by
      intro other present
      refine ⟨?_, orig_ne_of_nodup progress.tasks nodup present⟩
      rcases List.mem_append.mp present with early | late
      · exact List.mem_append_left _ early
      · exact List.mem_append_right _ (List.mem_cons_of_mem _ late)
    obtain ⟨grown, grows, visited, visits⟩ := (progress.visits task member).step progress.visited inside steps
    have kept : next.Faithful (next.spec.answers (results next.orig)) := by
      have origs : next.orig = task.orig := congrArg Prod.fst child
      have specs : next.spec = task.spec := congrArg Prod.snd child
      rw [origs, specs]
      exact stays
    have flags := Task.step_flags steps
    refine ⟨grown, ?_, ?_, ?_, ?_, ?_, visited, ?_, ?_⟩
    · have threads := progress.tasks
      simp only [List.append_nil, List.map_append, List.map_cons] at threads ⊢
      rw [child]
      exact threads
    · exact Program.forall_moved kept (fun other present => progress.faithful other (others other present).1)
        (List.forall_mem_nil _)
    · refine Program.forall_moved ?_ (fun other present => ?_) (List.forall_mem_nil _)
      · apply (progress.registered task member).step faithful kept steps
        intro q replaced same
        exact pids.fresh _ listed q replaced (same ▸ inside)
      · obtain ⟨old, apart⟩ := others other present
        obtain ⟨otherListed, otherInside⟩ := mem_keysOf_child progress.tasks old
        apply (progress.registered other old).frame faithful steps
        · exact ⟨apart, fun replaced => pids.fresh _ listed _ replaced otherInside⟩
        · intro q replaced
          refine ⟨fun same => pids.fresh _ otherListed q replaced (same ▸ inside), fun also => apart ?_⟩
          exact congrArg Prod.fst (pids.distinct _ otherListed _ listed q replaced also)
    · intro pid outside unrelated
      have apart : pid ≠ task.orig := fun same => outside (same ▸ inside)
      rw [Task.step_lookup faithful steps apart (unrelated _ listed)]
      exact progress.otherChildren pid outside unrelated
    · refine Program.forall_moved visits (fun other present => ?_) (List.forall_mem_nil _)
      obtain ⟨old, apart⟩ := others other present
      exact (progress.visits other old).frame steps apart inside grows
    · refine Program.forall_moved ?_ (fun other present finished => ?_) (List.forall_mem_nil _)
      · have origs : next.orig = task.orig := congrArg Prod.fst child
        rw [origs]
        exact flags.2
      · obtain ⟨old, apart⟩ := others other present
        rw [flags.1 other.orig apart]
        exact progress.unflagged other old finished
    · intro pid outside
      have apart : pid ≠ task.orig := fun same => outside (same ▸ inside)
      rw [flags.1 pid apart]
      exact progress.otherFlags pid outside

theorem groupProgress_start (s : Supervisor) (group : List (Pid × ChildSpec))
    (results : Pid → Nat → Except String Pid) :
    GroupProgress s group results (fun _ _ => false) ⟨s, groupTasks group⟩ := by
  have new : ∀ {task : Task}, task ∈ groupTasks group → ∃ child ∈ group, task = Task.new child.1 child.2 := by
    intro task member
    obtain ⟨child, listed, same⟩ := List.mem_map.mp member
    exact ⟨child, listed, same.symm⟩
  refine ⟨?_, ?_, ?_, fun _ _ _ => rfl, ?_, ?_, ?_, fun _ _ => Iff.rfl⟩
  · rw [groupTasks, List.map_map]
    exact List.map_id group
  · intro task member
    obtain ⟨child, -, rfl⟩ := new member
    exact ⟨rfl, Nat.zero_lt_succ 2, by simp [Task.new]⟩
  · intro task member
    obtain ⟨child, -, rfl⟩ := new member
    exact Task.registered_early rfl rfl
  · intro task member
    obtain ⟨child, -, rfl⟩ := new member
    exact fun other outside linked => linked
  · constructor
    · intro other outside
      simp
    · intro other outside pid taken
      cases taken
  · intro task member finished
    obtain ⟨child, -, rfl⟩ := new member
    cases finished

theorem GroupProgress.task_of_mem {c : Config Supervisor Task} (progress : GroupProgress s₀ group results gone c)
    {child : Pid × ChildSpec} (listed : child ∈ group) : ∃ task ∈ c.threads, task.child = child :=
  List.mem_map.mp (progress.tasks.symm ▸ listed)

theorem GroupProgress.task_of_key {c : Config Supervisor Task} (progress : GroupProgress s₀ group results gone c)
    {pid : Pid} (inside : pid ∈ keysOf group) : ∃ task ∈ c.threads, task.orig = pid := by
  obtain ⟨child, listed, same⟩ := List.mem_map.mp inside
  obtain ⟨task, member, rfl⟩ := progress.task_of_mem listed
  exact ⟨task, member, same⟩

section

variable {c : Config Supervisor Task} (progress : GroupProgress s₀ group results gone c) (done : GroupDone c)

include progress done

theorem GroupProgress.children (pid : Pid) :
    c.shared.children.lookup pid = groupChildren s₀ group results pid := by
  unfold groupChildren
  by_cases inside : pid ∈ keysOf group
  · obtain ⟨task, member, rfl⟩ := progress.task_of_key inside
    rw [if_pos inside]
    exact (progress.registered task member).removed (by rw [Task.removes, done task member])
  · rw [if_neg inside]
    split
    · rename_i child found
      obtain ⟨task, member, rfl⟩ := progress.task_of_mem (List.mem_of_find?_eq_some found)
      have chosen := List.find?_some found
      have replaced : successor results task.child = some pid := of_decide_eq_true chosen
      exact (progress.registered task member).replaced (by rw [Task.inserted, done task member]) pid replaced
    · rename_i absent
      apply progress.otherChildren pid inside
      intro child listed replaced
      exact List.find?_eq_none.mp absent child listed (decide_eq_true replaced)

theorem GroupProgress.links (symmetric : s₀.Symmetric) (pid : Pid) :
    c.shared.links.lookup pid = groupLinks s₀ group pid := by
  have visits : ∀ task ∈ c.threads, c.shared.links.lookup task.orig = none ∧ ∀ other ∉ keysOf group,
      other ∈ s₀.linksOf task.orig → gone other task.orig = true := by
    intro task member
    have visits := progress.visits task member
    simpa only [Task.Visits, done task member] using visits
  unfold groupLinks
  by_cases inside : pid ∈ keysOf group
  · obtain ⟨task, member, rfl⟩ := progress.task_of_key inside
    rw [if_pos inside]
    exact (visits task member).1
  · rw [if_neg inside, progress.visited.lists pid inside]
    refine Option.map_congr fun pids found => List.filter_congr fun other listed => ?_
    by_cases grouped : other ∈ keysOf group
    · obtain ⟨task, member, rfl⟩ := progress.task_of_key grouped
      have linked : pid ∈ s₀.linksOf task.orig := by
        rw [symmetric.mem_linksOf, Supervisor.mem_linksOf]
        exact ⟨pids, found, listed⟩
      rw [(visits task member).2 pid inside linked]
      simp [grouped]
    · have kept : gone pid other = false := by
        rw [Bool.eq_false_iff]
        exact fun taken => grouped (progress.visited.named pid inside other taken)
      rw [kept]
      simp [grouped]

theorem GroupProgress.flags : c.shared.restarting = groupFlags s₀ group := by
  apply Finset.ext
  intro pid
  rw [groupFlags, Finset.mem_filter]
  by_cases inside : pid ∈ keysOf group
  · obtain ⟨task, member, rfl⟩ := progress.task_of_key inside
    have unflagged := progress.unflagged task member (done task member)
    simp [unflagged, inside]
  · rw [progress.otherFlags pid inside]
    simp [inside]

end

/-- A task that takes all the turns does what it does alone. -/
theorem run_alone {results : Pid → Nat → Except String Pid} {before after : List Task} {s t : Supervisor}
    {task last : Task} {steps : Nat}
    (reached : (Task.alone (results task.orig)).run (s, task) (List.replicate steps ()) = some (t, last)) :
    (restartGroup results).machine.run ⟨s, before ++ task :: after⟩ (List.replicate steps (.step before.length ())) =
      some ⟨t, before ++ last :: after⟩ := by
  induction steps generalizing s task with
  | zero =>
    cases reached
    rfl
  | succ steps ih =>
    rw [List.replicate_succ, Machine.run_cons] at reached ⊢
    obtain ⟨⟨middle, next⟩, stepped, reached⟩ := Option.bind_eq_some_iff.mp reached
    have origs : next.orig = task.orig := congrArg Prod.fst (Task.step_child stepped)
    have moved : (restartGroup results).step before.length s task () = some (middle, next, []) :=
      Option.map_eq_some_iff.mpr ⟨_, stepped, rfl⟩
    rw [Program.machine_step_at _ moved, Option.bind_some, List.append_nil]
    rw [← origs] at reached
    exact ih reached

theorem group_completes (results : Pid → Nat → Except String Pid) (threads : List Task) :
    ∀ (s : Supervisor) (before : List Task), (∀ task ∈ before, task.stage = .finished) →
      ∃ moves d, (restartGroup results).machine.run ⟨s, before ++ threads⟩ moves = some d ∧ GroupDone d := by
  induction threads with
  | nil =>
    intro s before finished
    refine ⟨[], _, rfl, ?_⟩
    rw [List.append_nil]
    exact finished
  | cons task threads ih =>
    intro s before finished
    obtain ⟨t, last, ⟨steps, reached⟩, stopped⟩ := Task.ends (results task.orig) s task
    have all : ∀ other ∈ before ++ [last], other.stage = .finished := by
      rw [List.forall_mem_append, List.forall_mem_singleton]
      exact ⟨finished, stopped⟩
    obtain ⟨moves, d, later, done⟩ := ih t (before ++ [last]) all
    refine ⟨List.replicate steps (.step before.length ()) ++ moves, d, ?_, done⟩
    rw [Machine.run_append, run_alone reached, Option.bind_some, List.append_cons]
    exact later

/-- A task that is left alone does what its child is owed. The tasks of a group
    come to one and the same end, however their operations interleave. -/
theorem restart_task_contract {s : Supervisor} (symmetric : s.Symmetric) :
    (∀ pid spec results, ∃ steps t last,
      (Task.alone results).run (s, .new pid spec) (List.replicate steps ()) = some (t, last) ∧
      last.stage = .finished ∧ Restarted s t pid spec (spec.answers results)
        ((Task.alone results).tally Task.callsFactory (s, .new pid spec) (List.replicate steps ()))) ∧
    ∀ group results, (keysOf group).Nodup → FreshPids group results → ∀ moves d,
      (restartGroup results).machine.run ⟨s, groupTasks group⟩ moves = some d →
      (∃ more e, (restartGroup results).machine.run d more = some e ∧ GroupDone e) ∧
      (GroupDone d → (∀ pid, d.shared.children.lookup pid = groupChildren s group results pid) ∧
        (∀ pid, d.shared.links.lookup pid = groupLinks s group pid) ∧
        d.shared.restarting = groupFlags s group) := by
  refine ⟨fun pid spec results => restart_task_ends symmetric pid spec results, ?_⟩
  intro group results nodup pids moves d reached
  have start := groupProgress_start s group results
  obtain ⟨gone, progress⟩ := (restartGroup results).machine.run_invariant
    (P := fun c => ∃ gone, GroupProgress s group results gone c)
    (fun c move d held taken => GroupProgress.move nodup pids held ((restartGroup results).moves_of_step taken))
    ⟨_, start⟩ reached
  refine ⟨group_completes results d.threads d.shared [] (List.forall_mem_nil _), fun done => ?_⟩
  exact ⟨progress.children done, progress.links done symmetric, progress.flags done⟩

/-- Two linked children; the first is linked to a stranger as well. -/
def linkedChildren : Supervisor :=
  (((Supervisor.new.addChild 1 ⟨.foreign 0, .restartAll⟩).addChild 2 ⟨.foreign 1, .restartAll⟩).link 1 2).link 1 3

def failsOnce : Nat → Except String Pid
  | 0 => .error "boom"
  | _ => .ok 7

theorem restart_task_contract_linked : ∃ steps t last,
    (Task.alone failsOnce).run (linkedChildren, .new 1 ⟨.foreign 0, .restartAll⟩) (List.replicate steps ()) =
      some (t, last) ∧
    t.errors = ["boom"] ∧ t.children.lookup 7 = some ⟨.foreign 0, .restartAll⟩ ∧ t.children.lookup 1 = none ∧
    t.links.lookup 2 = some [] := by
  have empty : Supervisor.new.Symmetric := Supervisor.symmetric_of_empty rfl
  have symmetric : linkedChildren.Symmetric := Supervisor.Symmetric.link (Supervisor.Symmetric.link empty 1 2) 1 3
  obtain ⟨steps, t, last, reached, -, contract⟩ :=
    (restart_task_contract symmetric).1 1 ⟨.foreign 0, .restartAll⟩ failsOnce
  have first : FirstOk (ChildSpec.answers ⟨.foreign 0, .restartAll⟩ failsOnce) 1 7 := by
    refine ⟨rfl, fun earlier early => ?_⟩
    have zero : earlier = 0 := by omega
    rw [zero]
    exact ⟨"boom", rfl⟩
  have calls := contract.called 1 7 first
  have errors := contract.errors
  rw [calls] at errors
  have swapped := contract.replaced 1 7 first (by decide) (by decide)
  refine ⟨steps, t, last, reached, errors, ?_, ?_, ?_⟩
  · rw [swapped, if_pos rfl]
  · rw [swapped]
    decide +kernel
  · rw [contract.otherLinks 2 (by decide)]
    decide +kernel

end

end Myrmidon
