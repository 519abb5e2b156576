import Myrmidon.Supervisor.Flags

namespace Myrmidon

open Transition

variable {q : Pid} {spec : ChildSpec}

/-- A factory has returned `q`. -/
def Activity.returned (q : Pid) : Activity → Bool
  | .task restart => decide (restart.replacement = some q)
  | _ => false

def Activity.InsertsOnce (q : Pid) (spec : ChildSpec) (s : Supervisor) : Activity → Prop
  | .task restart => restart.stage = .insertNew q → q ∉ s.registered ∧ restart.spec = spec
  | _ => True

/-- The replacement `q` is new: nobody but the restart task of `spec` registers
    it, once, and its exit is notified after a factory has returned it. -/
def NewReplacement (q : Pid) (spec : ChildSpec) (c : Config Supervisor Activity) :
    Move Activity Outside Registration → Prop
  | .start (.notify call) => call.pid = q → c.threads.any (Activity.returned q) = true
  | .start _ => True
  | .step index _ => ∀ activity ∈ c.threads[index]?, activity.InsertsOnce q spec c.shared
  | .ambient registration => registration.pid ≠ q

/-- No `notify_exit` looks `q` up before the restart task has inserted it. -/
def LookedUpLate (q : Pid) (c : Config Supervisor Activity) : Move Activity Outside Registration → Prop
  | .step index _ => c.threads[index]? = some (.notify ⟨q, .lookup⟩) → q ∈ c.shared.registered
  | _ => True

namespace Activity

/-- The exit of `q` has been notified. -/
def Notified (q : Pid) : Activity → Prop
  | .notify call => call.pid = q ∧ call.stage ≠ .flag
  | _ => False

/-- The activity is going to take `q` out of `children`. -/
def Carries (q : Pid) : Activity → Prop
  | .notify call =>
    match call.stage with
    | .flag | .unflag | .returned => False
    | .lookup | .snapshot | .spawnOne _ => call.pid = q
    | .flagGroup done todo => q ∈ keysOf (done ++ todo)
    | .spawnGroup todo => q ∈ keysOf todo
  | .task restart => restart.orig = q ∧ restart.removes = true
  | .removal _ => False

/-- A restart attempt of `q` with its spec was made, or `q` was removed. -/
def Answers (q : Pid) (spec : ChildSpec) : Activity → Prop
  | .notify _ => False
  | .task restart => restart.orig = q ∧ restart.spec = spec ∧ 0 < restart.attempts
  | .removal call => call.pid = q ∧ call.stage ≠ .dropChild

/-- What an activity has read of `q` is true: it was registered with `spec`. -/
def Knows (q : Pid) (spec : ChildSpec) (s : Supervisor) : Activity → Prop
  | .notify call =>
    match call.stage with
    | .unflag => call.pid = q → q ∈ s.registered ∧ q ∉ s.children
    | .snapshot => call.pid = q → q ∈ s.registered
    | .spawnOne found => call.pid = q → q ∈ s.registered ∧ found = spec
    | .flagGroup done todo => ∀ child ∈ done ++ todo, child.1 = q → q ∈ s.registered ∧ child.2 = spec
    | .spawnGroup todo => ∀ child ∈ todo, child.1 = q → q ∈ s.registered ∧ child.2 = spec
    | _ => True
  | .task restart => restart.orig = q → q ∈ s.registered ∧ restart.spec = spec ∧
      (restart.stage ≠ .call → 0 < restart.attempts) ∧ (restart.removes = false → q ∉ s.children)
  | .removal _ => True

end Activity

/-- `q` is supervised or will be. -/
def Supervisor.Expects (s : Supervisor) (q : Pid) : Prop := q ∈ s.registered → q ∈ s.children

structure Handled (q : Pid) (spec : ChildSpec) (c : Config Supervisor Activity) : Prop where
  known : ∀ activity ∈ c.threads, activity.Knows q spec c.shared
  child : ∀ found, c.shared.children.lookup q = some found → q ∈ c.shared.registered ∧ found = spec
  carried : c.shared.Expects q → (q ∈ c.shared.restarting ∨ ∃ activity ∈ c.threads, activity.Notified q) →
    ∃ activity ∈ c.threads, activity.Carries q
  answered : q ∈ c.shared.registered → q ∉ c.shared.children → ∃ activity ∈ c.threads, activity.Answers q spec

/-- What one step may do to the entry of `q`. -/
structure Follows (q : Pid) (spec : ChildSpec) (s later : Supervisor) : Prop where
  registered : q ∈ s.registered → q ∈ later.registered
  gone : q ∈ s.registered → q ∉ s.children → q ∉ later.children
  inserted : q ∉ s.registered → q ∈ later.registered → q ∈ later.children
  child : (∀ found, s.children.lookup q = some found → q ∈ s.registered ∧ found = spec) →
    ∀ found, later.children.lookup q = some found → q ∈ later.registered ∧ found = spec

theorem Follows.same {s later : Supervisor} (children : later.children = s.children)
    (registered : later.registered = s.registered) : Follows q spec s later := by
  refine ⟨?_, ?_, ?_, ?_⟩
  · rw [registered]
    exact id
  · rw [children]
    exact fun _ => id
  · rw [registered]
    exact fun unused used => absurd used unused
  · rw [children, registered]
    exact id

theorem Follows.addChild {s : Supervisor} {pid : Pid} {found : ChildSpec}
    (mine : pid = q → q ∉ s.registered ∧ found = spec) : Follows q spec s (s.addChild pid found) := by
  by_cases same : pid = q
  · obtain ⟨unused, rfl⟩ := mine same
    subst same
    refine ⟨fun used => absurd used unused, fun used => absurd used unused, ?_, ?_⟩
    · exact fun _ _ => AList.mem_insert _ |>.mpr (.inl rfl)
    · intro _ other lookup
      rw [Supervisor.addChild, AList.lookup_insert] at lookup
      exact ⟨List.mem_cons_self, (Option.some.inj lookup).symm⟩
  · have children : (s.addChild pid found).children.lookup q = s.children.lookup q :=
      AList.lookup_insert_ne (Ne.symm same)
    have registered : q ∈ (s.addChild pid found).registered ↔ q ∈ s.registered := by
      rw [Supervisor.addChild, List.mem_cons]
      exact or_iff_right (Ne.symm same)
    have member : q ∈ (s.addChild pid found).children ↔ q ∈ s.children := by
      rw [← AList.lookup_isSome, children, AList.lookup_isSome]
    refine ⟨registered.mpr, fun _ => mt member.mp, fun unused used => absurd (registered.mp used) unused, ?_⟩
    intro known other lookup
    rw [children] at lookup
    exact ⟨registered.mpr (known other lookup).1, (known other lookup).2⟩

theorem Follows.dropChild {s : Supervisor} {pid : Pid} : Follows q spec s (s.dropChild pid) := by
  refine ⟨id, fun _ => mt fun member => (AList.mem_erase.mp member).2, fun unused used => absurd used unused, ?_⟩
  intro known found lookup
  by_cases same : q = pid
  · rw [Supervisor.dropChild, same, AList.lookup_erase] at lookup
    cases lookup
  · rw [Supervisor.dropChild, AList.lookup_erase_ne same] at lookup
    exact known found lookup

theorem Activity.step_follows {s later : Supervisor} {activity next : Activity} {new : List Activity}
    (steps : activity.Steps s later next new)
    (fresh : activity.InsertsOnce q spec s) : Follows q spec s later := by
  cases Activity.step_changes steps with
  | same children registered => exact .same children registered
  | insert pid restart mine stage inserted =>
    subst mine
    rw [inserted]
    apply Follows.addChild
    rintro rfl
    exact fresh stage
  | drop pid dropped =>
    rw [dropped]
    exact .dropChild

theorem Follows.expects {s later : Supervisor} (follows : Follows q spec s later) (expects : later.Expects q) :
    s.Expects q := by
  intro used
  by_contra gone
  exact follows.gone used gone (expects (follows.registered used))

theorem Activity.Knows.frame {s later : Supervisor} {activity : Activity} (knows : activity.Knows q spec s)
    (follows : Follows q spec s later) : activity.Knows q spec later := by
  cases activity with
  | notify call =>
    obtain ⟨own, stage⟩ := call
    cases stage with
    | unflag =>
      intro mine
      obtain ⟨used, gone⟩ := knows mine
      exact ⟨follows.registered used, follows.gone used gone⟩
    | snapshot => exact fun mine => follows.registered (knows mine)
    | spawnOne found => exact fun mine => ⟨follows.registered (knows mine).1, (knows mine).2⟩
    | flagGroup done todo =>
      exact fun child member mine => ⟨follows.registered (knows child member mine).1, (knows child member mine).2⟩
    | spawnGroup todo =>
      exact fun child member mine => ⟨follows.registered (knows child member mine).1, (knows child member mine).2⟩
    | _ => trivial
  | task restart =>
    intro mine
    obtain ⟨used, same, tried, gone⟩ := knows mine
    exact ⟨follows.registered used, same, tried, fun removed => follows.gone used (gone removed)⟩
  | removal call => trivial

theorem snapshot_lookup {s : Supervisor} {order : List Pid} {child : Pid × ChildSpec}
    (member : child ∈ Notify.snapshot s order) : s.children.lookup child.1 = some child.2 := by
  obtain ⟨pid, -, found⟩ := List.mem_filterMap.mp member
  obtain ⟨spec, lookup, rfl⟩ := Option.map_eq_some_iff.mp found
  exact lookup

theorem Notify.step_knows {s later : Supervisor} {call next : Notify} {tasks : List Task}
    (child : ∀ found, s.children.lookup q = some found → q ∈ s.registered ∧ found = spec)
    (late : call = ⟨q, .lookup⟩ → q ∈ s.registered) (steps : Steps s call later next tasks)
    (knows : (Activity.notify call).Knows q spec s) :
    (Activity.notify next).Knows q spec later ∧ ∀ other ∈ tasks.map Activity.task, other.Knows q spec later := by
  cases steps with
  | unknown absent =>
    refine ⟨?_, by simp⟩
    rintro rfl
    exact ⟨late rfl, AList.lookup_eq_none.mp absent⟩
  | foundAll found all =>
    refine ⟨?_, by simp⟩
    rintro rfl
    exact (child _ found).1
  | foundOne found one =>
    refine ⟨?_, by simp⟩
    rintro rfl
    exact child _ found
  | read whole =>
    refine ⟨?_, by simp⟩
    rintro entry member rfl
    exact child _ (snapshot_lookup member)
  | @claimed own done todo entry =>
    refine ⟨?_, by simp⟩
    intro other member
    rw [List.append_assoc, List.singleton_append] at member
    exact knows other member
  | @marked own done =>
    refine ⟨?_, by simp⟩
    intro other member
    exact knows other (by rwa [List.append_nil])
  | @spawned own todo entry =>
    refine ⟨fun other member => knows other (List.mem_cons_of_mem _ member), ?_⟩
    intro other member
    rw [List.mem_singleton.mp member]
    intro mine
    obtain ⟨used, same⟩ := knows entry List.mem_cons_self mine
    exact ⟨used, same, fun moved => absurd rfl moved, fun removed => by cases removed⟩
  | @spawnedOne own found =>
    refine ⟨trivial, ?_⟩
    intro other member
    rw [List.mem_singleton.mp member]
    intro mine
    obtain ⟨used, same⟩ := knows mine
    exact ⟨used, same, fun moved => absurd rfl moved, fun removed => by cases removed⟩
  | _ => exact ⟨trivial, by simp⟩

theorem Task.step_knows {s later : Supervisor} {task next : Task} (follows : Follows q spec s later)
    (steps : Steps s task later next) (knows : (Activity.task task).Knows q spec s) :
    (Activity.task next).Knows q spec later := by
  have framed := knows.frame follows
  cases steps with
  | answered stage answer =>
    intro mine
    obtain ⟨used, same, -, -⟩ := knows mine
    exact ⟨used, same, fun _ => Nat.succ_pos _, fun removed => by cases removed⟩
  | refused stage =>
    intro mine
    obtain ⟨used, same, -, -⟩ := knows mine
    exact ⟨used, same, fun _ => Nat.succ_pos _, fun removed => by cases removed⟩
  | waited stage =>
    intro mine
    obtain ⟨used, same, -, -⟩ := knows mine
    exact ⟨used, same, fun moved => absurd rfl moved, fun removed => by cases removed⟩
  | removed stage =>
    intro mine
    obtain ⟨used, same, tried, -⟩ := knows mine
    refine ⟨used, same, fun _ => tried (by simp [stage]), fun _ member => ?_⟩
    exact (AList.mem_erase.mp member).1 mine.symm
  | inserted stage | gaveUp stage last | failed stage more =>
    intro mine
    obtain ⟨used, same, tried, -⟩ := framed mine
    exact ⟨used, same, fun _ => tried (by simp [stage]), fun removed => by cases removed⟩
  | tookLinks stage | forgot stage | forgotAll stage | cleared stage =>
    intro mine
    obtain ⟨used, same, tried, gone⟩ := framed mine
    exact ⟨used, same, fun _ => tried (by simp [stage]), fun _ => gone (by simp [Task.removes, stage])⟩

theorem Activity.step_knows {s later : Supervisor} {activity next : Activity} {new : List Activity}
    (child : ∀ found, s.children.lookup q = some found → q ∈ s.registered ∧ found = spec)
    (late : activity = .notify ⟨q, .lookup⟩ → q ∈ s.registered) (follows : Follows q spec s later)
    (steps : activity.Steps s later next new) (knows : activity.Knows q spec s) :
    next.Knows q spec later ∧ ∀ other ∈ new, other.Knows q spec later := by
  cases steps with
  | notify steps => exact Notify.step_knows child (fun same => late (congrArg _ same)) steps knows
  | task stepped => exact ⟨Task.step_knows follows (Task.steps_of_step stepped) knows, by simp⟩
  | removal stepped => exact ⟨trivial, by simp⟩

theorem Notify.step_carries {s later : Supervisor} {call next : Notify} {tasks : List Task} (expects : s.Expects q)
    (late : call = ⟨q, .lookup⟩ → q ∈ s.registered) (knows : (Activity.notify call).Knows q spec s)
    (steps : Steps s call later next tasks) (carries : (Activity.notify call).Carries q) :
    (Activity.notify next).Carries q ∨ ∃ other ∈ tasks.map Activity.task, other.Carries q := by
  cases steps with
  | ignored busy => exact absurd carries id
  | flagged free => exact absurd carries id
  | @unknown own absent =>
    have mine : own = q := carries
    subst mine
    exact absurd (expects (late rfl)) (AList.lookup_eq_none.mp absent)
  | foundAll found all => exact .inl carries
  | foundOne found one => exact .inl carries
  | unflagged => exact absurd carries id
  | @read own order whole =>
    left
    show q ∈ keysOf ([] ++ snapshot s order)
    rw [List.nil_append, snapshot_keys s whole, whole.mem_iff]
    exact AList.mem_keys.mp (expects (knows carries))
  | @claimed own done todo child =>
    left
    show q ∈ keysOf (done ++ [child] ++ todo)
    rwa [List.append_assoc, List.singleton_append]
  | @marked own done =>
    left
    have group : q ∈ keysOf (done ++ []) := carries
    rwa [List.append_nil] at group
  | @spawned own todo child =>
    rcases List.mem_cons.mp (show q ∈ child.1 :: keysOf todo from carries) with same | later
    · exact .inr ⟨_, List.mem_singleton_self _, same.symm, rfl⟩
    · exact .inl later
  | spawnedAll => exact absurd carries List.not_mem_nil
  | spawnedOne => exact .inr ⟨_, List.mem_singleton_self _, carries, rfl⟩

theorem Task.step_carries {s later : Supervisor} {task next : Task} (expects : later.Expects q)
    (knows : (Activity.task task).Knows q spec s) (steps : Steps s task later next)
    (carries : (Activity.task task).Carries q) : (Activity.task next).Carries q := by
  rcases carries with ⟨mine, removes⟩
  cases steps with
  | removed stage =>
    have member := expects (knows mine).1
    exact absurd mine.symm (AList.mem_erase.mp member).1
  | tookLinks stage | forgot stage | forgotAll stage | cleared stage =>
    rw [Task.removes, stage] at removes
    cases removes
  | _ => exact ⟨mine, rfl⟩

theorem Activity.step_carries {s later : Supervisor} {activity next : Activity} {new : List Activity}
    (follows : Follows q spec s later) (expects : later.Expects q)
    (late : activity = .notify ⟨q, .lookup⟩ → q ∈ s.registered) (knows : activity.Knows q spec s)
    (steps : activity.Steps s later next new) (carries : activity.Carries q) :
    next.Carries q ∨ ∃ other ∈ new, other.Carries q := by
  cases steps with
  | notify steps =>
    exact Notify.step_carries (follows.expects expects) (fun same => late (congrArg _ same)) knows steps carries
  | task stepped => exact .inl (Task.step_carries expects knows (Task.steps_of_step stepped) carries)
  | removal stepped => exact absurd carries id

theorem Activity.Flagged.carries {activity : Activity} (flagged : activity.Flagged q) : activity.Carries q := by
  cases flagged with
  | own => exact rfl
  | group member => exact member

/-- A notification that comes while `q` is restarting is ignored. -/
theorem Activity.step_notified {s later : Supervisor} {activity next : Activity} {new : List Activity}
    (steps : activity.Steps s later next new) {other : Activity} (member : other ∈ next :: new)
    (notified : other.Notified q) : activity.Notified q ∨ q ∈ s.restarting ∨ next.Carries q := by
  cases steps with
  | @notify _ call following tasks steps =>
    have mine : other = .notify following := by
      rcases List.mem_cons.mp member with same | spawned
      · exact same
      · obtain ⟨restart, -, rfl⟩ := List.mem_map.mp spawned
        exact absurd notified id
    subst mine
    cases steps with
    | @ignored own busy => exact .inr (.inl (notified.1 ▸ busy))
    | flagged free => exact .inr (.inr notified.1)
    | _ => exact .inl ⟨notified.1, by simp⟩
  | task stepped =>
    rw [List.mem_singleton.mp member] at notified
    exact absurd notified id
  | removal stepped =>
    rw [List.mem_singleton.mp member] at notified
    exact absurd notified id

theorem Activity.step_answers {s later : Supervisor} {activity next : Activity} {new : List Activity}
    (steps : activity.Steps s later next new) (answers : activity.Answers q spec) : next.Answers q spec := by
  cases steps with
  | notify steps => exact absurd answers id
  | task stepped =>
    rcases answers with ⟨mine, same, tried⟩
    cases Task.steps_of_step stepped with
    | answered stage answer => exact ⟨mine, same, Nat.succ_pos _⟩
    | refused stage => exact ⟨mine, same, Nat.succ_pos _⟩
    | _ => exact ⟨mine, same, tried⟩
  | @removal _ call next stepped =>
    rcases answers with ⟨mine, late⟩
    cases Removal.steps_of_step stepped with
    | dropped stage => exact absurd stage late
    | cleared stage =>
      refine ⟨mine, ?_⟩
      dsimp only
      split <;> nofun
    | _ => exact ⟨mine, nofun⟩

theorem Activity.Drops.answers {s : Supervisor} {activity next : Activity} (drops : Drops q activity next)
    (knows : activity.Knows q spec s) : next.Answers q spec := by
  cases drops with
  | task mine stage =>
    obtain ⟨-, same, tried, -⟩ := knows mine
    exact ⟨mine, same, tried (by rw [stage]; nofun)⟩
  | removal mine stage => exact ⟨mine, nofun⟩

theorem Handled.step {s later : Supervisor} {before after new : List Activity} {activity next : Activity}
    (handled : Handled q spec ⟨s, before ++ activity :: after⟩)
    (fresh : activity.InsertsOnce q spec s) (late : activity = .notify ⟨q, .lookup⟩ → q ∈ s.registered)
    (steps : activity.Steps s later next new) :
    Handled q spec ⟨later, before ++ next :: (after ++ new)⟩ := by
  have follows := Activity.step_follows steps fresh
  have knows := handled.known activity (List.mem_append_right _ List.mem_cons_self)
  have knowing := Activity.step_knows handled.child late follows steps knows
  refine ⟨?_, follows.child handled.child, ?_, ?_⟩
  · have framed : ∀ other ∈ before ++ activity :: after, other.Knows q spec later :=
      fun other member => (handled.known other member).frame follows
    exact Program.forall_replace_append framed knowing.1 knowing.2
  · intro expects cause
    have mine : next.Carries q → ∃ other ∈ before ++ next :: (after ++ new), other.Carries q :=
      fun carries => ⟨next, by simp, carries⟩
    have earlier : (q ∈ s.restarting ∨ ∃ other ∈ before ++ activity :: after, other.Notified q) →
        ∃ other ∈ before ++ next :: (after ++ new), other.Carries q := by
      intro cause
      apply Program.exists_replace_append (handled.carried (follows.expects expects) cause)
      · exact fun other carries => .inl carries
      · exact fun carries => Activity.step_carries follows expects late knows steps carries
    rcases cause with flagged | ⟨other, member, notified⟩
    · rcases Activity.step_flags steps flagged with before | set
      · exact earlier (.inl before)
      · exact mine set.carries
    · rcases Program.mem_replace_append member with old | moved
      · exact earlier (.inr ⟨other, old, notified⟩)
      · rcases Activity.step_notified steps moved notified with old | flagged | carries
        · exact earlier (.inr ⟨activity, by simp, old⟩)
        · exact earlier (.inl flagged)
        · exact mine carries
  · intro used gone
    by_cases before : q ∈ s.registered
    · by_cases child : q ∈ s.children
      · rcases Activity.step_drops steps child with stays | drops
        · exact absurd stays gone
        · exact ⟨next, by simp, drops.answers knows⟩
      · apply Program.exists_replace_append (handled.answered before child)
        · exact fun other answers => .inl answers
        · exact fun answers => .inl (Activity.step_answers steps answers)
    · exact absurd (follows.inserted before used) gone

theorem Handled.register {s : Supervisor} {threads : List Activity} (handled : Handled q spec ⟨s, threads⟩)
    {pid : Pid} {found : ChildSpec} (other : pid ≠ q) : Handled q spec ⟨s.addChild pid found, threads⟩ := by
  have follows : Follows q spec s (s.addChild pid found) := .addChild fun same => absurd same other
  refine ⟨?_, follows.child handled.child, ?_, ?_⟩
  · exact fun activity member => (handled.known activity member).frame follows
  · exact fun expects cause => handled.carried (follows.expects expects) cause
  · intro used gone
    rcases List.mem_cons.mp used with same | used
    · exact absurd same.symm other
    · exact handled.answered used fun child => gone (AList.mem_insert _ |>.mpr (.inr child))

/-- The replacement is new, and no `notify_exit` looks it up too early. -/
def Timely (q : Pid) (spec : ChildSpec) (c : Config Supervisor Activity)
    (move : Move Activity Outside Registration) : Prop := NewReplacement q spec c move ∧ LookedUpLate q c move

theorem Handled.move {c d : Config Supervisor Activity} {move : Move Activity Outside Registration}
    (handled : Handled q spec c) (timely : Timely q spec c move) (moves : supervision.Moves c move d) :
    Handled q spec d := by
  cases moves with
  | @start shared threads activity allowed =>
    have idle : ¬ activity.Notified q := by
      cases activity with
      | notify call => exact fun notified => notified.2 (of_decide_eq_true allowed)
      | task restart => exact id
      | removal call => exact id
    refine ⟨?_, handled.child, ?_, ?_⟩
    · rw [List.forall_mem_append, List.forall_mem_singleton]
      refine ⟨handled.known, ?_⟩
      cases activity with
      | notify call =>
        rcases call with ⟨own, stage⟩
        have stage : stage = .flag := of_decide_eq_true allowed
        subst stage
        trivial
      | task restart => cases allowed
      | removal call => trivial
    · intro expects cause
      have earlier : q ∈ shared.restarting ∨ ∃ other ∈ threads, other.Notified q := by
        rcases cause with flagged | ⟨other, member, notified⟩
        · exact .inl flagged
        · rcases List.mem_append.mp member with old | new
          · exact .inr ⟨other, old, notified⟩
          · rw [List.mem_singleton.mp new] at notified
            exact absurd notified idle
      obtain ⟨other, member, carries⟩ := handled.carried expects earlier
      exact ⟨other, List.mem_append_left _ member, carries⟩
    · intro used gone
      obtain ⟨other, member, answers⟩ := handled.answered used gone
      exact ⟨other, List.mem_append_left _ member, answers⟩
  | @step shared later before after new activity next outside stepped =>
    have found : (before ++ activity :: after)[before.length]? = some activity := by simp
    apply handled.step (timely.1 activity found) _ (Activity.steps_of_step stepped)
    rintro rfl
    exact timely.2 found
  | @ambient shared later threads registration done =>
    cases registration with
    | addChild pid found =>
      cases done
      exact handled.register timely.1
    | watch pid =>
      cases done
      exact handled.register timely.1

theorem handled_start {s : Supervisor} (unused : q ∉ s.children) (unflagged : q ∉ s.restarting) :
    Handled q spec ⟨s.recorded, []⟩ := by
  refine ⟨by simp, ?_, ?_, ?_⟩
  · intro found lookup
    have child : q ∈ s.children := AList.lookup_isSome.mp (Option.isSome_iff_exists.mpr ⟨found, lookup⟩)
    exact absurd child unused
  · rintro - (flagged | ⟨activity, member, -⟩)
    · exact absurd flagged unflagged
    · cases member
  · exact fun used => absurd (AList.mem_keys.mpr used) unused

/-- No `notify_exit` and no restart task is in progress. -/
def Activity.Idle : Activity → Prop
  | .removal _ => True
  | activity => activity.Ended

instance : DecidablePred Activity.Idle
  | .notify call => inferInstanceAs (Decidable (call.stage = .returned))
  | .task restart => inferInstanceAs (Decidable (restart.stage = .finished))
  | .removal _ => .isTrue trivial

theorem Activity.Idle.not_carries {activity : Activity} (idle : activity.Idle) : ¬ activity.Carries q := by
  cases activity with
  | notify call =>
    intro carries
    rw [Carries, show call.stage = .returned from idle] at carries
    exact carries
  | task restart =>
    rintro ⟨-, removes⟩
    rw [Task.removes, show restart.stage = .finished from idle] at removes
    cases removes
  | removal call => exact id

/-- The exit of a replacement is not lost, if no `notify_exit` looks it up before its insertion. -/
theorem exit_of_replacement_answered {s : Supervisor} (unused : q ∉ s.children) (unflagged : q ∉ s.restarting)
    {moves : List (Move Activity Outside Registration)} {d : Config Supervisor Activity}
    (meets : supervision.machine.Meets (Timely q spec) ⟨s.recorded, []⟩ moves)
    (reached : supervision.machine.run ⟨s.recorded, []⟩ moves = some d) (idle : ∀ activity ∈ d.threads, activity.Idle)
    (exited : ∃ call, Activity.notify call ∈ d.threads ∧ call.pid = q) :
    q ∉ d.shared.children ∧ ∃ activity ∈ d.threads, activity.Answers q spec := by
  have handled : Handled q spec d :=
    supervision.run_invariant_of_meets (fun _ _ _ handled timely moves => handled.move timely moves)
      (handled_start unused unflagged) meets reached
  have gone : ¬ d.shared.Expects q := by
    intro expects
    obtain ⟨call, member, mine⟩ := exited
    have returned : call.stage = .returned := idle _ member
    have notified : (Activity.notify call).Notified q := ⟨mine, by rw [returned]; nofun⟩
    obtain ⟨activity, present, carries⟩ := handled.carried expects (.inr ⟨_, member, notified⟩)
    exact (idle activity present).not_carries carries
  rw [Supervisor.Expects, Classical.not_imp] at gone
  exact ⟨gone.2, handled.answered gone.1 gone.2⟩

instance (s : Supervisor) : DecidablePred (Activity.InsertsOnce q spec s)
  | .notify _ => .isTrue trivial
  | .task restart =>
    inferInstanceAs (Decidable (restart.stage = .insertNew q → q ∉ s.registered ∧ restart.spec = spec))
  | .removal _ => .isTrue trivial

instance (c : Config Supervisor Activity) : DecidablePred (NewReplacement q spec c)
  | .start (.notify call) => inferInstanceAs (Decidable (call.pid = q → c.threads.any (Activity.returned q) = true))
  | .start (.task _) => .isTrue trivial
  | .start (.removal _) => .isTrue trivial
  | .step index _ => inferInstanceAs (Decidable (∀ activity ∈ c.threads[index]?, activity.InsertsOnce q spec c.shared))
  | .ambient registration => inferInstanceAs (Decidable (registration.pid ≠ q))

instance (c : Config Supervisor Activity) : DecidablePred (LookedUpLate q c)
  | .start _ => .isTrue trivial
  | .step index _ =>
    inferInstanceAs (Decidable (c.threads[index]? = some (.notify ⟨q, .lookup⟩) → q ∈ c.shared.registered))
  | .ambient _ => .isTrue trivial

instance (c : Config Supervisor Activity) : DecidablePred (Timely q spec c) :=
  fun move => inferInstanceAs (Decidable (NewReplacement q spec c move ∧ LookedUpLate q c move))

/-- Child 1 is replaced by 2, which exits at once; its exit is looked up after
    `early` steps of the restart task. -/
def promptExit (early : Nat) : List (Move Activity Outside Registration) :=
  let restart : Move Activity Outside Registration := .step 1 ⟨.ok 2, []⟩
  let lookup : List (Move Activity Outside Registration) := List.replicate 3 (.step 2 ⟨.ok 2, []⟩)
  [.ambient (.addChild 1 ⟨.foreign 0, .restartOne⟩), .start (.notify (.new 1)), .step 0 ⟨.ok 2, []⟩,
    .step 0 ⟨.ok 2, []⟩, .step 0 ⟨.ok 2, []⟩, restart, .start (.notify (.new 2))] ++
  List.replicate early restart ++ lookup ++ List.replicate (5 - early) restart

def promptExitAnswered : List (Move Activity Outside Registration) :=
  promptExit 1 ++ List.replicate 6 (.step 3 ⟨.ok 3, []⟩)

theorem exit_of_replacement_answered_prompt :
    (supervision.machine.run ⟨Supervisor.new.recorded, []⟩ promptExitAnswered).isSome = true ∧
    ∀ d, supervision.machine.run ⟨Supervisor.new.recorded, []⟩ promptExitAnswered = some d →
      2 ∉ d.shared.children ∧ ∃ activity ∈ d.threads, activity.Answers 2 ⟨.foreign 0, .restartOne⟩ := by
  have meets : supervision.machine.Meets (Timely 2 ⟨.foreign 0, .restartOne⟩) ⟨Supervisor.new.recorded, []⟩
      promptExitAnswered := Machine.meets_of_checks _ (by decide +kernel)
  have final : ((supervision.machine.run ⟨Supervisor.new.recorded, []⟩ promptExitAnswered).map fun d =>
      decide ((∀ activity ∈ d.threads, activity.Idle) ∧ .notify ⟨2, .returned⟩ ∈ d.threads)) = some true := by
    decide +kernel
  refine ⟨by decide +kernel, fun d reached => ?_⟩
  rw [reached, Option.map_some] at final
  obtain ⟨idle, exited⟩ := of_decide_eq_true (Option.some.inj final)
  exact exit_of_replacement_answered (by decide) (by decide) meets reached idle ⟨_, exited, rfl⟩

theorem prompt_exit_lost :
    ¬ ∀ (s : Supervisor) (q : Pid) (spec : ChildSpec) (moves : List (Move Activity Outside Registration))
      (d : Config Supervisor Activity), q ∉ s.children → q ∉ s.restarting →
      supervision.machine.Meets (NewReplacement q spec) ⟨s.recorded, []⟩ moves →
      supervision.machine.run ⟨s.recorded, []⟩ moves = some d → (∀ activity ∈ d.threads, activity.Idle) →
      (∃ call, Activity.notify call ∈ d.threads ∧ call.pid = q) →
      q ∉ d.shared.children ∧ ∃ activity ∈ d.threads, activity.Answers q spec := by
  intro claim
  have meets : supervision.machine.Meets (NewReplacement 2 ⟨.foreign 0, .restartOne⟩) ⟨Supervisor.new.recorded, []⟩
      (promptExit 0) := Machine.meets_of_checks _ (by decide +kernel)
  obtain ⟨d, reached, idle, exited, child⟩ :
      ∃ d, supervision.machine.run ⟨Supervisor.new.recorded, []⟩ (promptExit 0) = some d ∧
        (∀ activity ∈ d.threads, activity.Idle) ∧ .notify ⟨2, .returned⟩ ∈ d.threads ∧ 2 ∈ d.shared.children :=
    Machine.exists_of_check _ (by decide +kernel)
  exact (claim .new 2 _ _ d (by decide) (by decide) meets reached idle ⟨_, exited, rfl⟩).1 child

end Myrmidon
