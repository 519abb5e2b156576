import Myrmidon.Registry.Reachability
import Myrmidon.Runtime.Completion
import Myrmidon.Supervisor.Replacement

namespace Myrmidon

/-- `notify_exit` from here to its return, alone, with the restart tasks it spawns. -/
inductive Notify.Returns : Supervisor → Notify → Supervisor → List Task → Prop where
  | returned {s : Supervisor} {pid : Pid} : Returns s ⟨pid, .returned⟩ s []
  | step {s middle later : Supervisor} {call next : Notify} {order : List Pid} {tasks rest : List Task}
      (stepped : call.step s order = some (middle, next, tasks)) (returns : Returns middle next later rest) :
      Returns s call later (tasks ++ rest)

/-- The supervisors of a runtime: the global one and those of paths. -/
structure Supervisors where
  supervisor : Supervisor
  pathSupervisors : AList fun _ : String => Supervisor

namespace Supervisors

def new : Supervisors := ⟨.new, ∅⟩

def supervise (rt : Supervisors) (pid : Pid) (factory : Factory) (strategy : RestartStrategy) : Supervisors :=
  { rt with supervisor := rt.supervisor.addChild pid ⟨factory, strategy⟩ }

def pathSupervisorWatch (rt : Supervisors) (path : String) (pid : Pid) : Supervisors :=
  match rt.pathSupervisors.lookup path with
  | some entry => { rt with pathSupervisors := rt.pathSupervisors.insert path (entry.watch pid) }
  | none => { rt with supervisor := rt.supervisor.watch pid }

def watchPath (rt : Supervisors) (registry : NameRegistry) (order : List String) (path : String) :
    Option Supervisors :=
  (registry.watchPath order path rt.supervisor).map fun supervisor => { rt with supervisor := supervisor }

/-- `none` is the global supervisor. -/
def get (rt : Supervisors) : Option String → Option Supervisor
  | none => some rt.supervisor
  | some path => rt.pathSupervisors.lookup path

end Supervisors

/-- The restart tasks of a child with this spec, under its strategy. -/
def Supervisor.Spawns (s : Supervisor) (pid : Pid) (spec : ChildSpec) (tasks : List Task) : Prop :=
  match spec.strategy with
  | .restartOne => tasks = [Task.new pid spec]
  | .restartAll => ∃ order : List Pid, order.Perm s.children.keys ∧
      tasks = (Notify.snapshot s order).map fun child => Task.new child.1 child.2

/-- The exit of the pid restarts it by the factory of this spec, under its strategy. -/
def Supervisor.Restarts (s : Supervisor) (pid : Pid) (spec : ChildSpec) : Prop :=
  (∃ later tasks, Notify.Returns s (.new pid) later tasks) ∧
    ∀ later tasks, Notify.Returns s (.new pid) later tasks → Task.new pid spec ∈ tasks ∧ s.Spawns pid spec tasks

namespace Notify

theorem exists_returns (s : Supervisor) (call : Notify) : ∃ later tasks, Returns s call later tasks := by
  apply Notify.backwards (Q := fun s call => ∃ later tasks, Returns s call later tasks)
  · intro s own
    exact ⟨s, [], .returned⟩
  · intro s middle call next tasks steps returns
    obtain ⟨later, rest, returns⟩ := returns
    obtain ⟨order, stepped⟩ := step_of_steps steps
    exact ⟨later, tasks ++ rest, .step stepped returns⟩

variable {s later : Supervisor} {pid : Pid} {spec : ChildSpec} {tasks : List Task}

theorem Returns.spawnOne (returns : Returns s ⟨pid, .spawnOne spec⟩ later tasks) : tasks = [Task.new pid spec] := by
  cases returns with
  | step stepped returns =>
    cases stepped
    cases returns with
    | returned => rfl
    | step stepped returns => cases stepped

theorem Returns.spawnGroup {todo : List (Pid × ChildSpec)} (returns : Returns s ⟨pid, .spawnGroup todo⟩ later tasks) :
    tasks = todo.map fun child => Task.new child.1 child.2 := by
  induction todo generalizing tasks with
  | nil =>
    cases returns with
    | step stepped returns =>
      cases stepped
      cases returns with
      | returned => rfl
      | step stepped returns => cases stepped
  | cons child todo ih =>
    cases returns with
    | step stepped returns =>
      cases stepped
      rw [ih returns]
      rfl

theorem Returns.flagGroup {done todo : List (Pid × ChildSpec)}
    (returns : Returns s ⟨pid, .flagGroup done todo⟩ later tasks) :
    tasks = (done ++ todo).map fun child => Task.new child.1 child.2 := by
  induction todo generalizing s done tasks with
  | nil =>
    cases returns with
    | step stepped returns =>
      cases stepped
      rw [List.append_nil]
      exact returns.spawnGroup
  | cons child todo ih =>
    cases returns with
    | step stepped returns =>
      cases stepped
      have rest := ih returns
      rw [List.append_assoc] at rest
      exact rest

/-- `notify_exit` of a child that is not restarting. -/
theorem Returns.spawns (returns : Returns s ⟨pid, .flag⟩ later tasks) (idle : pid ∉ s.restarting)
    (found : s.children.lookup pid = some spec) : s.Spawns pid spec tasks := by
  cases returns with
  | step stepped returns =>
    cases steps_of_step stepped with
    | ignored busy => exact absurd busy idle
    | flagged free =>
      cases returns with
      | step stepped returns =>
        cases steps_of_step stepped with
        | unknown absent => cases found.symm.trans absent
        | @foundOne _ entry lookup one =>
          have same : entry = spec := Option.some.inj (lookup.symm.trans found)
          rw [same] at returns one
          simp only [Supervisor.Spawns, one]
          exact returns.spawnOne
        | @foundAll _ entry lookup all =>
          have same : entry = spec := Option.some.inj (lookup.symm.trans found)
          rw [same] at all
          simp only [Supervisor.Spawns, all]
          cases returns with
          | step stepped returns =>
            cases steps_of_step stepped with
            | @read _ order whole => exact ⟨order, whole, returns.flagGroup⟩

theorem mem_snapshot {order : List Pid} (whole : order.Perm s.children.keys) :
    (pid, spec) ∈ snapshot s order ↔ s.children.lookup pid = some spec := by
  constructor
  · exact snapshot_lookup
  · intro found
    have present : pid ∈ s.children.keys := AList.lookup_isSome.mp (by rw [found]; rfl)
    exact List.mem_filterMap.mpr ⟨pid, whole.mem_iff.mpr present, by rw [found]; rfl⟩

end Notify

/-- An idle child is restarted as its entry says, and in no other way. -/
theorem Supervisor.restarts_iff {s : Supervisor} {pid : Pid} {spec : ChildSpec} (idle : pid ∉ s.restarting)
    (supervised : pid ∈ s.children) : s.Restarts pid spec ↔ s.children.lookup pid = some spec := by
  obtain ⟨entry, found⟩ := Option.isSome_iff_exists.mp (AList.lookup_isSome.mpr supervised)
  -- Every task of the pid carries its entry.
  have carried : ∀ {tasks}, s.Spawns pid entry tasks → (Task.new pid spec ∈ tasks ↔ spec = entry) := by
    intro tasks spawns
    cases strategy : entry.strategy with
    | restartOne =>
      simp only [Spawns, strategy] at spawns
      simp [spawns, Task.new]
    | restartAll =>
      simp only [Spawns, strategy] at spawns
      obtain ⟨order, whole, rfl⟩ := spawns
      have member : Task.new pid spec ∈ (Notify.snapshot s order).map (fun child => Task.new child.1 child.2) ↔
          (pid, spec) ∈ Notify.snapshot s order := by
        simp [Task.new]
      rw [member, Notify.mem_snapshot whole, found, Option.some.injEq, eq_comm]
  constructor
  · rintro ⟨⟨later, tasks, returns⟩, restarts⟩
    rw [found, (carried (returns.spawns idle found)).mp (restarts later tasks returns).1]
  · intro same
    have equal : spec = entry := Option.some.inj (same.symm.trans found)
    refine ⟨Notify.exists_returns s (.new pid), ?_⟩
    intro later tasks returns
    have spawns := returns.spawns idle found
    refine ⟨(carried spawns).mpr equal, ?_⟩
    rw [equal]
    exact spawns

/-- Supervision is only added: every child keeps its spec, and is restarted as
    it says when it exits. -/
structure Supervisor.Kept (s later : Supervisor) : Prop where
  specs : ∀ pid spec, s.children.lookup pid = some spec → later.children.lookup pid = some spec
  restarts : ∀ pid spec, s.children.lookup pid = some spec → pid ∉ s.restarting → later.Restarts pid spec

theorem Supervisor.watchAll_restarting (s : Supervisor) (pids : List Pid) :
    (s.watchAll pids).restarting = s.restarting := by
  induction pids generalizing s with
  | nil => rfl
  | cons pid pids ih => exact ih (s.watch pid)

/-- Watching keeps the children as they are exactly if those it names are not
    supervised or already have the spec of `watch`. -/
theorem Supervisor.kept_watchAll_iff (s : Supervisor) (pids : List Pid) :
    s.Kept (s.watchAll pids) ↔ ∀ pid ∈ pids, ∀ spec, s.children.lookup pid = some spec → spec = .watching pid := by
  constructor
  · intro kept pid member spec found
    have later := kept.specs pid spec found
    rw [lookup_watchAll, if_pos member] at later
    exact (Option.some.inj later).symm
  · intro plain
    have specs : ∀ pid spec, s.children.lookup pid = some spec →
        (s.watchAll pids).children.lookup pid = some spec := by
      intro pid spec found
      rw [lookup_watchAll]
      split
      · rename_i member
        rw [plain pid member spec found]
      · exact found
    refine ⟨specs, ?_⟩
    intro pid spec found idle
    have later := specs pid spec found
    have supervised : pid ∈ (s.watchAll pids).children := AList.lookup_isSome.mp (by rw [later]; rfl)
    exact (restarts_iff (by rw [watchAll_restarting]; exact idle) supervised).mpr later

theorem Supervisor.Kept.refl (s : Supervisor) : s.Kept s :=
  (s.kept_watchAll_iff []).mpr fun _ member => absurd member List.not_mem_nil

/-- The calls that watch: `watch_path` iterates over the names in some order. -/
inductive Watching where
  | watchPath (order : List String) (path : String)
  | pathSupervisorWatch (path : String) (pid : Pid)

namespace Watching

def apply (registry : NameRegistry) (rt : Supervisors) : Watching → Option Supervisors
  | .watchPath order path => rt.watchPath registry order path
  | .pathSupervisorWatch path pid => some (rt.pathSupervisorWatch path pid)

/-- The iteration visits every name once. -/
def Whole (registry : NameRegistry) : Watching → Prop
  | .watchPath order _ => order.Perm registry.names.keys
  | .pathSupervisorWatch _ _ => True

/-- The supervisor of the call: that of the path if there is one, else the global one. -/
def target (rt : Supervisors) : Watching → Option String
  | .watchPath _ _ => none
  | .pathSupervisorWatch path _ => (rt.pathSupervisors.lookup path).map fun _ => path

/-- The call names the pid: as a direct child of the path, or itself. -/
def Names (registry : NameRegistry) (pid : Pid) : Watching → Prop
  | .watchPath _ path => ∃ key, registry.resolve key = some pid ∧
      NameRegistry.direct (trimEndSlashes path.toList) key.toList = true
  | .pathSupervisorWatch _ other => pid = other

/-- The call watches these pids in its supervisor and leaves the others alone. -/
structure Watches (registry : NameRegistry) (rt later : Supervisors) (call : Watching) (pids : List Pid) : Prop where
  named : ∀ pid, pid ∈ pids ↔ call.Names registry pid
  watched : ∀ s, rt.get (call.target rt) = some s → later.get (call.target rt) = some (s.watchAll pids)
  others : ∀ place, place ≠ call.target rt → later.get place = rt.get place

theorem exists_target (rt : Supervisors) (call : Watching) : ∃ s, rt.get (call.target rt) = some s := by
  cases call with
  | watchPath order path => exact ⟨rt.supervisor, rfl⟩
  | pathSupervisorWatch path pid =>
    cases found : rt.pathSupervisors.lookup path with
    | none => exact ⟨rt.supervisor, by rw [target, found]; rfl⟩
    | some entry => exact ⟨entry, by rw [target, found]; exact found⟩

theorem watches_watchPath (registry : NameRegistry) (rt : Supervisors) {order : List String}
    (whole : order.Perm registry.names.keys) (path : String) :
    ∃ later pids, rt.watchPath registry order path = some later ∧
      (watchPath order path).Watches registry rt later pids := by
  have direct := NameRegistry.listDirectChildren_eq registry order path
  generalize (registry.iter order).filter _ = listed at direct
  refine ⟨{ rt with supervisor := rt.supervisor.watchAll (listed.map Prod.snd) }, listed.map Prod.snd, ?_, ?_, ?_, ?_⟩
  · rw [Supervisors.watchPath, NameRegistry.watchPath_eq direct]
    rfl
  · intro pid
    simp only [List.mem_map, Prod.exists, exists_eq_right, NameRegistry.mem_direct whole _ pid direct, Names]
  · intro s found
    cases found
    rfl
  · intro place other
    cases place with
    | none => exact absurd rfl other
    | some path => rfl

theorem watches_pathSupervisorWatch (registry : NameRegistry) (rt : Supervisors) (path : String) (pid : Pid) :
    (pathSupervisorWatch path pid).Watches registry rt (rt.pathSupervisorWatch path pid) [pid] := by
  have named : ∀ other, other ∈ [pid] ↔ (pathSupervisorWatch path pid).Names registry other :=
    fun other => List.mem_singleton
  cases found : rt.pathSupervisors.lookup path with
  | none =>
    have place : (pathSupervisorWatch path pid).target rt = none := by rw [target, found]; rfl
    have later : rt.pathSupervisorWatch path pid = { rt with supervisor := rt.supervisor.watch pid } := by
      rw [Supervisors.pathSupervisorWatch, found]
    refine ⟨named, ?_, ?_⟩
    · rw [place, later]
      intro s same
      cases same
      rfl
    · rw [place, later]
      intro other different
      cases other with
      | none => exact absurd rfl different
      | some path => rfl
  | some entry =>
    have place : (pathSupervisorWatch path pid).target rt = some path := by rw [target, found]; rfl
    have later : rt.pathSupervisorWatch path pid =
        { rt with pathSupervisors := rt.pathSupervisors.insert path (entry.watch pid) } := by
      rw [Supervisors.pathSupervisorWatch, found]
    refine ⟨named, ?_, ?_⟩
    · rw [place, later]
      intro s same
      have equal : entry = s := Option.some.inj (found.symm.trans same)
      rw [← equal]
      exact AList.lookup_insert rt.pathSupervisors
    · rw [place, later]
      intro other different
      cases other with
      | none => rfl
      | some key => exact AList.lookup_insert_ne fun same => different (congrArg some same)

theorem exists_watches (registry : NameRegistry) (rt : Supervisors) (call : Watching) (whole : call.Whole registry) :
    ∃ later pids, call.apply registry rt = some later ∧ call.Watches registry rt later pids := by
  cases call with
  | watchPath order path => exact watches_watchPath registry rt whole path
  | pathSupervisorWatch path pid => exact ⟨_, [pid], rfl, watches_pathSupervisorWatch registry rt path pid⟩

end Watching

/-- Watching supervises what it names. It keeps the specs of the supervised
    children, and how they are restarted, exactly if those among them that it
    names have the spec of `watch` already. -/
theorem watching_keeps_specs_iff (registry : NameRegistry) (rt : Supervisors) (call : Watching)
    (whole : call.Whole registry) :
    ∃ before later after, rt.get (call.target rt) = some before ∧ call.apply registry rt = some later ∧
      later.get (call.target rt) = some after ∧ (∀ pid, call.Names registry pid → pid ∈ after.children) ∧
      (∀ pid, ¬ call.Names registry pid → after.children.lookup pid = before.children.lookup pid) ∧
      ((∀ place s, rt.get place = some s → ∃ next, later.get place = some next ∧ s.Kept next) ↔
        ∀ pid spec, call.Names registry pid → before.children.lookup pid = some spec → spec = .watching pid) := by
  obtain ⟨before, present⟩ := call.exists_target rt
  obtain ⟨later, pids, applied, watches⟩ := call.exists_watches registry rt whole
  have after := watches.watched before present
  refine ⟨before, later, before.watchAll pids, present, applied, after, ?_, ?_, ?_⟩
  · intro pid named
    apply AList.lookup_isSome.mp
    rw [Supervisor.lookup_watchAll, if_pos ((watches.named pid).mpr named)]
    rfl
  · intro pid unnamed
    rw [Supervisor.lookup_watchAll, if_neg fun member => unnamed ((watches.named pid).mp member)]
  · have plain := before.kept_watchAll_iff pids
    constructor
    · intro kept pid spec named found
      obtain ⟨next, reached, same⟩ := kept _ before present
      have equal : before.watchAll pids = next := Option.some.inj (after.symm.trans reached)
      rw [← equal] at same
      exact plain.mp same pid ((watches.named pid).mpr named) spec found
    · intro default place s found
      by_cases mine : place = call.target rt
      · have equal : before = s := Option.some.inj (present.symm.trans (mine ▸ found))
        rw [mine, ← equal]
        refine ⟨_, after, plain.mpr ?_⟩
        intro pid member spec
        exact default pid spec ((watches.named pid).mp member)
      · exact ⟨s, (watches.others place mine).trans found, .refl s⟩

/-- A registered actor without supervision beside a supervised one. -/
def supervisedBeside : Supervisors := Supervisors.new.supervise 9 (.foreign 1) .restartAll

theorem watching_keeps_specs_iff_beside :
    ∃ later, supervisedBeside.watchPath .plainService ["/svc/one"] "/svc" = some later ∧
      later.supervisor.Restarts 9 ⟨.foreign 1, .restartAll⟩ := by
  have whole : (Watching.watchPath ["/svc/one"] "/svc").Whole .plainService := .refl _
  obtain ⟨before, later, after, present, applied, -, -, -, kept⟩ :=
    watching_keeps_specs_iff .plainService supervisedBeside (.watchPath ["/svc/one"] "/svc") whole
  have plain : ∀ pid spec, (Watching.watchPath ["/svc/one"] "/svc").Names .plainService pid →
      before.children.lookup pid = some spec → spec = .watching pid := by
    rintro pid spec ⟨key, registered, -⟩ found
    cases present
    have one : key = "/svc/one" := by
      by_contra other
      cases (AList.lookup_insert_ne other).symm.trans registered
    rw [one] at registered
    cases registered
    cases found
  obtain ⟨next, reached, same⟩ := kept.mpr plain none supervisedBeside.supervisor rfl
  cases reached
  exact ⟨later, applied, same.restarts 9 ⟨.foreign 1, .restartAll⟩ rfl (by decide)⟩

def supervisedService : Supervisors := Supervisors.new.supervise 7 (.foreign 1) .restartAll

/-- `watch_path` replaces the factory and the strategy of a supervised child. -/
theorem watch_path_replaces_factory :
    ∃ later, supervisedService.watchPath .plainService ["/svc/one"] "/svc" = some later ∧
      supervisedService.supervisor.children.lookup 7 = some ⟨.foreign 1, .restartAll⟩ ∧
      later.supervisor.children.lookup 7 = some ⟨.same 7, .restartOne⟩ ∧
      ¬ later.supervisor.Restarts 7 ⟨.foreign 1, .restartAll⟩ ∧
      ¬ supervisedService.supervisor.Kept later.supervisor := by
  have listed : NameRegistry.plainService.listDirectChildren ["/svc/one"] "/svc" = some [("/svc/one", 7)] := by
    decide +kernel
  have lost : ¬ (supervisedService.supervisor.watch 7).Restarts 7 ⟨.foreign 1, .restartAll⟩ := by
    rw [Supervisor.restarts_iff (by decide) (by decide)]
    decide
  refine ⟨{ supervisedService with supervisor := supervisedService.supervisor.watch 7 }, ?_, rfl, rfl, lost, ?_⟩
  · rw [Supervisors.watchPath, NameRegistry.watchPath_eq listed]
    rfl
  · intro kept
    exact lost (kept.restarts 7 ⟨.foreign 1, .restartAll⟩ rfl (by decide))

end Myrmidon
