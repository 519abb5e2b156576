import Myrmidon.Runtime.Projection

namespace Myrmidon

open Slab Transition

def Life.runs (pid : Pid) : Life → Bool
  | .running other _ => decide (other = pid)
  | _ => false

/-- The actor runs and was not told to stop. -/
def Live (c : Config World Life) (pid : Pid) : Prop :=
  c.threads.any (Life.runs pid) = true ∧ pid ∈ c.shared.runtime.mailboxes

instance (c : Config World Life) : DecidablePred (Live c) :=
  fun pid => inferInstanceAs (Decidable (c.threads.any (Life.runs pid) = true ∧ pid ∈ c.shared.runtime.mailboxes))

def World.used (w : World) : List Pid := w.spawned.map Prod.fst

def Runtime.registeredAt (rt : Runtime) (owner : Option Nat) : List Pid :=
  ((rt.supervisorOf owner).map Supervisor.registered).getD []

/-- The pid of the next actor was never in use. -/
def World.NextIsNew (owner : Option Nat) (w : World) : Prop :=
  match w.runtime.slab.allocate with
  | none => True
  | some (pid, _) => pid ∉ w.used ∧ pid ∉ w.runtime.registeredAt owner

def Outcome.spawns : Outcome → Bool
  | .spawned => true
  | .returned _ => false

def Outcome.answers : Outcome → Bool
  | .returned (.ok _) => true
  | _ => false

/-- A factory of the group spawns a new actor or fails. -/
def Life.SpawnsNew (owner : Option Nat) (w : World) (fate : Fate) : Life → Prop
  | .spawning => w.NextIsNew owner
  | .restart place task => (fate.outcome.spawns = true → w.NextIsNew owner) ∧
    (place = owner → task.stage = .call → callsFactory task = true ∧ fate.outcome.answers = false)
  | _ => True

def Registration.spec : Registration → ChildSpec
  | .addChild _ spec => spec
  | .watch pid => ⟨.same pid, .restartOne⟩

theorem Registration.apply_eq (registration : Registration) (s : Supervisor) :
    registration.apply s = s.addChild registration.pid registration.spec := by
  cases registration <;> rfl

/-- Every actor that is spawned is new, and so is every child that is registered. -/
def NewActors (owner : Option Nat) (c : Config World Life) : Move Life Fate Operation → Prop
  | .start _ => True
  | .step index fate => ∀ life ∈ c.threads[index]?, life.SpawnsNew owner c.shared fate
  | .ambient (.register place registration) => place = owner → ∀ s ∈ c.shared.runtime.supervisorOf owner,
      Newcomer s (tasksOf (activitiesOf owner c.threads)) registration.pid registration.spec
  | .ambient _ => True

/-- The next child that a `RestartAll` marks, other than the one that exited, is
    supervised, nobody restarts it, and its actor has exited or was stopped. -/
def Activity.MarksStopped (c : Config World Life) (s : Supervisor) : Activity → Prop
  | .notify ⟨own, .flagGroup _ (child :: _)⟩ =>
    child.1 ≠ own → (child.1 ∉ s.restarting ∧ child.1 ∈ s.children) ∧ ¬ Live c child.1
  | _ => True

def GroupStopped (owner : Option Nat) (c : Config World Life) : Move Life Fate Operation → Prop
  | .step index _ => ∀ life ∈ c.threads[index]?, ∀ activity ∈ life.activities owner,
      ∀ s ∈ c.shared.runtime.supervisorOf owner, activity.MarksStopped c s
  | _ => True

instance (owner : Option Nat) (w : World) : Decidable (w.NextIsNew owner) := by
  unfold World.NextIsNew
  split <;> infer_instance

instance (owner : Option Nat) (w : World) (fate : Fate) : DecidablePred (Life.SpawnsNew owner w fate)
  | .spawning => inferInstanceAs (Decidable (w.NextIsNew owner))
  | .restart place task => inferInstanceAs (Decidable ((fate.outcome.spawns = true → w.NextIsNew owner) ∧
      (place = owner → task.stage = .call → Life.callsFactory task = true ∧ fate.outcome.answers = false)))
  | .running _ _ => .isTrue trivial
  | .ending _ _ => .isTrue trivial

instance (s : Supervisor) (tasks : List Task) (p : Pid) (spec : ChildSpec) : Decidable (Newcomer s tasks p spec) :=
  decidable_of_iff (p ∉ s.registered ∧ (∀ restart ∈ tasks, restart.replacement ≠ some p) ∧
      (∀ entry ∈ s.children.entries, entry.2 ≠ spec) ∧ ∀ restart ∈ tasks, restart.spec ≠ spec)
    ⟨fun ⟨first, second, third, fourth⟩ => ⟨first, second, third, fourth⟩,
      fun ⟨first, second, third, fourth⟩ => ⟨first, second, third, fourth⟩⟩

instance (owner : Option Nat) (c : Config World Life) : DecidablePred (NewActors owner c)
  | .start _ => .isTrue trivial
  | .step index fate => inferInstanceAs (Decidable (∀ life ∈ c.threads[index]?, life.SpawnsNew owner c.shared fate))
  | .ambient (.register place registration) => inferInstanceAs (Decidable (place = owner →
      ∀ s ∈ c.shared.runtime.supervisorOf owner,
        Newcomer s (tasksOf (activitiesOf owner c.threads)) registration.pid registration.spec))
  | .ambient (.stop _) => .isTrue trivial
  | .ambient (.send _ _) => .isTrue trivial
  | .ambient (.link _ _) => .isTrue trivial

instance (c : Config World Life) (s : Supervisor) : DecidablePred (Activity.MarksStopped c s)
  | .notify ⟨own, .flagGroup _ (child :: _)⟩ => inferInstanceAs
      (Decidable (child.1 ≠ own → (child.1 ∉ s.restarting ∧ child.1 ∈ s.children) ∧ ¬ Live c child.1))
  | .notify ⟨_, .flagGroup _ []⟩ => .isTrue trivial
  | .notify ⟨_, .flag⟩ => .isTrue trivial
  | .notify ⟨_, .lookup⟩ => .isTrue trivial
  | .notify ⟨_, .unflag⟩ => .isTrue trivial
  | .notify ⟨_, .snapshot⟩ => .isTrue trivial
  | .notify ⟨_, .spawnGroup _⟩ => .isTrue trivial
  | .notify ⟨_, .spawnOne _⟩ => .isTrue trivial
  | .notify ⟨_, .returned⟩ => .isTrue trivial
  | .task _ => .isTrue trivial
  | .removal _ => .isTrue trivial

instance (owner : Option Nat) (c : Config World Life) : DecidablePred (GroupStopped owner c)
  | .step index _ => inferInstanceAs (Decidable (∀ life ∈ c.threads[index]?, ∀ activity ∈ life.activities owner,
      ∀ s ∈ c.shared.runtime.supervisorOf owner, activity.MarksStopped c s))
  | .start _ => .isTrue trivial
  | .ambient _ => .isTrue trivial

/-- The children of the supervisor and those that were registered later. -/
def enrol (owner : Option Nat) (s : Supervisor) : Move Life Fate Operation → Supervisor
  | .ambient (.register place registration) => if place = owner then registration.apply s else s
  | _ => s

/-- No restart drops a live actor from the supervisor. Each child has at most
    one live actor, and none is left unsupervised when the restarts are done. -/
structure GroupSafe (owner : Option Nat) (s₀ : Supervisor) (d : Config World Life) : Prop where
  dropped : ∀ restart, .restart owner restart ∈ d.threads → restart.stage = .removeOld → ¬ Live d restart.orig
  single : ∀ p p' spec, Belongs s₀ (tasksOf (activitiesOf owner d.threads)) p spec →
    Belongs s₀ (tasksOf (activitiesOf owner d.threads)) p' spec → Live d p → Live d p' → p = p'
  supervised : (∀ restart, .restart owner restart ∈ d.threads → restart.stage = .finished) →
    ∀ p spec, Belongs s₀ (tasksOf (activitiesOf owner d.threads)) p spec → Live d p →
      ∃ s, d.shared.runtime.supervisorOf owner = some s ∧ s.children.lookup p = some spec

def Cleanup.calls (ending : Cleanup) : Option Notify :=
  match ending.stage with
  | .notify call | .notifyPath _ call _ => some call
  | _ => none

/-- The pids of a life cycle are in the record, and after the first step of the
    clean-up the sender is gone. -/
def Life.Logged (owner : Option Nat) (w : World) : Life → Prop
  | .spawning => True
  | .running pid _ => pid ∈ w.used
  | .ending _ cleanup => cleanup.pid ∈ w.used ∧ (cleanup.stage ≠ .closeMailbox → cleanup.pid ∉ w.runtime.mailboxes) ∧
    ∀ call ∈ cleanup.calls, call.pid = cleanup.pid
  | .restart place task => place = owner → ∀ q, task.replacement = some q → q ∈ w.used

/-- Every child of the supervisor has a spec of its own, every pid in use is in
    the record, and no exit or restart of a child is under way. -/
structure AtRest (owner : Option Nat) (s : Supervisor) (c : Config World Life) : Prop where
  present : c.shared.runtime.supervisorOf owner = some s.recorded
  distinct : ∀ p p' spec, s.children.lookup p = some spec → s.children.lookup p' = some spec → p = p'
  logged : ∀ life ∈ c.threads, life.Logged owner c.shared
  idle : activitiesOf owner c.threads = []

/-- The activity has decided to replace `p`. -/
def Activity.Dooms (p : Pid) : Activity → Prop
  | .notify call =>
    match call.stage with
    | .flagGroup done _ => p ∈ keysOf done
    | .spawnGroup todo => p ∈ keysOf todo
    | _ => False
  | .task restart => restart.orig = p
  | .removal _ => False

variable {owner : Option Nat} {s₀ s later : Supervisor} {p : Pid}

structure Safe (owner : Option Nat) (s₀ s : Supervisor) (c : Config World Life) : Prop where
  present : c.shared.runtime.supervisorOf owner = some s
  lineage : Lineage s₀ s (activitiesOf owner c.threads)
  logged : ∀ life ∈ c.threads, life.Logged owner c.shared
  stopped : ∀ activity ∈ activitiesOf owner c.threads, ∀ p, activity.Dooms p → ¬ Live c p

theorem Activity.Dooms.reads {activity : Activity} (dooms : activity.Dooms p) : ∃ spec, activity.Reads p spec := by
  cases activity with
  | notify call =>
    rcases call with ⟨own, stage⟩
    cases stage with
    | flagGroup done todo =>
      obtain ⟨child, member, rfl⟩ := List.mem_map.mp dooms
      exact ⟨child.2, List.mem_append_left _ member⟩
    | spawnGroup todo =>
      obtain ⟨child, member, rfl⟩ := List.mem_map.mp dooms
      exact ⟨child.2, member⟩
    | _ => exact absurd dooms id
  | task restart => exact ⟨restart.spec, dooms, rfl⟩
  | removal call => exact absurd dooms id

/-- Who is replaced has exited, or was marked by a `RestartAll`. -/
theorem Activity.step_dooms {activity next : Activity} {new : List Activity} (steps : activity.Steps s later next new)
    {other : Activity} (member : other ∈ next :: new) (dooms : other.Dooms p) :
    activity.Dooms p ∨ (∃ call, activity = .notify call ∧ call.pid = p) ∨
      ∃ own done todo child, activity = .notify ⟨own, .flagGroup done (child :: todo)⟩ ∧ child.1 = p := by
  cases steps with
  | notify steps =>
    rcases List.mem_cons.mp member with rfl | member
    · cases steps with
      | read whole => cases dooms
      | @claimed own done todo child =>
        have marked : p ∈ keysOf (done ++ [child]) := dooms
        rw [keysOf_append] at marked
        rcases List.mem_append.mp marked with old | new
        · exact .inl old
        · exact .inr (.inr ⟨own, done, todo, child, rfl, (List.mem_singleton.mp new).symm⟩)
      | marked => exact .inl dooms
      | spawned => exact .inl (List.mem_cons_of_mem _ dooms)
      | _ => exact absurd dooms id
    · obtain ⟨restart, spawned, rfl⟩ := List.mem_map.mp member
      cases steps with
      | spawned =>
        rw [List.mem_singleton.mp spawned] at dooms
        exact .inl (List.mem_cons.mpr (.inl dooms.symm))
      | spawnedOne =>
        rw [List.mem_singleton.mp spawned] at dooms
        exact .inr (.inl ⟨_, rfl, dooms⟩)
      | _ => cases spawned
  | @task _ restart next _ stepped =>
    rw [List.mem_singleton.mp member] at dooms
    left
    cases Task.steps_of_step stepped <;> exact dooms
  | removal stepped =>
    rw [List.mem_singleton.mp member] at dooms
    exact absurd dooms id

/-- What one step adds to the record, to the senders and to the running actors. -/
inductive Growth (owner : Option Nat) (w later : World) (life : Life) (moved : List Life) : Prop where
  | same (used : later.used = w.used)
      (mailboxes : ∀ p, p ∈ later.runtime.mailboxes → p ∈ w.runtime.mailboxes)
      (runs : ∀ p, moved.any (Life.runs p) = true → life.runs p = true)
  | spawn {pid : Pid} (unused : pid ∉ w.used) (unknown : pid ∉ w.runtime.registeredAt owner)
      (used : later.used = pid :: w.used)
      (mailboxes : ∀ p, p ∈ later.runtime.mailboxes → p = pid ∨ p ∈ w.runtime.mailboxes)
      (runs : ∀ p, moved.any (Life.runs p) = true → p = pid)

section

variable {w w' : World} {life next : Life} {new : List Life} {fate : Fate}

theorem World.NextIsNew.of_spawn {pid : Pid} {id : Nat} (nextIsNew : w.NextIsNew owner)
    (spawn : w.spawnActor = some (pid, id, w')) : pid ∉ w.used ∧ pid ∉ w.runtime.registeredAt owner := by
  obtain ⟨slab, allocated, -, -⟩ := World.spawnActor_eq_some spawn
  rwa [World.NextIsNew, allocated] at nextIsNew

theorem World.used_setSupervisor (w : World) (place : Option Nat) (s : Supervisor) :
    (w.setSupervisor place s).used = w.used ∧
      (w.setSupervisor place s).runtime.mailboxes = w.runtime.mailboxes := by
  cases place <;> exact ⟨rfl, rfl⟩

theorem World.used_spawn {pid : Pid} {id : Nat} (spawn : w.spawnActor = some (pid, id, w')) :
    w'.used = pid :: w.used ∧ ∀ p, p ∈ w'.runtime.mailboxes → p = pid ∨ p ∈ w.runtime.mailboxes := by
  obtain ⟨slab, -, -, rfl⟩ := World.spawnActor_eq_some spawn
  exact ⟨rfl, fun p member => AList.mem_insert _ |>.mp member⟩

theorem any_runs_restarts (p : Pid) (workers : List Worker) :
    (workers.filterMap Life.ofWorker).any (Life.runs p) = false := by
  rw [List.any_eq_false]
  intro life member
  obtain ⟨worker, -, found⟩ := List.mem_filterMap.mp member
  cases worker with
  | cleanup ending => cases found
  | restart place task =>
    cases found
    nofun

theorem Cleanup.step_mailboxes {rt after : Runtime} {ending : Cleanup} {stage : CleanupStage} {workers : List Worker}
    (steps : ending.Steps rt ending.stage after stage workers) (p : Pid) (member : p ∈ after.mailboxes) :
    p ∈ rt.mailboxes := by
  rcases ending with ⟨pid, reason, metadata, before⟩
  cases steps with
  | closed => exact (AList.mem_erase.mp member).2
  | @sent todo peer =>
    rw [(rt.send_tables _ _).2.1] at member
    exact member
  | _ => exact member

theorem Life.step_growth (stepped : life.step w fate = some (w', next, new)) (spawnsNew : life.SpawnsNew owner w fate) :
    Growth owner w w' life (next :: new) := by
  cases life with
  | spawning =>
    obtain ⟨⟨pid, id, after⟩, spawn, same⟩ := Option.map_eq_some_iff.mp stepped
    cases same
    obtain ⟨unused, unknown⟩ := World.NextIsNew.of_spawn spawnsNew spawn
    obtain ⟨used, mailboxes⟩ := World.used_spawn spawn
    refine .spawn unused unknown used mailboxes ?_
    intro p runs
    simpa [Life.runs, eq_comm] using runs
  | running pid number =>
    simp only [step] at stepped
    split at stepped
    · cases stepped
      exact .same rfl (fun p => id) (fun p runs => by simpa using runs)
    · cases stepped
      exact .same rfl (fun p => id) (fun p runs => by simp [Life.runs] at runs)
  | ending id ending =>
    obtain ⟨⟨runtime, following, workers⟩, cleaned, same⟩ := Option.map_eq_some_iff.mp stepped
    cases same
    obtain ⟨stage, rfl, steps⟩ := Cleanup.steps_of_step cleaned
    refine .same rfl (Cleanup.step_mailboxes steps) ?_
    intro p runs
    rw [List.any_cons, any_runs_restarts, Bool.or_false] at runs
    exact runs
  | restart place task =>
    simp only [step] at stepped
    split at stepped
    · obtain ⟨s, s', next, present, taken, rfl, rfl, rfl⟩ := advance_eq_some stepped
      obtain ⟨used, mailboxes⟩ := w.used_setSupervisor place s'
      refine .same used (fun p member => mailboxes ▸ member) ?_
      intro p runs
      simp [Life.runs] at runs
    · rename_i outcome
      split at stepped
      · obtain ⟨⟨pid, id, middle⟩, spawn, advanced⟩ := Option.bind_eq_some_iff.mp stepped
        obtain ⟨s, s', next, present, taken, rfl, rfl, rfl⟩ := advance_eq_some advanced
        obtain ⟨unused, unknown⟩ := World.NextIsNew.of_spawn (spawnsNew.1 (by rw [outcome]; rfl)) spawn
        obtain ⟨used, mailboxes⟩ := World.used_spawn spawn
        obtain ⟨used', mailboxes'⟩ := middle.used_setSupervisor place s'
        refine .spawn unused unknown (used'.trans used) (fun p member => mailboxes p (mailboxes' ▸ member)) ?_
        intro p runs
        simpa [Life.runs, eq_comm] using runs
      · cases stepped

theorem Task.step_foreign {restart task : Task} {result : Except String Pid} (calls : Life.callsFactory restart = true)
    (taken : restart.step s result = some (later, task)) :
    (∃ pid, result = .ok pid ∧ task.replacement = some pid ∧ task.stage = .insertNew pid) ∨
      (∃ error, result = .error error) ∧ task.replacement = restart.replacement ∧ ∀ q, task.stage ≠ .insertNew q := by
  rcases restart with ⟨orig, ⟨factory, strategy⟩, attempts, backoffMs, replacement, stage⟩
  cases stage with
  | call =>
    cases factory with
    | same pid => cases calls
    | foreign id =>
      cases result with
      | ok pid =>
        cases taken
        exact .inl ⟨pid, rfl, rfl, rfl⟩
      | error error =>
        cases taken
        exact .inr ⟨⟨error, rfl⟩, rfl, nofun⟩
  | _ => cases calls

/-- A restart task of the group gets its answer from a spawn. -/
theorem Life.step_answers {restart : Task} (stepped : (Life.restart owner restart).step w fate = some (w', next, new))
    (spawnsNew : (Life.restart owner restart).SpawnsNew owner w fate) :
    ∃ task, next = .restart owner task ∧
      ((task.replacement = restart.replacement ∧ ∀ q, task.stage ≠ .insertNew q) ∨
        ∃ q, q ∉ w.used ∧ q ∉ w.runtime.registeredAt owner ∧ w'.used = q :: w.used ∧ task.replacement = some q ∧
          task.stage = .insertNew q) := by
  simp only [step] at stepped
  split at stepped
  · rename_i result outcome
    obtain ⟨s, s', task, present, taken, rfl, rfl, rfl⟩ := advance_eq_some stepped
    refine ⟨task, rfl, .inl ?_⟩
    by_cases calling : restart.stage = .call
    · obtain ⟨calls, fails⟩ := spawnsNew.2 rfl calling
      rcases Task.step_foreign calls taken with ⟨pid, rfl, -⟩ | ⟨-, plain⟩
      · rw [outcome] at fails
        cases fails
      · exact plain
    · cases Task.steps_of_step taken with
      | answered stage answer => exact absurd stage calling
      | _ => exact ⟨rfl, by simp⟩
  · rename_i outcome
    split at stepped
    · rename_i calls
      obtain ⟨⟨pid, id, middle⟩, spawn, advanced⟩ := Option.bind_eq_some_iff.mp stepped
      obtain ⟨s, s', task, present, taken, rfl, rfl, rfl⟩ := advance_eq_some advanced
      obtain ⟨unused, unknown⟩ := World.NextIsNew.of_spawn (spawnsNew.1 (by rw [outcome]; rfl)) spawn
      have used : (middle.setSupervisor owner s').used = pid :: w.used :=
        (middle.used_setSupervisor owner s').1.trans (World.used_spawn spawn).1
      rcases Task.step_foreign calls taken with ⟨other, same, answered⟩ | ⟨⟨error, same⟩, -⟩
      · cases same
        exact ⟨task, rfl, .inr ⟨pid, unused, unknown, used, answered⟩⟩
      · cases same
    · cases stepped

theorem Growth.used {moved : List Life} (growth : Growth owner w w' life moved) {p : Pid} (known : p ∈ w.used) :
    p ∈ w'.used := by
  cases growth with
  | same used mailboxes runs => rwa [used]
  | spawn unused unknown used mailboxes runs =>
    rw [used]
    exact List.mem_cons_of_mem _ known

theorem Growth.mailboxes {moved : List Life} (growth : Growth owner w w' life moved) {p : Pid} (known : p ∈ w.used)
    (member : p ∈ w'.runtime.mailboxes) : p ∈ w.runtime.mailboxes := by
  cases growth with
  | same used mailboxes runs => exact mailboxes p member
  | spawn unused unknown used mailboxes runs =>
    rcases mailboxes p member with rfl | member
    · exact absurd known unused
    · exact member

theorem Growth.runs {moved : List Life} (growth : Growth owner w w' life moved) {p : Pid}
    (known : p ∈ w.used ∨ p ∈ w.runtime.registeredAt owner) (runs : moved.any (Life.runs p) = true) :
    life.runs p = true := by
  cases growth with
  | same used mailboxes before => exact before p runs
  | spawn unused unknown used mailboxes spawned =>
    rw [spawned p runs] at known
    rcases known with known | known
    · exact absurd known unused
    · exact absurd known unknown

theorem Life.Logged.frame {other : Life} {moved : List Life} (logged : other.Logged owner w)
    (growth : Growth owner w w' life moved) : other.Logged owner w' := by
  cases other with
  | spawning => trivial
  | running pid id => exact growth.used logged
  | ending id cleanup =>
    obtain ⟨used, closed, calls⟩ := logged
    exact ⟨growth.used used, fun late member => closed late (growth.mailboxes used member), calls⟩
  | restart place task => exact fun mine q answer => growth.used (logged mine q answer)

theorem Cleanup.step_logged {id : Nat} {rt : Runtime} {ending : Cleanup} {stage : CleanupStage} {workers : List Worker}
    (logged : (Life.ending id ending).Logged owner w) (steps : ending.Steps w.runtime ending.stage rt stage workers) :
    (Life.ending id { ending with stage }).Logged owner { w with runtime := rt } := by
  obtain ⟨used, closed, calls⟩ := logged
  have kept := Cleanup.step_mailboxes steps ending.pid
  rcases ending with ⟨pid, reason, metadata, before⟩
  cases steps with
  | closed =>
    refine ⟨used, fun _ member => (AList.mem_erase.mp member).1 rfl, ?_⟩
    rintro call ⟨⟩
    rfl
  | notifying steps =>
    refine ⟨used, fun _ => closed nofun, ?_⟩
    rintro call ⟨⟩
    have own := calls _ rfl
    cases steps <;> exact own
  | pathNotifying present steps =>
    refine ⟨used, fun _ => closed nofun, ?_⟩
    rintro call ⟨⟩
    have own := calls _ rfl
    cases steps <;> exact own
  | entered present child =>
    refine ⟨used, fun _ => closed nofun, ?_⟩
    rintro call ⟨⟩
    rfl
  | _ => exact ⟨used, fun _ member => closed nofun (kept member), nofun⟩

theorem logged_restarts {place : Option Nat} {tasks : List Task} (fresh : ∀ task ∈ tasks, task.replacement = none) :
    ∀ other ∈ (tasks.map (Worker.restart place)).filterMap Life.ofWorker, other.Logged owner w := by
  intro other member
  obtain ⟨worker, spawned, found⟩ := List.mem_filterMap.mp member
  obtain ⟨task, present, rfl⟩ := List.mem_map.mp spawned
  cases found
  intro _ q answer
  rw [fresh task present] at answer
  cases answer

theorem Notify.step_unanswered {call next : Notify} {tasks : List Task} (steps : call.Steps s later next tasks) :
    ∀ task ∈ tasks, task.replacement = none := by
  intro task member
  obtain ⟨p, spec, rfl, -⟩ := (Notify.step_reads steps).2 task member
  rfl

theorem Cleanup.workers_logged {rt : Runtime} {ending : Cleanup} {stage : CleanupStage} {workers : List Worker}
    (steps : ending.Steps w.runtime ending.stage rt stage workers) :
    ∀ other ∈ workers.filterMap Life.ofWorker, other.Logged owner w' := by
  rcases ending with ⟨pid, reason, metadata, before⟩
  cases steps with
  | notifying steps => exact logged_restarts (Notify.step_unanswered steps)
  | pathNotifying present steps => exact logged_restarts (Notify.step_unanswered steps)
  | _ => exact List.forall_mem_nil _

theorem Life.restart_logged {place : Option Nat} {restart task : Task}
    (stepped : (Life.restart place restart).step w fate = some (w', .restart place task, new))
    (logged : (Life.restart place restart).Logged owner w)
    (spawnsNew : (Life.restart place restart).SpawnsNew owner w fate) : (Life.restart place task).Logged owner w' := by
  have growth := step_growth stepped spawnsNew
  rintro rfl q answer
  obtain ⟨other, same, ⟨kept, -⟩ | ⟨pid, -, -, used, answered, -⟩⟩ := step_answers stepped spawnsNew
  · cases same
    exact growth.used (logged rfl q (kept ▸ answer))
  · cases same
    cases answered.symm.trans answer
    rw [used]
    exact List.mem_cons_self

theorem Life.step_logged (stepped : life.step w fate = some (w', next, new)) (logged : life.Logged owner w)
    (spawnsNew : life.SpawnsNew owner w fate) : ∀ other ∈ next :: new, other.Logged owner w' := by
  have steps : life.Steps w w' next new := 
    steps_of_step (show lifecycle.step 0 w life fate = some (w', next, new) from stepped)
  cases steps with
  | spawned spawn =>
    rw [List.forall_mem_singleton]
    show _ ∈ w'.used
    rw [(World.used_spawn spawn).1]
    exact List.mem_cons_self
  | received =>
    rw [List.forall_mem_singleton]
    exact logged
  | exited =>
    rw [List.forall_mem_singleton]
    exact ⟨logged, fun late => absurd rfl late, nofun⟩
  | cleaned steps =>
    rw [List.forall_mem_cons]
    exact ⟨Cleanup.step_logged logged steps, Cleanup.workers_logged steps⟩
  | restarted present taken =>
    rw [List.forall_mem_singleton]
    exact restart_logged stepped logged spawnsNew
  | @respawned place restart task s after middle pid id calls spawn present taken =>
    rw [List.forall_mem_cons, List.forall_mem_singleton]
    refine ⟨restart_logged stepped logged spawnsNew, ?_⟩
    show pid ∈ (middle.setSupervisor place after).used
    rw [(middle.used_setSupervisor place after).1, (World.used_spawn spawn).1]
    exact List.mem_cons_self

end

theorem Life.mem_activities {life : Life} {activity : Activity} (mine : activity ∈ life.activities owner) :
    (∃ id cleanup call, life = .ending id cleanup ∧ call ∈ cleanup.calls ∧ cleanup.stage ≠ .closeMailbox ∧
      activity = .notify call) ∨ ∃ restart, life = .restart owner restart ∧ activity = .task restart := by
  cases life with
  | spawning => cases mine
  | running pid id => cases mine
  | ending id cleanup =>
    left
    rcases cleanup with ⟨pid, reason, metadata, stage⟩
    cases owner with
    | none =>
      cases stage with
      | notify call => exact ⟨_, _, call, rfl, rfl, CleanupStage.noConfusion, List.mem_singleton.mp mine⟩
      | _ => cases mine
    | some index =>
      cases stage with
      | notifyPath place call todo =>
        simp only [activities] at mine
        split at mine
        · exact ⟨_, _, call, rfl, rfl, CleanupStage.noConfusion, List.mem_singleton.mp mine⟩
        · cases mine
      | _ => cases mine
  | restart place task =>
    simp only [activities] at mine
    split at mine
    · rename_i same
      exact .inr ⟨task, by rw [same], List.mem_singleton.mp mine⟩
    · cases mine

theorem Life.restart_of_task {life : Life} {restart : Task} (mine : .task restart ∈ life.activities owner) :
    life = .restart owner restart := by
  rcases mem_activities mine with ⟨id, cleanup, call, -, -, -, same⟩ | ⟨task, rfl, same⟩
  · cases same
  · cases same
    rfl

theorem Life.not_removal {life : Life} {activity : Activity} (mine : activity ∈ life.activities owner) (call : Removal) :
    activity ≠ .removal call := by
  rcases mem_activities mine with ⟨id, cleanup, call, -, -, -, rfl⟩ | ⟨task, -, rfl⟩
  · nofun
  · nofun

/-- The actor whose exit is being notified is gone. -/
theorem not_live_of_notify {c : Config World Life} (logged : ∀ life ∈ c.threads, life.Logged owner c.shared)
    {call : Notify} (member : .notify call ∈ activitiesOf owner c.threads) :
    call.pid ∈ c.shared.used ∧ ¬ Live c call.pid := by
  obtain ⟨life, present, mine⟩ := List.mem_flatMap.mp member
  rcases Life.mem_activities mine with ⟨id, cleanup, other, rfl, called, late, same⟩ | ⟨task, -, same⟩
  · cases same
    obtain ⟨used, closed, calls⟩ := logged _ present
    rw [calls call called]
    exact ⟨used, fun live => closed late live.2⟩
  · cases same

theorem used_of_runs {c : Config World Life} (logged : ∀ life ∈ c.threads, life.Logged owner c.shared)
    (runs : c.threads.any (Life.runs p) = true) : p ∈ c.shared.used := by
  obtain ⟨life, present, mine⟩ := List.any_eq_true.mp runs
  cases life with
  | running pid id =>
    rw [← show pid = p from of_decide_eq_true mine]
    exact logged _ present
  | spawning => cases mine
  | ending id cleanup => cases mine
  | restart place task => cases mine

theorem Cleanup.workers_call {rt after : Runtime} {ending : Cleanup} {stage : CleanupStage} {workers : List Worker}
    (steps : ending.Steps rt ending.stage after stage workers) {place : Option Nat} {task : Task}
    (member : .restart place task ∈ workers) : task.stage = .call := by
  have fresh : ∀ {s later : Supervisor} {call next : Notify} {tasks : List Task}, call.Steps s later next tasks →
      ∀ other, .restart place task ∈ tasks.map (Worker.restart other) → task.stage = .call := by
    intro s later call next tasks steps other member
    obtain ⟨restart, spawned, same⟩ := List.mem_map.mp member
    cases same
    obtain ⟨p, spec, rfl, -⟩ := (Notify.step_reads steps).2 task spawned
    rfl
  rcases ending with ⟨pid, reason, metadata, before⟩
  cases steps with
  | notifying steps => exact fresh steps _ member
  | pathNotifying present steps => exact fresh steps _ member
  | _ => cases member

/-- A step moves a restart task of the group, or spawns new ones. -/
theorem Life.task_moved {w later : World} {life next : Life} {new : List Life} {restart : Task}
    (steps : life.Steps w later next new) (member : .task restart ∈ activitiesOf owner (next :: new)) :
    (∃ task, life = .restart owner task ∧ next = .restart owner restart) ∨ restart.stage = .call := by
  obtain ⟨other, present, mine⟩ := List.mem_flatMap.mp member
  have same := restart_of_task mine
  subst same
  cases steps with
  | spawned spawn => cases List.mem_singleton.mp present
  | received => cases List.mem_singleton.mp present
  | exited => cases List.mem_singleton.mp present
  | cleaned steps =>
    rcases List.mem_cons.mp present with own | spawned
    · cases own
    · obtain ⟨worker, working, found⟩ := List.mem_filterMap.mp spawned
      cases worker with
      | cleanup ending => cases found
      | restart place task =>
        cases found
        exact .inr (Cleanup.workers_call steps working)
  | restarted here stepped =>
    cases List.mem_singleton.mp present
    exact .inl ⟨_, rfl, rfl⟩
  | respawned calls spawn here stepped =>
    rcases List.mem_cons.mp present with own | spawned
    · cases own
      exact .inl ⟨_, rfl, rfl⟩
    · cases List.mem_singleton.mp spawned

theorem Activity.MarksStopped.orderly {c : Config World Life} {life : Life} {activity : Activity}
    (marks : activity.MarksStopped c s) (mine : activity ∈ life.activities owner) : activity.Orderly s := by
  cases activity with
  | notify call =>
    rcases call with ⟨own, stage⟩
    cases stage with
    | flagGroup done todo =>
      cases todo with
      | nil => trivial
      | cons child todo => exact fun other => (marks other).1
    | _ => trivial
  | task restart => trivial
  | removal call => exact absurd rfl (Life.not_removal mine call)

namespace Safe

section

variable {w w' : World} {before after new : List Life} {life next : Life}

/-- A known actor that has exited or was stopped does not come back. -/
theorem live_before (safe : Safe owner s₀ s ⟨w, before ++ life :: after⟩) (growth : Growth owner w w' life (next :: new))
    (known : p ∈ w.used ∨ p ∈ s.registered) (live : Live ⟨w', before ++ next :: (after ++ new)⟩ p) :
    Live ⟨w, before ++ life :: after⟩ p := by
  have registered : w.runtime.registeredAt owner = s.registered := by
    rw [Runtime.registeredAt, safe.present]
    rfl
  rw [← registered] at known
  have runs : (before ++ life :: after).any (Life.runs p) = true := by
    obtain ⟨other, member, mine⟩ := List.any_eq_true.mp live.1
    rcases Program.mem_replace_append member with old | moved
    · exact List.any_eq_true.mpr ⟨other, old, mine⟩
    · refine List.any_eq_true.mpr ⟨life, by simp, growth.runs known ?_⟩
      exact List.any_eq_true.mpr ⟨other, moved, mine⟩
  exact ⟨runs, growth.mailboxes (used_of_runs safe.logged runs) live.2⟩

theorem known_of_dooms (safe : Safe owner s₀ s ⟨w, before ++ life :: after⟩) {activity : Activity}
    (member : activity ∈ activitiesOf owner (before ++ life :: after)) (dooms : activity.Dooms p) : p ∈ s.registered := by
  obtain ⟨spec, reads⟩ := dooms.reads
  exact (safe.lineage.read activity member p spec reads).1

theorem mem_activities {activity : Activity} (mine : activity ∈ life.activities owner) :
    activity ∈ activitiesOf owner (before ++ life :: after) := by
  rw [activitiesOf, List.mem_flatMap]
  exact ⟨life, by simp, mine⟩

/-- What the moving activity decides to replace is not live. -/
theorem stopped_moved (safe : Safe owner s₀ s ⟨w, before ++ life :: after⟩)
    (growth : Growth owner w w' life (next :: new))
    (view : View s later (life.activities owner) (activitiesOf owner (next :: new)))
    (marks : ∀ activity ∈ life.activities owner, activity.MarksStopped ⟨w, before ++ life :: after⟩ s)
    {activity : Activity} (member : activity ∈ activitiesOf owner (next :: new)) (dooms : activity.Dooms p) :
    ¬ Live ⟨w', before ++ next :: (after ++ new)⟩ p := by
  generalize earlier : life.activities owner = acts at view marks
  generalize activitiesOf owner (next :: new) = moved at view member
  cases view with
  | @step own following others outside stepped =>
    have mine : own ∈ activitiesOf owner (before ++ life :: after) := by
      apply mem_activities
      rw [earlier]
      exact List.mem_singleton_self own
    rcases Activity.step_dooms (Activity.steps_of_step stepped) member dooms with
      doomed | ⟨call, rfl, rfl⟩ | ⟨own, done, todo, child, rfl, rfl⟩
    · intro live
      exact safe.stopped own mine p doomed (safe.live_before growth (.inr (safe.known_of_dooms mine doomed)) live)
    · intro live
      obtain ⟨used, gone⟩ := not_live_of_notify safe.logged mine
      exact gone (safe.live_before growth (.inl used) live)
    · rw [List.forall_mem_singleton] at marks
      by_cases same : child.1 = own
      · intro live
        obtain ⟨used, gone⟩ := not_live_of_notify safe.logged mine
        rw [same] at live
        exact gone (safe.live_before growth (.inl used) live)
      · obtain ⟨⟨-, supervised⟩, gone⟩ := marks same
        intro live
        exact gone (safe.live_before growth (.inr (safe.lineage.registered child.1 supervised)) live)
  | idle children restarting registered left entered =>
    cases entered activity member <;> exact absurd dooms id

/-- What a factory of the group returns was never seen before. -/
theorem fresh (safe : Safe owner s₀ s ⟨w, before ++ life :: after⟩) {fate : Fate}
    (stepped : life.step w fate = some (w', next, new)) (spawnsNew : life.SpawnsNew owner w fate) {restart : Task}
    {q : Pid} (member : .task restart ∈ activitiesOf owner (next :: new)) (inserts : restart.stage = .insertNew q) :
    q ∉ s.registered ∧ ∀ other ∈ tasksOf (activitiesOf owner (before ++ after)), other.replacement ≠ some q := by
  have steps : life.Steps w w' next new :=
    Life.steps_of_step (show lifecycle.step 0 w life fate = some (w', next, new) from stepped)
  rcases Life.task_moved steps member with ⟨task, rfl, rfl⟩ | calling
  · obtain ⟨other, same, ⟨-, plain⟩ | ⟨pid, unused, unknown, -, -, stage⟩⟩ := Life.step_answers stepped spawnsNew
    · cases same
      exact absurd inserts (plain q)
    · cases same
      cases stage.symm.trans inserts
      rw [Runtime.registeredAt, show w.runtime.supervisorOf owner = some s from safe.present] at unknown
      refine ⟨unknown, ?_⟩
      intro other found answer
      obtain ⟨holder, present, mine⟩ := List.mem_flatMap.mp (mem_tasksOf.mp found)
      cases Life.restart_of_task mine
      have among : Life.restart owner other ∈ before ++ .restart owner task :: after := by
        rw [List.mem_append, List.mem_cons]
        exact (List.mem_append.mp present).imp_right .inr
      exact unused (safe.logged _ among rfl q answer)
  · rw [calling] at inserts
    cases inserts

theorem step (safe : Safe owner s₀ s ⟨w, before ++ life :: after⟩) {fate : Fate}
    (stepped : life.step w fate = some (w', next, new)) (spawnsNew : life.SpawnsNew owner w fate)
    (marks : ∀ activity ∈ life.activities owner, activity.MarksStopped ⟨w, before ++ life :: after⟩ s) :
    ∃ later, Safe owner s₀ later ⟨w', before ++ next :: (after ++ new)⟩ := by
  have steps : life.Steps w w' next new :=
    Life.steps_of_step (show lifecycle.step 0 w life fate = some (w', next, new) from stepped)
  have growth := Life.step_growth stepped spawnsNew
  obtain ⟨later, present, view⟩ := Life.step_view safe.present steps
  refine ⟨later, present, ?_, ?_, ?_⟩
  · have split : Lineage s₀ s (life.activities owner ++ activitiesOf owner (before ++ after)) :=
      safe.lineage.perm (activitiesOf_split before after life)
    have moved : Lineage s₀ later (activitiesOf owner (next :: new) ++ activitiesOf owner (before ++ after)) := by
      refine split.view ?_ ?_ ?_ view
      · exact fun activity mine => (marks activity mine).orderly mine
      · exact fun activity mine => Life.not_removal mine
      · exact fun restart q member inserts => safe.fresh stepped spawnsNew member inserts
    exact moved.perm (activitiesOf_moved before after new next)
  · have moved := Life.step_logged stepped (safe.logged life (by simp)) spawnsNew
    rw [List.forall_mem_cons] at moved
    exact Program.forall_replace_append (fun other member => (safe.logged other member).frame growth) moved.1 moved.2
  · intro activity member p dooms
    rcases List.mem_append.mp ((activitiesOf_moved before after new next).mem_iff.mpr member) with mine | theirs
    · exact safe.stopped_moved growth view marks mine dooms
    · have old : activity ∈ activitiesOf owner (before ++ life :: after) :=
        (activitiesOf_split before after life).mem_iff.mpr (List.mem_append_right _ theirs)
      intro live
      exact safe.stopped activity old p dooms (safe.live_before growth (.inr (safe.known_of_dooms old dooms)) live)

/-- Operations that leave the tables of the group alone and spawn nothing. -/
theorem quiet {threads : List Life} (safe : Safe owner s₀ s ⟨w, threads⟩) (used : w'.used = w.used)
    (mailboxes : ∀ p, p ∈ w'.runtime.mailboxes → p ∈ w.runtime.mailboxes)
    (present : w'.runtime.supervisorOf owner = some later) (children : later.children = s.children)
    (restarting : later.restarting = s.restarting) (registered : later.registered = s.registered) :
    Safe owner s₀ later ⟨w', threads⟩ := by
  have growth : Growth owner w w' .spawning [] := .same used mailboxes (by simp)
  refine ⟨present, ?_, fun life member => (safe.logged life member).frame growth, ?_⟩
  · exact Lineage.idle (show Lineage s₀ s ([] ++ _) from safe.lineage) children restarting registered (by simp)
      (show ∀ activity ∈ ([] : List Activity), activity.Inert by simp)
  · intro activity member p dooms live
    exact safe.stopped activity member p dooms ⟨live.1, mailboxes p live.2⟩

theorem enrolled {threads : List Life} (safe : Safe owner s₀ s ⟨w, threads⟩) {q : Pid} {spec : ChildSpec}
    (newcomer : Newcomer s (tasksOf (activitiesOf owner threads)) q spec) :
    Safe owner (s₀.addChild q spec) (s.addChild q spec) ⟨w.setSupervisor owner (s.addChild q spec), threads⟩ := by
  obtain ⟨used, mailboxes⟩ := w.used_setSupervisor owner (s.addChild q spec)
  have growth : Growth owner w (w.setSupervisor owner (s.addChild q spec)) .spawning [] :=
    .same used (fun p member => mailboxes ▸ member) (by simp)
  refine ⟨Runtime.supervisorOf_set safe.present _, newcomer.lineage safe.lineage, ?_, ?_⟩
  · exact fun life member => (safe.logged life member).frame growth
  · intro activity member p dooms live
    exact safe.stopped activity member p dooms ⟨live.1, mailboxes ▸ live.2⟩

theorem ambient {threads : List Life} {operation : Operation} (safe : Safe owner s₀ s ⟨w, threads⟩)
    (newActors : NewActors owner ⟨w, threads⟩ (.ambient operation))
    (done : lifecycle.ambient w operation = some w') :
    ∃ later, Safe owner (enrol owner s₀ (.ambient operation)) later ⟨w', threads⟩ := by
  have present := safe.present
  cases operation with
  | stop pid =>
    cases done
    refine ⟨s, safe.quiet rfl ?_ ?_ rfl rfl rfl⟩
    · intro p member
      dsimp only [Runtime.stop] at member
      split at member
      · exact member
      · exact (AList.mem_erase.mp member).2
    · dsimp only [Runtime.stop]
      split
      · exact present
      · cases owner <;> exact present
  | send pid message =>
    cases done
    have mailboxes := (w.runtime.send_tables pid message).2.1
    refine ⟨s, safe.quiet rfl (fun p member => mailboxes ▸ member) ?_ rfl rfl rfl⟩
    exact (w.runtime.supervisorOf_send owner pid message).trans present
  | register place registration =>
    obtain ⟨found, here, rfl⟩ := Option.map_eq_some_iff.mp done
    by_cases same : place = owner
    · subst same
      cases here.symm.trans present
      rw [enrol, if_pos rfl, registration.apply_eq, registration.apply_eq]
      exact ⟨_, safe.enrolled (newActors rfl s present)⟩
    · rw [enrol, if_neg same]
      obtain ⟨used, mailboxes⟩ := w.used_setSupervisor place (registration.apply found)
      refine ⟨s, safe.quiet used (fun p member => mailboxes ▸ member) ?_ rfl rfl rfl⟩
      exact (Runtime.supervisorOf_set_ne _ same _).trans present
  | link a b =>
    cases done
    obtain ⟨used, mailboxes⟩ := w.used_setSupervisor none (w.runtime.supervisor.link a b)
    cases owner with
    | none =>
      cases present
      exact ⟨_, safe.quiet used (fun p member => mailboxes ▸ member) rfl rfl rfl rfl⟩
    | some index => exact ⟨s, safe.quiet used (fun p member => mailboxes ▸ member) present rfl rfl rfl⟩

theorem start {threads : List Life} (safe : Safe owner s₀ s ⟨w, threads⟩) :
    Safe owner s₀ s ⟨w, threads ++ [.spawning]⟩ := by
  have same : activitiesOf owner (threads ++ [.spawning]) = activitiesOf owner threads := by
    simp [activitiesOf, Life.activities]
  refine ⟨safe.present, ?_, ?_, ?_⟩
  · rw [same]
    exact safe.lineage
  · rw [List.forall_mem_append, List.forall_mem_singleton]
    exact ⟨safe.logged, trivial⟩
  · intro activity member p dooms live
    dsimp only at member
    rw [same] at member
    refine safe.stopped activity member p dooms ⟨?_, live.2⟩
    simpa [Life.runs] using live.1

end

theorem move {c d : Config World Life} {move : Move Life Fate Operation} (safe : Safe owner s₀ s c)
    (newActors : NewActors owner c move) (groupStopped : GroupStopped owner c move)
    (moves : lifecycle.Moves c move d) : ∃ later, Safe owner (enrol owner s₀ move) later d := by
  cases moves with
  | @start w threads life allowed =>
    cases of_decide_eq_true allowed
    exact ⟨s, safe.start⟩
  | @step w w' before after new life next fate stepped =>
    have found : (before ++ life :: after)[before.length]? = some life := by simp
    refine safe.step stepped (newActors life found) ?_
    exact fun activity mine => groupStopped life found activity mine s safe.present
  | ambient done => exact safe.ambient newActors done

theorem run {c d : Config World Life} {moves : List (Move Life Fate Operation)} (safe : Safe owner s₀ s c)
    (meets : lifecycle.machine.Meets (fun c move => NewActors owner c move ∧ GroupStopped owner c move) c moves)
    (reached : lifecycle.machine.run c moves = some d) :
    ∃ later, Safe owner (moves.foldl (enrol owner) s₀) later d := by
  induction moves generalizing s₀ s c with
  | nil =>
    cases reached
    exact ⟨s, safe⟩
  | cons move moves ih =>
    rw [Machine.run_cons] at reached
    obtain ⟨middle, taken, reached⟩ := Option.bind_eq_some_iff.mp reached
    obtain ⟨later, safe⟩ := safe.move meets.1.1 meets.1.2 (lifecycle.moves_of_step taken)
    exact ih safe (meets.2 middle taken) reached

theorem mem_tasks {c : Config World Life} {restart : Task} :
    restart ∈ tasksOf (activitiesOf owner c.threads) ↔ .restart owner restart ∈ c.threads := by
  rw [mem_tasksOf, activitiesOf, List.mem_flatMap]
  constructor
  · rintro ⟨life, present, mine⟩
    rwa [← Life.restart_of_task mine]
  · intro present
    exact ⟨_, present, by simp [Life.activities]⟩

theorem not_live_of_task {c : Config World Life} (safe : Safe owner s₀ s c) {restart : Task}
    (member : restart ∈ tasksOf (activitiesOf owner c.threads)) : ¬ Live c restart.orig :=
  safe.stopped _ (mem_tasksOf.mp member) restart.orig rfl

theorem groupSafe {c : Config World Life} (safe : Safe owner s₀ s c) : GroupSafe owner s₀ c := by
  constructor
  · exact fun restart member _ => safe.not_live_of_task (mem_tasks.mpr member)
  · intro p p' spec first second live live'
    have unreplaced : ∀ q, Live c q → ¬ Replaced (tasksOf (activitiesOf owner c.threads)) q := by
      rintro q alive ⟨restart, member, rfl, -⟩
      exact safe.not_live_of_task member alive
    exact safe.lineage.unique p p' spec first second (unreplaced p live) (unreplaced p' live')
  · intro finished p spec belongs live
    rcases safe.lineage.kept p spec belongs with present | ⟨restart, member, inserting, -⟩ | ⟨restart, member, rfl, -⟩
    · exact ⟨s, safe.present, present⟩
    · cases inserting.symm.trans (finished restart (mem_tasks.mp member))
    · exact absurd live (safe.not_live_of_task member)

end Safe

theorem AtRest.safe {c : Config World Life} (rest : AtRest owner s c) : Safe owner s s.recorded c := by
  refine ⟨rest.present, ?_, rest.logged, ?_⟩
  · rw [rest.idle]
    exact lineage_start rest.distinct
  · rw [rest.idle]
    nofun

/-- While every `RestartAll` finds the rest of its group exited or stopped, no
    live actor leaves its supervision. -/
theorem group_restart_drops_no_live_actor {c d : Config World Life} {moves : List (Move Life Fate Operation)}
    (rest : AtRest owner s c)
    (meets : lifecycle.machine.Meets (fun c move => NewActors owner c move ∧ GroupStopped owner c move) c moves)
    (reached : lifecycle.machine.run c moves = some d) : GroupSafe owner (moves.foldl (enrol owner) s) d := by
  obtain ⟨later, safe⟩ := rest.safe.run meets reached
  exact safe.groupSafe

theorem atRest_new : AtRest none .new ⟨.new .new [], []⟩ := by
  constructor
  · rfl
  · intro p p' spec first second
    cases first
  · exact List.forall_mem_nil _
  · rfl

/-- Two actors, supervised as one group. -/
def spawnPair : List (Move Life Fate Operation) :=
  let fate : Fate := ⟨.receive, .spawned, []⟩
  [.start .spawning, .step 0 fate, .start .spawning, .step 1 fate,
    .ambient (.register none (.addChild (makePid 0 1) ⟨.foreign 0, .restartAll⟩)),
    .ambient (.register none (.addChild (makePid 1 1) ⟨.foreign 1, .restartAll⟩))]

/-- The first actor exits, and its clean-up spawns the restart tasks 2 and 3. -/
def firstExits : List (Move Life Fate Operation) :=
  List.replicate 10 (.step 0 ⟨.exit .normal none, .spawned, [makePid 0 1, makePid 1 1]⟩)

/-- A restart task calls its factory and takes some further steps. -/
def replacing (task : Nat) (steps : Nat) : List (Move Life Fate Operation) :=
  .step task ⟨.receive, .spawned, []⟩ :: List.replicate steps (.step task ⟨.receive, .returned (.error "boom"), []⟩)

theorem group_restart_drops_no_live_actor_stopped :
    let moves := spawnPair ++ .ambient (.stop (makePid 1 1)) :: firstExits ++ replacing 3 5 ++ replacing 2 5
    (lifecycle.machine.run ⟨.new .new [], []⟩ moves).isSome = true ∧
      ∀ d, lifecycle.machine.run ⟨.new .new [], []⟩ moves = some d → GroupSafe none (moves.foldl (enrol none) .new) d := by
  refine ⟨by decide +kernel, fun d reached => ?_⟩
  exact group_restart_drops_no_live_actor atRest_new (Machine.meets_of_checks _ (by decide +kernel)) reached

theorem running_sibling_dropped :
    ¬ ∀ (owner : Option Nat) (s : Supervisor) (c d : Config World Life) (moves : List (Move Life Fate Operation)),
      AtRest owner s c → lifecycle.machine.Meets (NewActors owner) c moves →
      lifecycle.machine.run c moves = some d → GroupSafe owner (moves.foldl (enrol owner) s) d := by
  intro claim
  obtain ⟨d, reached, ⟨life, member, rfl⟩, live⟩ :
      ∃ d, lifecycle.machine.run ⟨.new .new [], []⟩ (spawnPair ++ firstExits ++ replacing 3 1) = some d ∧
        (∃ life ∈ d.threads, life = .restart none ⟨makePid 1 1, ⟨.foreign 1, .restartAll⟩, 1, 100,
          some (makePid 2 1), .removeOld⟩) ∧ Live d (makePid 1 1) :=
    Machine.exists_of_check _ (by decide +kernel)
  have safe := claim none .new _ d _ atRest_new (Machine.meets_of_checks _ (by decide +kernel)) reached
  exact safe.dropped _ member rfl live

end Myrmidon
