import Myrmidon.Runtime.Addressing
import Myrmidon.Runtime.Completion
import Myrmidon.Supervisor.Succession

namespace Myrmidon

open Slab Transition

/-- What a life cycle does at the tables of one of the supervisors. -/
def Life.activities (owner : Option Nat) : Life → List Activity
  | .ending _ cleanup =>
    match owner, cleanup.stage with
    | none, .notify call => [.notify call]
    | some index, .notifyPath place call _ => if place = index then [.notify call] else []
    | _, _ => []
  | .restart place task => if place = owner then [.task task] else []
  | _ => []

def activitiesOf (owner : Option Nat) (lives : List Life) : List Activity := lives.flatMap (Life.activities owner)

/-- A call of `notify_exit` that has not begun or has returned. -/
inductive Activity.Inert : Activity → Prop where
  | new (own : Pid) : Inert (.notify ⟨own, .flag⟩)
  | returned (own : Pid) : Inert (.notify ⟨own, .returned⟩)

/-- A step of the runtime is a step at the tables of the supervisor, or one
    that at most begins or leaves a call. -/
inductive View (s later : Supervisor) : List Activity → List Activity → Prop where
  | step {activity next : Activity} {new : List Activity} (outside : Outside)
      (stepped : supervision.step 0 s activity outside = some (later, next, new)) :
      View s later [activity] (next :: new)
  | idle {before after : List Activity} (children : later.children = s.children)
      (restarting : later.restarting = s.restarting) (registered : later.registered = s.registered)
      (left : ∀ activity ∈ before, activity.Inert) (entered : ∀ activity ∈ after, activity.Inert) :
      View s later before after

variable {owner : Option Nat} {s : Supervisor}

theorem View.refl (s : Supervisor) : View s s [] [] := .idle rfl rfl rfl (by simp) (by simp)

theorem View.enter (s : Supervisor) (own : Pid) : View s s [] [.notify (.new own)] := by
  refine .idle rfl rfl rfl (by simp) ?_
  rw [List.forall_mem_singleton]
  exact .new own

theorem View.leave (s : Supervisor) {call : Notify} (ended : call.stage = .returned) : View s s [.notify call] [] := by
  refine .idle rfl rfl rfl ?_ (by simp)
  rw [List.forall_mem_singleton]
  rcases call with ⟨own, stage⟩
  cases ended
  exact .returned own

theorem View.notify {later : Supervisor} {call next : Notify} {tasks : List Task}
    (steps : call.Steps s later next tasks) : View s later [.notify call] (.notify next :: tasks.map .task) := by
  obtain ⟨order, stepped⟩ := Notify.step_of_steps steps
  apply View.step ⟨.ok 0, order⟩
  simp only [supervision, stepped, Option.map_some]

theorem View.task {later : Supervisor} {restart next : Task} {result : Except String Pid}
    (stepped : restart.step s result = some (later, next)) : View s later [.task restart] [.task next] := by
  apply View.step ⟨result, []⟩
  simp only [supervision, stepped, Option.map_some]

theorem activities_restarts (owner place : Option Nat) (tasks : List Task) :
    ((tasks.map (Worker.restart place)).filterMap Life.ofWorker).flatMap (Life.activities owner) =
      if place = owner then tasks.map Activity.task else [] := by
  have restarts : (tasks.map (Worker.restart place)).filterMap Life.ofWorker = tasks.map (Life.restart place) := by
    rw [List.filterMap_map, ← List.filterMap_eq_map]
    rfl
  rw [restarts, List.flatMap_map]
  by_cases same : place = owner
  · rw [if_pos same, List.map_eq_flatMap]
    simp [Life.activities, same]
  · simp [Life.activities, same]

theorem Runtime.supervisorOf_set {rt : Runtime} (present : rt.supervisorOf owner = some s) (later : Supervisor) :
    (rt.setSupervisor owner later).supervisorOf owner = some later := by
  cases owner with
  | none => rfl
  | some index =>
    have inside := (List.getElem?_eq_some_iff.mp present).1
    exact List.getElem?_set_self inside

theorem Runtime.supervisorOf_set_ne (rt : Runtime) {place : Option Nat} (other : place ≠ owner) (later : Supervisor) :
    (rt.setSupervisor place later).supervisorOf owner = rt.supervisorOf owner := by
  cases place with
  | none =>
    cases owner with
    | none => exact absurd rfl other
    | some index => rfl
  | some place =>
    cases owner with
    | none => rfl
    | some index => exact List.getElem?_set_ne fun same => other (congrArg some same)

theorem World.supervisorOf_spawn {w later : World} {pid : Pid} {id : Nat}
    (spawn : w.spawnActor = some (pid, id, later)) :
    later.runtime.supervisorOf owner = w.runtime.supervisorOf owner := by
  obtain ⟨slab, -, -, rfl⟩ := World.spawnActor_eq_some spawn
  cases owner <;> rfl

theorem Runtime.supervisorOf_send (rt : Runtime) (owner : Option Nat) (pid : Pid) (message : Message) :
    (rt.send pid message).2.supervisorOf owner = rt.supervisorOf owner := by
  unfold Runtime.send
  split <;> cases owner <;> rfl

/-- The part of the clean-up that works on the runtime's own supervisor. -/
theorem Cleanup.step_view_runtime {rt later : Runtime} {id : Nat} {ending : Cleanup} {stage : CleanupStage}
    {workers : List Worker} (steps : ending.Steps rt ending.stage later stage workers) :
    View rt.supervisor later.supervisor (Life.activities none (.ending id ending))
      (activitiesOf none (.ending id { ending with stage } :: workers.filterMap Life.ofWorker)) := by
  rcases ending with ⟨pid, reason, metadata, before⟩
  cases steps with
  | closed => exact View.enter _ pid
  | notified ended => exact View.leave _ ended
  | notifying steps =>
    rw [activitiesOf, List.flatMap_cons, activities_restarts, if_pos rfl]
    exact View.notify steps
  | pathNotifying present steps =>
    rw [activitiesOf, List.flatMap_cons, activities_restarts, if_neg nofun]
    exact .refl _
  | took => exact .idle rfl rfl rfl (by simp [Life.activities]) (by simp [activitiesOf, Life.activities])
  | retained =>
    refine .idle (Supervisor.forget_children _ _ _) (Supervisor.forget_restarting _ _ _)
      (Supervisor.forget_registered _ _ _) ?_ ?_
    · simp [Life.activities]
    · simp [activitiesOf, Life.activities]
  | @sent todo peer =>
    have same := rt.supervisorOf_send none peer (Cleanup.message ⟨pid, reason, metadata, .send (peer :: todo)⟩)
    dsimp only
    rw [Option.some.inj same]
    exact .refl _
  | _ => exact .refl _

/-- The part of the clean-up that works on a path supervisor. -/
theorem Cleanup.step_view_path {rt later : Runtime} {id index : Nat} {ending : Cleanup} {stage : CleanupStage}
    {workers : List Worker} (present : rt.pathSupervisors[index]? = some s)
    (steps : ending.Steps rt ending.stage later stage workers) :
    ∃ s', later.pathSupervisors[index]? = some s' ∧ View s s' (Life.activities (some index) (.ending id ending))
      (activitiesOf (some index) (.ending id { ending with stage } :: workers.filterMap Life.ofWorker)) := by
  rcases ending with ⟨pid, reason, metadata, before⟩
  cases steps with
  | notifying steps =>
    refine ⟨s, present, ?_⟩
    rw [activitiesOf, List.flatMap_cons, activities_restarts, if_neg nofun]
    exact .refl s
  | @entered place todo found here child =>
    refine ⟨s, present, ?_⟩
    by_cases same : place = index
    · simp only [activitiesOf, Life.activities, List.flatMap_cons, same, if_true]
      exact View.enter s pid
    · simp only [activitiesOf, Life.activities, List.flatMap_cons, same, if_false]
      exact .refl s
  | @pathNotified place call todo ended =>
    refine ⟨s, present, ?_⟩
    by_cases same : place = index
    · simp only [Life.activities, same, if_true]
      exact View.leave s ended
    · simp only [Life.activities, same, if_false]
      exact .refl s
  | @pathNotifying place call next todo found after tasks here steps =>
    rw [activitiesOf, List.flatMap_cons, activities_restarts]
    by_cases same : place = index
    · subst same
      cases here.symm.trans present
      have inside := (List.getElem?_eq_some_iff.mp present).1
      refine ⟨after, List.getElem?_set_self inside, ?_⟩
      simp only [Life.activities, if_true]
      exact View.notify steps
    · refine ⟨s, (List.getElem?_set_ne same).trans present, ?_⟩
      simp only [Life.activities, same, if_false, Option.some.injEq]
      exact .refl s
  | @sent todo peer =>
    exact ⟨s, (rt.supervisorOf_send (some index) _ _).trans present, .refl s⟩
  | _ => exact ⟨s, present, .refl s⟩

theorem Life.step_view {w later : World} {life next : Life} {new : List Life}
    (present : w.runtime.supervisorOf owner = some s) (steps : life.Steps w later next new) :
    ∃ s', later.runtime.supervisorOf owner = some s' ∧
      View s s' (life.activities owner) (activitiesOf owner (next :: new)) := by
  cases steps with
  | spawned spawn => exact ⟨s, (World.supervisorOf_spawn spawn).trans present, .refl s⟩
  | received =>
    refine ⟨s, ?_, .refl s⟩
    cases owner <;> exact present
  | exited =>
    refine ⟨s, ?_, ?_⟩
    · cases owner <;> exact present
    · cases owner <;> exact .refl s
  | @cleaned id ending stage runtime workers steps =>
    cases owner with
    | none =>
      cases present
      exact ⟨_, rfl, Cleanup.step_view_runtime steps⟩
    | some index => exact Cleanup.step_view_path present steps
  | @restarted place restart next found after result here stepped =>
    by_cases same : place = owner
    · subst same
      cases here.symm.trans present
      refine ⟨after, Runtime.supervisorOf_set present after, ?_⟩
      simp only [activitiesOf, Life.activities, if_true, List.flatMap_cons, List.flatMap_nil, List.append_nil]
      exact View.task stepped
    · refine ⟨s, (Runtime.supervisorOf_set_ne _ same after).trans present, ?_⟩
      simp only [activitiesOf, Life.activities, same, if_false, List.flatMap_cons, List.flatMap_nil, List.append_nil]
      exact .refl s
  | @respawned place restart next found after middle pid id calls spawn here stepped =>
    have present' : middle.runtime.supervisorOf owner = some s := (World.supervisorOf_spawn spawn).trans present
    by_cases same : place = owner
    · subst same
      cases here.symm.trans present'
      refine ⟨after, Runtime.supervisorOf_set present' after, ?_⟩
      simp only [activitiesOf, Life.activities, if_true, List.flatMap_cons, List.flatMap_nil, List.append_nil]
      exact View.task stepped
    · refine ⟨s, (Runtime.supervisorOf_set_ne _ same after).trans present', ?_⟩
      simp only [activitiesOf, Life.activities, same, if_false, List.flatMap_cons, List.flatMap_nil, List.append_nil]
      exact .refl s

theorem activitiesOf_split (before after : List Life) (life : Life) :
    (activitiesOf owner (before ++ life :: after)).Perm
      (life.activities owner ++ activitiesOf owner (before ++ after)) := by
  have split : (before ++ life :: after).Perm (life :: (before ++ after)) := List.perm_middle
  exact split.flatMap_right _

theorem activitiesOf_moved (before after new : List Life) (next : Life) :
    (activitiesOf owner (next :: new) ++ activitiesOf owner (before ++ after)).Perm
      (activitiesOf owner (before ++ next :: (after ++ new))) := by
  have moved := (Program.perm_replace_append before after new next).flatMap_right (Life.activities owner)
  rwa [List.flatMap_append] at moved

theorem tasksOf_inert {activities : List Activity} (inert : ∀ activity ∈ activities, activity.Inert)
    (rest : List Activity) : tasksOf (activities ++ rest) = tasksOf rest := by
  induction activities with
  | nil => rfl
  | cons activity activities ih =>
    rw [List.forall_mem_cons] at inert
    obtain ⟨mine, others⟩ := inert
    cases mine with
    | new own => exact ih others
    | returned own => exact ih others

theorem Activity.Inert.weight {activity : Activity} (inert : activity.Inert) (pid : Pid) (aspect : Aspect) :
    activity.weight pid aspect = 0 := by
  cases inert <;> cases aspect <;> rfl

theorem weigh_inert {activities : List Activity} (inert : ∀ activity ∈ activities, activity.Inert)
    (rest : List Activity) (pid : Pid) : weigh pid (activities ++ rest) = weigh pid rest := by
  funext aspect
  induction activities with
  | nil => rfl
  | cons activity activities ih =>
    rw [List.forall_mem_cons] at inert
    rw [List.cons_append, weigh_cons, inert.1.weight, ih inert.2, Nat.zero_add]

/-- A call that begins or leaves changes nothing in the line of the children. -/
theorem Lineage.idle {s₀ later : Supervisor} {before after rest : List Activity}
    (lineage : Lineage s₀ s (before ++ rest)) (children : later.children = s.children)
    (restarting : later.restarting = s.restarting) (registered : later.registered = s.registered)
    (left : ∀ activity ∈ before, activity.Inert) (entered : ∀ activity ∈ after, activity.Inert) :
    Lineage s₀ later (after ++ rest) := by
  have tasks : tasksOf (after ++ rest) = tasksOf (before ++ rest) := by
    rw [tasksOf_inert left, tasksOf_inert entered]
  refine lineage.calm children registered ?_ ?_ ?_ ?_
  · rw [tasks]
    exact .of_perm (.refl _)
  · constructor
    · intro pid
      obtain ⟨single, flagged, paid, unused⟩ := lineage.ledger.balanced pid
      rw [weigh_inert entered, ← weigh_inert left rest pid]
      constructor
      · exact single
      · exact fun held => restarting ▸ flagged held
      · rw [registered]
        exact paid
      · dsimp only at unused ⊢
        rw [children, registered]
        exact unused
    · intro activity member
      rcases List.mem_append.mp member with new | old
      · cases entered activity new <;> trivial
      · exact lineage.ledger.sound activity (List.mem_append_right _ old)
  · rw [tasks]
    exact lineage.settled
  · intro activity member p spec read
    rcases List.mem_append.mp member with new | old
    · cases entered activity new <;> exact absurd read id
    · exact lineage.read activity (List.mem_append_right _ old) p spec read

theorem Lineage.view {s₀ later : Supervisor} {before after rest : List Activity}
    (lineage : Lineage s₀ s (before ++ rest)) (orderly : ∀ activity ∈ before, activity.Orderly s)
    (user : ∀ activity ∈ before, ∀ call, activity ≠ .removal call)
    (fresh : ∀ restart q, .task restart ∈ after → restart.stage = .insertNew q →
      q ∉ s.registered ∧ ∀ other ∈ tasksOf rest, other.replacement ≠ some q)
    (view : View s later before after) : Lineage s₀ later (after ++ rest) := by
  cases view with
  | @step activity next new outside stepped =>
    rw [List.forall_mem_singleton] at orderly user
    have stepping : Lineage s₀ later (next :: (rest ++ new)) := by
      refine Lineage.step lineage orderly user ?_ stepped
      rintro restart q rfl stage
      exact fresh restart q List.mem_cons_self stage
    exact stepping.perm (List.perm_append_comm.cons next)
  | idle children restarting registered left entered =>
    exact lineage.idle children restarting registered left entered

end Myrmidon
