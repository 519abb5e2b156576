import Myrmidon.Runtime.Completion
import Myrmidon.Runtime.Lifecycle
import Myrmidon.Supervisor.Progress

namespace Myrmidon

open Transition

namespace Cleanup

/-- What is left of a clean-up, the notification it is in included. -/
def ahead (ending : Cleanup) : Nat × Nat × Nat × Nat :=
  match ending.stage with
  | .closeMailbox => (7, 0, 0, 0)
  | .notify call => (6, 0, call.ahead)
  | .paths todo => (5, 2 * todo.length, 0, 0)
  | .notifyPath _ call todo => (5, 2 * todo.length + 1, call.ahead)
  | .deallocate => (4, 0, 0, 0)
  | .takeLinks => (3, 0, 0, 0)
  | .retain _ peers => (2, peers.length, 0, 0)
  | .send todo => (1, todo.length, 0, 0)
  | .done => (0, 0, 0, 0)

def measure (ending : Cleanup) : Nat ×ₗ Nat ×ₗ Nat ×ₗ Nat :=
  let (phase, round, call, loop) := ending.ahead
  toLex (phase, toLex (round, toLex (call, loop)))

theorem Steps.descends {rt later : Runtime} {ending : Cleanup} {stage : CleanupStage} {workers : List Worker}
    (steps : ending.Steps rt ending.stage later stage workers) : { ending with stage }.measure < ending.measure := by
  rcases ending with ⟨pid, reason, metadata, before⟩
  cases steps with
  | notifying steps =>
    have descends := steps.descends
    simpa [measure, ahead, Prod.Lex.toLex_lt_toLex] using descends
  | pathNotifying present steps =>
    have descends := steps.descends
    simpa [measure, ahead, Prod.Lex.toLex_lt_toLex] using descends
  | _ => simp [measure, ahead, Prod.Lex.toLex_lt_toLex] <;> omega

theorem can {rt : Runtime} {ending : Cleanup} (placed : ending.Placed rt.pathSupervisors.length)
    (running : ending.stage ≠ .done) : ∃ order, (ending.step rt order).isSome = true := by
  obtain ⟨pid, reason, metadata, stage⟩ := ending
  cases stage with
  | notify call =>
    by_cases ended : call.stage = .returned
    · exact ⟨[], by simp [step, ended]⟩
    · obtain ⟨order, stepped⟩ := Notify.can rt.supervisor ended
      exact ⟨order, by simp [step, ended, stepped]⟩
  | paths todo =>
    cases todo with
    | nil => exact ⟨[], rfl⟩
    | cons index todo =>
      refine ⟨[], ?_⟩
      simp only [step]
      split
      · rfl
      · split <;> rfl
  | notifyPath index call todo =>
    have inside : index < rt.pathSupervisors.length := placed
    by_cases ended : call.stage = .returned
    · exact ⟨[], by simp [step, ended]⟩
    · obtain ⟨order, stepped⟩ := Notify.can rt.pathSupervisors[index] ended
      exact ⟨order, by simp [step, ended, List.getElem?_eq_getElem inside, stepped]⟩
  | retain linked peers => cases peers <;> exact ⟨[], rfl⟩
  | send todo => cases todo <;> exact ⟨[], rfl⟩
  | done => exact absurd rfl running
  | _ => exact ⟨[], rfl⟩

end Cleanup

namespace Life

def Placed (count : Nat) : Life → Prop
  | .ending _ cleanup => cleanup.Placed count
  | _ => True

theorem placed_restarts (count : Nat) (workers : List Worker) :
    ∀ life ∈ workers.filterMap ofWorker, life.Placed count := by
  intro life member
  obtain ⟨worker, -, found⟩ := List.mem_filterMap.mp member
  cases worker with
  | cleanup _ => cases found
  | restart owner task =>
    cases found
    trivial

end Life

theorem Runtime.setSupervisor_paths (rt : Runtime) (owner : Option Nat) (s : Supervisor) :
    (rt.setSupervisor owner s).pathSupervisors.length = rt.pathSupervisors.length := by
  cases owner with
  | none => rfl
  | some index => exact List.length_set

theorem World.spawnActor_paths {w later : World} {pid : Pid} {id : Nat} (spawn : w.spawnActor = some (pid, id, later)) :
    later.runtime.pathSupervisors = w.runtime.pathSupervisors := by
  unfold World.spawnActor at spawn
  split at spawn
  · cases spawn
  · cases spawn
    rfl

theorem Life.placed_of_step {index : Nat} {w later : World} {life next : Life} {new : List Life} {fate : Fate}
    (stepped : lifecycle.step index w life fate = some (later, next, new))
    (placed : life.Placed w.runtime.pathSupervisors.length) :
    later.runtime.pathSupervisors.length = w.runtime.pathSupervisors.length ∧
      ∀ other ∈ next :: new, other.Placed w.runtime.pathSupervisors.length := by
  have steps := steps_of_step stepped
  cases life with
  | ending id cleanup =>
    obtain ⟨⟨runtime, following, workers⟩, cleaned, same⟩ := Option.map_eq_some_iff.mp stepped
    cases same
    obtain ⟨kept, after⟩ := Cleanup.Placed.step placed cleaned
    rw [List.forall_mem_cons]
    exact ⟨kept, after, placed_restarts _ workers⟩
  | spawning =>
    cases steps with
    | spawned spawn =>
      rw [World.spawnActor_paths spawn]
      exact ⟨rfl, by simp [Placed]⟩
  | running pid id =>
    cases steps with
    | received => exact ⟨rfl, by simp [Placed]⟩
    | exited => exact ⟨rfl, by simp [Placed, Cleanup.Placed, Cleanup.new]⟩
  | restart owner task =>
    cases steps with
    | restarted present taken => exact ⟨Runtime.setSupervisor_paths _ _ _, by simp [Placed]⟩
    | respawned calls spawn present taken =>
      refine ⟨(Runtime.setSupervisor_paths _ _ _).trans ?_, by simp [Placed]⟩
      rw [World.spawnActor_paths spawn]

theorem ambient_paths {w later : World} {operation : Operation} (done : lifecycle.ambient w operation = some later) :
    later.runtime.pathSupervisors.length = w.runtime.pathSupervisors.length := by
  cases operation with
  | stop pid =>
    cases done
    simp only [Runtime.stop]
    split <;> rfl
  | send pid message =>
    cases done
    simp only [Runtime.send]
    split <;> rfl
  | register owner registration =>
    obtain ⟨s, -, rfl⟩ := Option.map_eq_some_iff.mp done
    exact Runtime.setSupervisor_paths _ _ _
  | link a b =>
    cases done
    rfl

/-- The clean-ups are at path supervisors that there are. -/
def PathsPlaced (c : Config World Life) : Prop :=
  ∀ life ∈ c.threads, life.Placed c.shared.runtime.pathSupervisors.length

theorem PathsPlaced.move {c d : Config World Life} {move : Move Life Fate Operation} (placed : PathsPlaced c)
    (moves : lifecycle.Moves c move d) : PathsPlaced d := by
  cases moves with
  | @start shared threads life allowed =>
    have spawning : life = .spawning := of_decide_eq_true allowed
    intro other member
    rcases List.mem_append.mp member with old | new
    · exact placed other old
    · rw [List.mem_singleton.mp new, spawning]
      trivial
  | @step shared later before after new life next fate stepped =>
    obtain ⟨same, fresh⟩ := Life.placed_of_step stepped (placed life (by simp))
    intro other member
    show other.Placed later.runtime.pathSupervisors.length
    rw [same]
    rcases Program.mem_replace_append member with old | mine
    · exact placed other old
    · exact fresh other mine
  | @ambient shared later threads operation done =>
    intro other member
    show other.Placed later.runtime.pathSupervisors.length
    rw [ambient_paths done]
    exact placed other member

theorem pathsPlaced_of_run {w : World} {moves : List (Move Life Fate Operation)} {d : Config World Life}
    (reached : lifecycle.machine.run ⟨w, []⟩ moves = some d) : PathsPlaced d :=
  lifecycle.machine.run_invariant (fun _ _ _ placed taken => placed.move (lifecycle.moves_of_step taken))
    (fun _ member => absurd member List.not_mem_nil) reached

end Myrmidon
