import Myrmidon.Transition.Fair

namespace Myrmidon.Transition

/-- Callers from outside a program. They look at its shared state, have a state
    of their own, and do one of its shared operations in a step or none. -/
structure Callers (σ ρ υ κ β γ : Type*) where
  starts : υ → Bool
  step : σ → ρ → υ → κ → Option (ρ × υ × Option β)
  ambient : ρ → γ → Option ρ

namespace Program

variable {σ τ ι β ρ υ κ γ : Type*} (P : Program σ τ ι β) (C : Callers σ ρ υ κ β γ)

def withCallers : Program (σ × ρ) (τ ⊕ υ) (ι ⊕ κ) (β ⊕ γ) where
  starts := Sum.elim P.starts C.starts
  step index shared thread input :=
    match thread, input with
    | .inl thread, .inl input =>
      (P.step index shared.1 thread input).map fun (later, next, new) => ((later, shared.2), .inl next, new.map .inl)
    | .inr caller, .inr input =>
      match C.step shared.1 shared.2 caller input with
      | none => none
      | some (own, next, none) => some ((shared.1, own), .inr next, [])
      | some (own, next, some operation) =>
        (P.ambient shared.1 operation).map fun later => ((later, own), .inr next, [])
    | _, _ => none
  ambient shared
    | .inl operation => (P.ambient shared.1 operation).map fun later => (later, shared.2)
    | .inr operation => (C.ambient shared.2 operation).map fun own => (shared.1, own)

def ownThreads (threads : List (τ ⊕ υ)) : List τ := threads.filterMap Sum.getLeft?

@[simp] theorem ownThreads_append (first second : List (τ ⊕ υ)) :
    ownThreads (first ++ second) = ownThreads first ++ ownThreads second := List.filterMap_append

@[simp] theorem ownThreads_nil : ownThreads ([] : List (τ ⊕ υ)) = [] := rfl

@[simp] theorem ownThreads_inl (thread : τ) (threads : List (τ ⊕ υ)) :
    ownThreads (.inl thread :: threads) = thread :: ownThreads threads := rfl

@[simp] theorem ownThreads_inr (caller : υ) (threads : List (τ ⊕ υ)) :
    ownThreads (.inr caller :: threads) = ownThreads threads := rfl

@[simp] theorem ownThreads_map (threads : List τ) : ownThreads (threads.map Sum.inl : List (τ ⊕ υ)) = threads := by
  rw [ownThreads, List.filterMap_map]
  exact List.filterMap_some

/-- What the program itself sees. -/
def inside (c : Config (σ × ρ) (τ ⊕ υ)) : Config σ τ := ⟨c.shared.1, ownThreads c.threads⟩

variable {P C}

/-- Everything one step can do: of the program, or of a caller. -/
inductive CallerSteps (P : Program σ τ ι β) (C : Callers σ ρ υ κ β γ) (index : Nat) :
    σ × ρ → τ ⊕ υ → ι ⊕ κ → σ × ρ → τ ⊕ υ → List (τ ⊕ υ) → Prop where
  | program {shared later : σ} {own : ρ} {thread next : τ} {new : List τ} {input : ι}
      (stepped : P.step index shared thread input = some (later, next, new)) :
      CallerSteps P C index (shared, own) (.inl thread) (.inl input) (later, own) (.inl next) (new.map .inl)
  | looked {shared : σ} {own later : ρ} {caller next : υ} {input : κ}
      (stepped : C.step shared own caller input = some (later, next, none)) :
      CallerSteps P C index (shared, own) (.inr caller) (.inr input) (shared, later) (.inr next) []
  | did {shared after : σ} {own later : ρ} {caller next : υ} {input : κ} {operation : β}
      (stepped : C.step shared own caller input = some (later, next, some operation))
      (done : P.ambient shared operation = some after) :
      CallerSteps P C index (shared, own) (.inr caller) (.inr input) (after, later) (.inr next) []

theorem callerSteps_of_step {index : Nat} {shared later : σ × ρ} {thread next : τ ⊕ υ} {input : ι ⊕ κ}
    {new : List (τ ⊕ υ)} (stepped : (P.withCallers C).step index shared thread input = some (later, next, new)) :
    CallerSteps P C index shared thread input later next new := by
  obtain ⟨shared, own⟩ := shared
  simp only [withCallers] at stepped
  split at stepped
  · obtain ⟨⟨after, following, started⟩, taken, same⟩ := Option.map_eq_some_iff.mp stepped
    cases same
    exact .program taken
  · split at stepped
    · cases stepped
    · rename_i looked
      cases stepped
      exact .looked looked
    · rename_i did
      obtain ⟨after, done, same⟩ := Option.map_eq_some_iff.mp stepped
      cases same
      exact .did did done
  · cases stepped

/-- A move is one of the program, or the program does not notice it. -/
theorem inside_moves (uniform : ∀ i j shared thread input, P.step i shared thread input = P.step j shared thread input)
    {c d : Config (σ × ρ) (τ ⊕ υ)} {move : Move (τ ⊕ υ) (ι ⊕ κ) (β ⊕ γ)} (moves : (P.withCallers C).Moves c move d) :
    inside d = inside c ∨ ∃ own, P.machine.step (inside c) own = some (inside d) := by
  cases moves with
  | @start shared threads thread allowed =>
    cases thread with
    | inl thread =>
      right
      refine ⟨.start thread, ?_⟩
      have mine : P.starts thread = true := allowed
      simp [inside, machine, mine]
    | inr caller =>
      left
      simp [inside]
  | @step shared later before after new thread next input stepped =>
    cases callerSteps_of_step stepped with
    | @program now following own mine moved started given taken =>
      right
      rw [uniform before.length (ownThreads before).length] at taken
      refine ⟨.step (ownThreads before).length given, ?_⟩
      simpa [inside] using P.machine_step_at taken
    | looked taken =>
      left
      simp [inside]
    | @did shared now own later caller following input operation taken done =>
      right
      refine ⟨.ambient operation, ?_⟩
      simp [inside, machine, done]
  | @ambient shared later threads operation done =>
    cases operation with
    | inl operation =>
      obtain ⟨after, taken, rfl⟩ := Option.map_eq_some_iff.mp done
      right
      refine ⟨.ambient operation, ?_⟩
      simp [inside, machine, taken]
    | inr operation =>
      obtain ⟨own, -, rfl⟩ := Option.map_eq_some_iff.mp done
      left
      rfl

/-- A run among callers is a run of the program. -/
theorem inside_run (uniform : ∀ i j shared thread input, P.step i shared thread input = P.step j shared thread input)
    {c d : Config (σ × ρ) (τ ⊕ υ)} {moves : List (Move (τ ⊕ υ) (ι ⊕ κ) (β ⊕ γ))}
    (reached : (P.withCallers C).machine.run c moves = some d) :
    ∃ own, P.machine.run (inside c) own = some (inside d) := by
  induction moves generalizing c with
  | nil =>
    cases reached
    exact ⟨[], rfl⟩
  | cons move moves ih =>
    rw [Machine.run_cons] at reached
    obtain ⟨middle, taken, reached⟩ := Option.bind_eq_some_iff.mp reached
    obtain ⟨rest, run⟩ := ih reached
    rcases inside_moves uniform ((P.withCallers C).moves_of_step taken) with same | ⟨own, stepped⟩
    · rw [same] at run
      exact ⟨rest, run⟩
    · refine ⟨own :: rest, ?_⟩
      rw [Machine.run_cons, stepped]
      exact run

/-- What every move of the program keeps holds from then on, among callers too. -/
theorem inside_always (uniform : ∀ i j shared thread input, P.step i shared thread input = P.step j shared thread input)
    (e : (P.withCallers C).Execution) {I : Config σ τ → Prop} (keeps : ∀ c move d, I c → P.Moves c move d → I d)
    {start : Nat} (holds : I (inside (e.config start))) {n : Nat} (later : start ≤ n) : I (inside (e.config n)) := by
  apply e.always (I := fun c => I (inside c)) _ holds later
  intro c move d hold moves
  rcases inside_moves uniform moves with same | ⟨own, stepped⟩
  · rw [same]
    exact hold
  · exact keeps _ own _ hold (P.moves_of_step stepped)

end Program

end Myrmidon.Transition
