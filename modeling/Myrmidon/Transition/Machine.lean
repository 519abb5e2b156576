import Mathlib.Data.List.Basic

namespace Myrmidon.Transition

/-- A machine is an executable labelled transition system. A label that is not
    enabled in a state has no next state. -/
structure Machine (σ α : Type*) where
  step : σ → α → Option σ

namespace Machine

variable {σ α : Type*} (M : Machine σ α)

def run : σ → List α → Option σ
  | s, [] => some s
  | s, a :: rest =>
    match M.step s a with
    | none => none
    | some t => run t rest

/-- Every step taken along the run meets the condition in the state before it. -/
def Meets (condition : σ → α → Prop) : σ → List α → Prop
  | _, [] => True
  | s, a :: rest => condition s a ∧ ∀ t, M.step s a = some t → Meets condition t rest

@[simp] theorem run_nil (s : σ) : M.run s [] = some s := rfl

theorem run_cons (s : σ) (a : α) (rest : List α) :
    M.run s (a :: rest) = (M.step s a).bind fun t => M.run t rest := by
  simp only [run]
  cases M.step s a <;> rfl

theorem run_append (s : σ) (first second : List α) :
    M.run s (first ++ second) = (M.run s first).bind fun t => M.run t second := by
  induction first generalizing s with
  | nil => rfl
  | cons a rest ih =>
    rw [List.cons_append, run_cons, run_cons]
    cases M.step s a with
    | none => rfl
    | some t => exact ih t

theorem meets_cons {condition : σ → α → Prop} {s t : σ} {a : α} {rest : List α} (stepped : M.step s a = some t)
    (holds : condition s a) (meets : M.Meets condition t rest) : M.Meets condition s (a :: rest) := by
  refine ⟨holds, ?_⟩
  intro other taken
  cases stepped.symm.trans taken
  exact meets

def tally (mark : σ → α → Nat) : σ → List α → Nat
  | _, [] => 0
  | s, a :: rest =>
    mark s a +
      match M.step s a with
      | none => 0
      | some t => tally mark t rest

/-- The invariant rule for runs under a condition on every step, with the tally so far. -/
theorem run_tally_of_meets {condition : σ → α → Prop} (mark : σ → α → Nat) {P : Nat → σ → Prop}
    (keeps : ∀ n s a t, P n s → condition s a → M.step s a = some t → P (n + mark s a) t)
    {labels : List α} {n : Nat} {s t : σ} (start : P n s) (meets : M.Meets condition s labels)
    (reached : M.run s labels = some t) : P (n + M.tally mark s labels) t := by
  induction labels generalizing n s with
  | nil => cases reached; exact start
  | cons a rest ih =>
    rw [run_cons] at reached
    obtain ⟨middle, stepped, reached⟩ := Option.bind_eq_some_iff.mp reached
    have later := ih (keeps n s a middle start meets.1 stepped) (meets.2 middle stepped) reached
    simp only [tally, stepped]
    rwa [← Nat.add_assoc]

theorem run_invariant_of_meets {condition : σ → α → Prop} {P : σ → Prop}
    (keeps : ∀ s a t, P s → condition s a → M.step s a = some t → P t)
    {labels : List α} {s t : σ} (start : P s) (meets : M.Meets condition s labels)
    (reached : M.run s labels = some t) : P t := by
  have kept : ∀ (_ : Nat) s a t, P s → condition s a → M.step s a = some t → P t := fun _ => keeps
  exact M.run_tally_of_meets (fun _ _ => 0) (n := 0) (P := fun _ => P) kept start meets reached

theorem meets_of_forall {condition : σ → α → Prop} {labels : List α} (all : ∀ a ∈ labels, ∀ s, condition s a) (s : σ) :
    M.Meets condition s labels := by
  induction labels generalizing s with
  | nil => trivial
  | cons a rest ih =>
    exact ⟨all a List.mem_cons_self s, fun t _ => ih (fun b member => all b (List.mem_cons_of_mem _ member)) t⟩

def checks (condition : σ → α → Prop) [∀ s a, Decidable (condition s a)] : σ → List α → Bool
  | _, [] => true
  | s, a :: rest =>
    decide (condition s a) &&
      match M.step s a with
      | none => true
      | some t => checks condition t rest

theorem meets_of_checks {condition : σ → α → Prop} [∀ s a, Decidable (condition s a)] {labels : List α} {s : σ}
    (checked : M.checks condition s labels = true) : M.Meets condition s labels := by
  induction labels generalizing s with
  | nil => trivial
  | cons a rest ih =>
    unfold checks at checked
    rw [Bool.and_eq_true] at checked
    obtain ⟨holds, later⟩ := checked
    refine ⟨of_decide_eq_true holds, ?_⟩
    intro t stepped
    rw [stepped] at later
    exact ih later

theorem checks_of_meets {condition : σ → α → Prop} [∀ s a, Decidable (condition s a)] {labels : List α} {s : σ}
    (meets : M.Meets condition s labels) : M.checks condition s labels = true := by
  induction labels generalizing s with
  | nil => rfl
  | cons a rest ih =>
    unfold checks
    rw [decide_eq_true meets.1, Bool.true_and]
    split
    · rfl
    · rename_i t stepped
      exact ih (meets.2 t stepped)

theorem not_meets_of_checks {condition : σ → α → Prop} [∀ s a, Decidable (condition s a)] {labels : List α} {s : σ}
    (checked : M.checks condition s labels = false) : ¬ M.Meets condition s labels := by
  intro meets
  rw [M.checks_of_meets meets] at checked
  cases checked

/-- A fact about the end of a given run, evaluated. -/
theorem exists_of_check {P : σ → Prop} [DecidablePred P] {labels : List α} {s : σ}
    (checked : ((M.run s labels).map fun t => decide (P t)) = some true) : ∃ t, M.run s labels = some t ∧ P t := by
  obtain ⟨t, reached, holds⟩ := Option.map_eq_some_iff.mp checked
  exact ⟨t, reached, of_decide_eq_true holds⟩

theorem meets_true (s : σ) (labels : List α) : M.Meets (fun _ _ => True) s labels :=
  M.meets_of_forall (fun _ _ _ => trivial) s

/-- A condition that follows from another one and from what that one keeps. -/
theorem meets_of_meets {condition other : σ → α → Prop} {P : σ → Prop}
    (keeps : ∀ s a t, P s → condition s a → M.step s a = some t → P t)
    (gives : ∀ s a, P s → condition s a → other s a) {labels : List α} {s : σ} (start : P s)
    (meets : M.Meets condition s labels) : M.Meets other s labels := by
  induction labels generalizing s with
  | nil => trivial
  | cons a rest ih =>
    refine ⟨gives s a start meets.1, fun t stepped => ?_⟩
    exact ih (keeps s a t start meets.1 stepped) (meets.2 t stepped)

/-- The invariant rule: what every step keeps, every run keeps. -/
theorem run_invariant {P : σ → Prop} (keeps : ∀ s a t, P s → M.step s a = some t → P t)
    {labels : List α} {s t : σ} (start : P s) (reached : M.run s labels = some t) : P t :=
  M.run_invariant_of_meets (fun s a t hold _ => keeps s a t hold) start (M.meets_true s labels) reached

theorem run_dichotomy {condition : σ → α → Prop} {P Q : σ → Prop}
    (keeps : ∀ s a t, P s → condition s a → M.step s a = some t → P t)
    (leaves : ∀ s a t, P s → ¬ condition s a → M.step s a = some t → Q t)
    (stays : ∀ s a t, Q s → M.step s a = some t → Q t) {labels : List α} {s t : σ} (start : P s)
    (reached : M.run s labels = some t) :
    (M.Meets condition s labels ∧ P t) ∨ (¬ M.Meets condition s labels ∧ Q t) := by
  induction labels generalizing s with
  | nil =>
    cases reached
    exact .inl ⟨trivial, start⟩
  | cons a rest ih =>
    rw [run_cons] at reached
    obtain ⟨middle, stepped, reached⟩ := Option.bind_eq_some_iff.mp reached
    by_cases holds : condition s a
    · rcases ih (keeps s a middle start holds stepped) reached with ⟨meets, good⟩ | ⟨breaks, bad⟩
      · exact .inl ⟨M.meets_cons stepped holds meets, good⟩
      · exact .inr ⟨fun meets => breaks (meets.2 middle stepped), bad⟩
    · have bad := leaves s a middle start holds stepped
      exact .inr ⟨fun meets => holds meets.1, M.run_invariant stays bad reached⟩

theorem run_total {P : σ → Prop} (progress : ∀ s a, P s → ∃ t, M.step s a = some t ∧ P t)
    (labels : List α) {s : σ} (start : P s) : ∃ t, M.run s labels = some t ∧ P t := by
  induction labels generalizing s with
  | nil => exact ⟨s, rfl, start⟩
  | cons a rest ih =>
    obtain ⟨middle, stepped, hold⟩ := progress s a start
    obtain ⟨t, reached, final⟩ := ih hold
    exact ⟨t, by rw [run_cons, stepped]; exact reached, final⟩

end Machine

end Myrmidon.Transition
