import Mathlib.Data.Nat.Find
import Myrmidon.Transition.Interleaving

namespace Myrmidon.Transition.Program

variable {σ τ ι β : Type*} (P : Program σ τ ι β)

/-- An endless run. At some moments nothing moves. -/
structure Execution where
  config : Nat → Config σ τ
  move : Nat → Option (Move τ ι β)
  follows : ∀ n, (match move n with
    | none => some (config n)
    | some taken => P.machine.step (config n) taken) = some (config (n + 1))

variable {P} in
theorem Moves.new_mem {c d : Config σ τ} {index : Nat} {input : ι} (moves : P.Moves c (.step index input) d)
    {thread next : τ} {later : σ} {new : List τ} (found : c.threads[index]? = some thread)
    (stepped : P.step index c.shared thread input = some (later, next, new)) : ∀ other ∈ new, other ∈ d.threads := by
  cases moves with
  | @step shared after before rest started moved following _ taken =>
    have same : moved = thread := by simpa using found
    subst same
    cases taken.symm.trans stepped
    intro other member
    simp [member]

def Can (index : Nat) (c : Config σ τ) : Prop := ∃ input, (P.machine.step c (.step index input)).isSome = true

namespace Execution

variable {P} (e : P.Execution)

/-- A thread that can always move from some moment on does move after it. -/
def Fair : Prop :=
  ∀ index start, (∀ n, start ≤ n → P.Can index (e.config n)) →
    ∃ n input, start ≤ n ∧ e.move n = some (.step index input)

/-- Some of these moves is made after a moment from which on one of them is always possible. -/
def FairOn (own : Move τ ι β → Prop) : Prop :=
  ∀ start, (∀ n, start ≤ n → ∃ move, own move ∧ (P.machine.step (e.config n) move).isSome = true) →
    ∃ n move, start ≤ n ∧ own move ∧ e.move n = some move

/-- A thread that can move again and again does move again and again. -/
def StronglyFair : Prop :=
  ∀ index, (∀ start, ∃ n, start ≤ n ∧ P.Can index (e.config n)) →
    ∀ start, ∃ n input, start ≤ n ∧ e.move n = some (.step index input)

theorem Fair.fairOn {e : P.Execution} (fair : e.Fair) (index : Nat) :
    e.FairOn fun move => ∃ input, move = .step index input := by
  intro start can
  obtain ⟨n, input, later, taken⟩ := fair index start fun n later => by
    obtain ⟨_, ⟨input, rfl⟩, possible⟩ := can n later
    exact ⟨input, possible⟩
  exact ⟨n, _, later, ⟨input, rfl⟩, taken⟩

theorem idle {n : Nat} (none : e.move n = none) : e.config (n + 1) = e.config n := by
  have follows := e.follows n
  rw [none] at follows
  exact (Option.some.inj follows).symm

theorem moves {n : Nat} {taken : Move τ ι β} (some : e.move n = some taken) :
    P.Moves (e.config n) taken (e.config (n + 1)) := by
  have follows := e.follows n
  rw [some] at follows
  exact P.moves_of_step follows

/-- What the moves of the execution keep holds from any moment at which it holds. -/
theorem along {I : Config σ τ → Prop} (keeps : ∀ n move, e.move n = some move → I (e.config n) → I (e.config (n + 1)))
    {start : Nat} (holds : I (e.config start)) {n : Nat} (later : start ≤ n) : I (e.config n) := by
  induction n, later using Nat.le_induction with
  | base => exact holds
  | succ n _ ih =>
    cases taken : e.move n with
    | none =>
      rw [e.idle taken]
      exact ih
    | some move => exact keeps n move taken ih

/-- What every move keeps holds from any moment at which it holds. -/
theorem always {I : Config σ τ → Prop} (keeps : ∀ c move d, I c → P.Moves c move d → I d) {start : Nat}
    (holds : I (e.config start)) {n : Nat} (later : start ≤ n) : I (e.config n) :=
  e.along (fun _ move taken held => keeps _ move _ held (e.moves taken)) holds later

theorem reached (n : Nat) : ∃ moves, P.machine.run (e.config 0) moves = some (e.config n) := by
  induction n with
  | zero => exact ⟨[], rfl⟩
  | succ n ih =>
    obtain ⟨moves, run⟩ := ih
    have follows := e.follows n
    cases taken : e.move n with
    | none =>
      rw [e.idle taken]
      exact ⟨moves, run⟩
    | some move =>
      rw [taken] at follows
      have stepped : P.machine.step (e.config n) move = some (e.config (n + 1)) := follows
      refine ⟨moves ++ [move], ?_⟩
      rw [P.machine.run_append, run, Option.bind_some, P.machine.run_cons, stepped]
      rfl

theorem thread_next {n index : Nat} {thread : τ} (found : (e.config n).threads[index]? = some thread) :
    (∃ input next new, e.move n = some (.step index input) ∧
      P.step index (e.config n).shared thread input = some ((e.config (n + 1)).shared, next, new) ∧
      (e.config (n + 1)).threads[index]? = some next) ∨
    (e.config (n + 1)).threads[index]? = some thread := by
  cases taken : e.move n with
  | none =>
    rw [e.idle taken]
    exact .inr found
  | some move =>
    rcases (e.moves taken).thread_at found with ⟨input, next, new, rfl, stepped, after⟩ | ⟨-, same⟩
    · exact .inl ⟨input, next, new, rfl, stepped, after⟩
    · exact .inr same

/-- A thread stays as it is until it moves. -/
theorem stays {start index : Nat} {thread : τ} (found : (e.config start).threads[index]? = some thread) {n : Nat}
    (later : start ≤ n) (still : ∀ m, start ≤ m → m < n → ∀ input, e.move m ≠ some (.step index input)) :
    (e.config n).threads[index]? = some thread := by
  induction n, later using Nat.le_induction with
  | base => exact found
  | succ n later ih =>
    have here := ih fun m after before => still m after (Nat.lt_succ_of_lt before)
    rcases e.thread_next here with ⟨input, _, _, taken, -⟩ | same
    · exact absurd taken (still n later (Nat.lt_succ_self n) input)
    · exact same

/-- A thread that can move as long as it stays where it is does move. -/
theorem takes_turn (fair : e.Fair) {start index : Nat} {thread : τ}
    (found : (e.config start).threads[index]? = some thread)
    (can : ∀ n, start ≤ n → (e.config n).threads[index]? = some thread → P.Can index (e.config n)) :
    ∃ n input, start ≤ n ∧ (e.config n).threads[index]? = some thread ∧ e.move n = some (.step index input) := by
  by_cases moved : ∃ n, start ≤ n ∧ ∃ input, e.move n = some (.step index input)
  · classical
    obtain ⟨later, input, taken⟩ := Nat.find_spec moved
    have here := e.stays found later fun m after before input same => Nat.find_min moved before ⟨after, input, same⟩
    exact ⟨_, input, later, here, taken⟩
  · have stays := fun n later =>
      e.stays found (n := n) later fun m after _ input taken => moved ⟨m, after, input, taken⟩
    obtain ⟨n, input, later, taken⟩ := fair index start fun n later => can n later (stays n later)
    exact absurd ⟨n, later, input, taken⟩ moved

theorem moves_on (fair : e.Fair) {start index : Nat} {thread : τ}
    (found : (e.config start).threads[index]? = some thread)
    (can : ∀ n, start ≤ n → (e.config n).threads[index]? = some thread → P.Can index (e.config n)) :
    ∃ n input next new, start ≤ n ∧ (e.config n).threads[index]? = some thread ∧
      P.step index (e.config n).shared thread input = some ((e.config (n + 1)).shared, next, new) ∧
      (e.config (n + 1)).threads[index]? = some next := by
  obtain ⟨n, input, later, here, taken⟩ := e.takes_turn fair found can
  rcases (e.moves taken).thread_at here with ⟨_, next, new, -, stepped, after⟩ | ⟨other, -⟩
  · exact ⟨n, _, next, new, later, here, stepped, after⟩
  · exact absurd rfl (other input)

/-- A thread that cannot stay where it is for ever without being able to move leaves it. -/
theorem StronglyFair.takes_turn {e : P.Execution} (fair : e.StronglyFair) {start index : Nat} {thread : τ}
    (found : (e.config start).threads[index]? = some thread)
    (can : (∀ n, start ≤ n → (e.config n).threads[index]? = some thread) →
      ∀ n, start ≤ n → ∃ m, n ≤ m ∧ P.Can index (e.config m)) :
    ∃ n input, start ≤ n ∧ e.move n = some (.step index input) := by
  by_contra never
  have stays : ∀ n, start ≤ n → (e.config n).threads[index]? = some thread := fun n later =>
    e.stays found later fun m after _ input taken => never ⟨m, input, after, taken⟩
  have again : ∀ n, ∃ m, n ≤ m ∧ P.Can index (e.config m) := by
    intro n
    obtain ⟨m, late, possible⟩ := can stays (max start n) (Nat.le_max_left _ _)
    exact ⟨m, by omega, possible⟩
  exact never (fair index again start)

/-- A thread whose own steps descend in a well-founded relation, and that gets a
    turn until it is done, is done in the end, whatever the others do. -/
theorem eventually_of_turns {smaller : τ → τ → Prop} (wf : WellFounded smaller) {Q done : τ → Prop} {start index : Nat}
    (turn : ∀ n thread, start ≤ n → (e.config n).threads[index]? = some thread → Q thread → ¬ done thread →
      ∃ m input, n ≤ m ∧ e.move m = some (.step index input))
    (descends : ∀ shared thread input later next new, Q thread → ¬ done thread →
      P.step index shared thread input = some (later, next, new) → Q next ∧ smaller next thread)
    {thread : τ} (found : (e.config start).threads[index]? = some thread) (holds : Q thread) :
    ∃ n last, start ≤ n ∧ (e.config n).threads[index]? = some last ∧ Q last ∧ done last := by
  induction thread using wf.induction generalizing start with
  | _ thread ih =>
    by_cases finished : done thread
    · exact ⟨start, thread, Nat.le_refl _, found, holds, finished⟩
    · classical
      have moved : ∃ n, start ≤ n ∧ ∃ input, e.move n = some (.step index input) := by
        obtain ⟨n, input, later, taken⟩ := turn start thread (Nat.le_refl _) found holds finished
        exact ⟨n, later, input, taken⟩
      obtain ⟨later, input, taken⟩ := Nat.find_spec moved
      have here := e.stays found later fun m after before input same => Nat.find_min moved before ⟨after, input, same⟩
      rcases (e.moves taken).thread_at here with ⟨_, next, new, -, stepped, after⟩ | ⟨other, -⟩
      · obtain ⟨kept, descent⟩ := descends _ _ _ _ _ _ holds finished stepped
        obtain ⟨m, last, much, there, holds, done⟩ :=
          ih next descent (fun n thread much => turn n thread (by omega)) after kept
        exact ⟨m, last, by omega, there, holds, done⟩
      · exact absurd rfl (other input)

theorem eventually (fair : e.Fair) {smaller : τ → τ → Prop} (wf : WellFounded smaller) {Q done : τ → Prop}
    {start index : Nat}
    (can : ∀ n thread, start ≤ n → (e.config n).threads[index]? = some thread → Q thread → ¬ done thread →
      P.Can index (e.config n))
    (descends : ∀ shared thread input later next new, Q thread → ¬ done thread →
      P.step index shared thread input = some (later, next, new) → Q next ∧ smaller next thread)
    {thread : τ} (found : (e.config start).threads[index]? = some thread) (holds : Q thread) :
    ∃ n last, start ≤ n ∧ (e.config n).threads[index]? = some last ∧ Q last ∧ done last := by
  apply e.eventually_of_turns wf _ descends found holds
  intro n thread later found holds unfinished
  obtain ⟨m, input, after, -, taken⟩ :=
    e.takes_turn fair found fun k after same => can k thread (by omega) same holds unfinished
  exact ⟨m, input, after, taken⟩

/-- The goal is reached, if no move raises a rank before that, and moves of which
    one is always possible, and that are made fairly, lower it. -/
theorem reaches_on {own : Move τ ι β → Prop} (fair : e.FairOn own) (goal : Config σ τ → Prop) (rank : Config σ τ → Nat)
    {start : Nat}
    (can : ∀ n, start ≤ n → ¬ goal (e.config n) → ∃ move, own move ∧ (P.machine.step (e.config n) move).isSome = true)
    (steady : ∀ n, start ≤ n → ¬ goal (e.config n) → ¬ goal (e.config (n + 1)) →
      rank (e.config (n + 1)) ≤ rank (e.config n))
    (lowers : ∀ n move, start ≤ n → ¬ goal (e.config n) → ¬ goal (e.config (n + 1)) → own move →
      e.move n = some move → rank (e.config (n + 1)) < rank (e.config n)) :
    ∃ n, start ≤ n ∧ goal (e.config n) := by
  induction left : rank (e.config start) using Nat.strong_induction_on generalizing start with
  | _ bound ih =>
    by_contra never
    have missed : ∀ n, start ≤ n → ¬ goal (e.config n) := fun n later reached => never ⟨n, later, reached⟩
    obtain ⟨n, move, later, mine, taken⟩ := fair start fun n later => can n later (missed n later)
    have below : rank (e.config n) ≤ bound := by
      clear taken
      induction n, later using Nat.le_induction with
      | base => omega
      | succ n later ih =>
        have next := steady n later (missed n later) (missed (n + 1) (by omega))
        omega
    have lower := lowers n move later (missed n later) (missed (n + 1) (by omega)) mine taken
    obtain ⟨m, after, reached⟩ := ih _ (Nat.lt_of_lt_of_le lower below) (fun m after => can m (by omega))
      (fun m after => steady m (by omega)) (fun m move after => lowers m move (by omega)) rfl
    exact missed m (by omega) reached

/-- The same for one thread that can always move. -/
theorem reaches (fair : e.Fair) (goal : Config σ τ → Prop) (rank : Config σ τ → Nat) {index start : Nat}
    (can : ∀ n, start ≤ n → ¬ goal (e.config n) → P.Can index (e.config n))
    (steady : ∀ n, start ≤ n → ¬ goal (e.config n) → ¬ goal (e.config (n + 1)) →
      rank (e.config (n + 1)) ≤ rank (e.config n))
    (lowers : ∀ n input, start ≤ n → ¬ goal (e.config n) → ¬ goal (e.config (n + 1)) →
      e.move n = some (.step index input) → rank (e.config (n + 1)) < rank (e.config n)) :
    ∃ n, start ≤ n ∧ goal (e.config n) := by
  apply e.reaches_on (fair.fairOn index) goal rank _ steady
  · rintro n _ later missed goesOn ⟨input, rfl⟩ taken
    exact lowers n input later missed goesOn taken
  · intro n later missed
    obtain ⟨input, possible⟩ := can n later missed
    exact ⟨_, ⟨input, rfl⟩, possible⟩

end Execution

/-- A run after which nothing can move, as an endless one. -/
def Execution.ofRun {c d : Config σ τ} {taken : List (Move τ ι β)} (reached : P.machine.run c taken = some d) :
    P.Execution where
  config n := (P.machine.run c (taken.take n)).getD c
  move n := taken[n]?
  follows n := by
    have whole := reached
    rw [← List.take_append_drop n taken, P.machine.run_append] at whole
    obtain ⟨middle, before, after⟩ := Option.bind_eq_some_iff.mp whole
    cases next : taken[n]? with
    | none =>
      have short := List.getElem?_eq_none_iff.mp next
      rw [List.take_of_length_le short, List.take_of_length_le (Nat.le_succ_of_le short)]
    | some move =>
      obtain ⟨inside, value⟩ := List.getElem?_eq_some_iff.mp next
      have split : taken.drop n = move :: taken.drop (n + 1) := by rw [← value, List.cons_getElem_drop_succ]
      rw [split, P.machine.run_cons] at after
      obtain ⟨later, stepped, -⟩ := Option.bind_eq_some_iff.mp after
      have longer : P.machine.run c (taken.take (n + 1)) = some later := by
        rw [List.take_add_one, next, P.machine.run_append, before, Option.bind_some, Option.toList_some,
          P.machine.run_cons, stepped]
        rfl
      rw [before, longer]
      exact stepped

namespace Execution

variable {P} {c d : Config σ τ} {taken : List (Move τ ι β)} (reached : P.machine.run c taken = some d)

theorem ofRun_config {n : Nat} (past : taken.length ≤ n) : (ofRun P reached).config n = d := by
  show (P.machine.run c (taken.take n)).getD c = d
  rw [List.take_of_length_le past, reached]
  rfl

theorem ofRun_fair (stuck : ∀ index, ¬ P.Can index d) : (ofRun P reached).Fair := by
  intro index start can
  have last := can (max start taken.length) (Nat.le_max_left _ _)
  rw [ofRun_config reached (Nat.le_max_right _ _)] at last
  exact absurd last (stuck index)

theorem ofRun_fairOn {own : Move τ ι β → Prop} (stuck : ∀ move, own move → (P.machine.step d move).isSome = false) :
    (ofRun P reached).FairOn own := by
  intro start can
  obtain ⟨move, mine, possible⟩ := can (max start taken.length) (Nat.le_max_left _ _)
  rw [ofRun_config reached (Nat.le_max_right _ _), stuck move mine] at possible
  cases possible

theorem ofRun_stronglyFair (stuck : ∀ index, ¬ P.Can index d) : (ofRun P reached).StronglyFair := by
  intro index again
  obtain ⟨n, late, can⟩ := again taken.length
  rw [ofRun_config reached late] at can
  exact absurd can (stuck index)

/-- What holds along the run and at its end holds for ever. -/
theorem ofRun_forall {Q : Config σ τ → Prop}
    (all : ∀ n ≤ taken.length, Q ((P.machine.run c (taken.take n)).getD c)) (n : Nat) :
    Q ((ofRun P reached).config n) := by
  rcases Nat.le_total n taken.length with early | late
  · exact all n early
  · have same : (ofRun P reached).config n = (ofRun P reached).config taken.length :=
      (ofRun_config reached late).trans (ofRun_config reached (Nat.le_refl _)).symm
    rw [same]
    exact all _ (Nat.le_refl _)

end Execution

/-- What a choice of the next move makes of a configuration. -/
def chosen (choose : Config σ τ → Move τ ι β) (start : Config σ τ) (n : Nat) : Config σ τ :=
  (fun c => (P.machine.step c (choose c)).getD c)^[n] start

variable {P} {choose : Config σ τ → Move τ ι β} {start : Config σ τ} {I : Config σ τ → Prop}

theorem chosen_succ (n : Nat) : chosen P choose start (n + 1) =
    (P.machine.step (chosen P choose start n) (choose (chosen P choose start n))).getD (chosen P choose start n) :=
  Function.iterate_succ_apply' _ n start

theorem chosen_holds (goes : ∀ c, I c → ∃ d, P.machine.step c (choose c) = some d ∧ I d) (holds : I start) (n : Nat) :
    I (chosen P choose start n) := by
  induction n with
  | zero => exact holds
  | succ n ih =>
    obtain ⟨d, stepped, kept⟩ := goes _ ih
    rw [chosen_succ, stepped]
    exact kept

/-- The endless run of a choice that never gets stuck. -/
def Execution.ofChoice (goes : ∀ c, I c → ∃ d, P.machine.step c (choose c) = some d ∧ I d) (holds : I start) :
    P.Execution where
  config := chosen P choose start
  move n := some (choose (chosen P choose start n))
  follows n := by
    obtain ⟨d, stepped, -⟩ := goes _ (chosen_holds goes holds n)
    rw [chosen_succ, stepped]
    exact stepped

end Myrmidon.Transition.Program
