import Mathlib.Algebra.Ring.Nat
import Mathlib.Algebra.BigOperators.Group.List.Basic
import Myrmidon.Transition.Machine

namespace Myrmidon.Transition

/-- Threads that take turns on a shared state. A thread is told its own index
    and an input that it does not control; its step may start further threads.
    Single shared operations need no thread and are ambient. -/
structure Program (σ τ ι β : Type*) where
  starts : τ → Bool
  step : Nat → σ → τ → ι → Option (σ × τ × List τ)
  ambient : σ → β → Option σ

structure Config (σ τ : Type*) where
  shared : σ
  threads : List τ

inductive Move (τ ι β : Type*) where
  | start (thread : τ)
  | step (index : Nat) (input : ι)
  | ambient (operation : β)

namespace Program

variable {σ τ ι β : Type*} (P : Program σ τ ι β)

def machine : Machine (Config σ τ) (Move τ ι β) where
  step c
    | .start thread => if P.starts thread then some { c with threads := c.threads ++ [thread] } else none
    | .step index input =>
      match c.threads[index]? with
      | none => none
      | some thread =>
        match P.step index c.shared thread input with
        | none => none
        | some (shared, thread, new) => some ⟨shared, c.threads.set index thread ++ new⟩
    | .ambient operation => (P.ambient c.shared operation).map fun shared => { c with shared }

inductive Moves : Config σ τ → Move τ ι β → Config σ τ → Prop where
  | start {shared : σ} {threads : List τ} {thread : τ} (allowed : P.starts thread = true) :
      Moves ⟨shared, threads⟩ (.start thread) ⟨shared, threads ++ [thread]⟩
  | step {shared later : σ} {before after new : List τ} {thread next : τ} {input : ι}
      (stepped : P.step before.length shared thread input = some (later, next, new)) :
      Moves ⟨shared, before ++ thread :: after⟩ (.step before.length input) ⟨later, before ++ next :: (after ++ new)⟩
  | ambient {shared later : σ} {threads : List τ} {operation : β}
      (done : P.ambient shared operation = some later) :
      Moves ⟨shared, threads⟩ (.ambient operation) ⟨later, threads⟩

theorem set_append_cons (before after : List τ) (thread next : τ) :
    (before ++ thread :: after).set before.length next = before ++ next :: after := by
  rw [List.set_append_right _ _ (Nat.le_refl _), Nat.sub_self, List.set_cons_zero]

theorem machine_step_at {shared later : σ} {before after new : List τ} {thread next : τ} {input : ι}
    (stepped : P.step before.length shared thread input = some (later, next, new)) :
    P.machine.step ⟨shared, before ++ thread :: after⟩ (.step before.length input) =
      some ⟨later, before ++ next :: (after ++ new)⟩ := by
  have found : (before ++ thread :: after)[before.length]? = some thread := by simp
  simp only [machine, found, stepped]
  rw [set_append_cons, List.append_assoc, List.cons_append]

theorem exists_split_of_getElem? {threads : List τ} {index : Nat} {thread : τ}
    (found : threads[index]? = some thread) :
    ∃ before after, threads = before ++ thread :: after ∧ index = before.length := by
  obtain ⟨inside, value⟩ := List.getElem?_eq_some_iff.mp found
  refine ⟨threads.take index, threads.drop (index + 1), ?_, ?_⟩
  · rw [← value, List.cons_getElem_drop_succ, List.take_append_drop]
  · rw [List.length_take]
    omega

theorem moves_of_step {c d : Config σ τ} {move : Move τ ι β} (taken : P.machine.step c move = some d) :
    P.Moves c move d := by
  obtain ⟨shared, threads⟩ := c
  cases move with
  | start thread =>
    simp only [machine] at taken
    split at taken
    · rename_i allowed
      cases taken
      exact .start allowed
    · cases taken
  | step index input =>
    simp only [machine] at taken
    split at taken
    · cases taken
    · rename_i thread found
      split at taken
      · cases taken
      · rename_i later next new stepped
        obtain ⟨before, after, rfl, rfl⟩ := exists_split_of_getElem? found
        cases taken
        rw [set_append_cons, List.append_assoc, List.cons_append]
        exact .step stepped
  | ambient operation =>
    obtain ⟨later, done, rfl⟩ := Option.map_eq_some_iff.mp taken
    exact .ambient done

theorem forall_replace {Q : τ → Prop} {before after : List τ} {thread next : τ}
    (all : ∀ t ∈ before ++ thread :: after, Q t) (holds : Q next) : ∀ t ∈ before ++ next :: after, Q t := by
  rw [List.forall_mem_append, List.forall_mem_cons] at all ⊢
  exact ⟨all.1, holds, all.2.2⟩

theorem forall_replace_append {Q : τ → Prop} {before after new : List τ} {thread next : τ}
    (all : ∀ t ∈ before ++ thread :: after, Q t) (holds : Q next) (fresh : ∀ t ∈ new, Q t) :
    ∀ t ∈ before ++ next :: (after ++ new), Q t := by
  rw [← List.cons_append, ← List.append_assoc, List.forall_mem_append]
  exact ⟨forall_replace all holds, fresh⟩

theorem perm_replace_append (before after new : List τ) (next : τ) :
    (next :: new ++ (before ++ after)).Perm (before ++ next :: (after ++ new)) := by
  calc (next :: new ++ (before ++ after)).Perm ((before ++ after) ++ next :: new) := List.perm_append_comm
    _ = before ++ (after ++ [next] ++ new) := by simp
    List.Perm _ (before ++ ([next] ++ after ++ new)) := (List.perm_append_comm.append_right new).append_left before
    _ = before ++ next :: (after ++ new) := by simp

/-- The others may be seen in a new light, the moving thread and the threads it starts besides. -/
theorem forall_moved {Q : τ → Prop} {before after new : List τ} {next : τ} (mine : Q next)
    (others : ∀ t ∈ before ++ after, Q t) (fresh : ∀ t ∈ new, Q t) : ∀ t ∈ before ++ next :: (after ++ new), Q t := by
  intro t member
  rcases List.mem_append.mp ((perm_replace_append before after new next).mem_iff.mpr member) with moved | other
  · rcases List.mem_cons.mp moved with rfl | started
    · exact mine
    · exact fresh t started
  · exact others t other

theorem mem_replace_append {before after new : List τ} {thread next t : τ}
    (member : t ∈ before ++ next :: (after ++ new)) : t ∈ before ++ thread :: after ∨ t ∈ next :: new := by
  rcases List.mem_append.mp member with early | late
  · exact .inl (List.mem_append_left _ early)
  · rcases List.mem_cons.mp late with rfl | late
    · exact .inr List.mem_cons_self
    · rcases List.mem_append.mp late with old | fresh
      · exact .inl (List.mem_append_right _ (List.mem_cons_of_mem _ old))
      · exact .inr (List.mem_cons_of_mem _ fresh)

/-- A thread with `Q` leaves one with `R`, if the moving thread takes over from those that lose it. -/
theorem exists_replace_append {Q R : τ → Prop} {before after new : List τ} {thread next : τ}
    (found : ∃ t ∈ before ++ thread :: after, Q t) (kept : ∀ t, Q t → R t ∨ R next)
    (moved : Q thread → R next ∨ ∃ t ∈ new, R t) : ∃ t ∈ before ++ next :: (after ++ new), R t := by
  obtain ⟨t, member, holds⟩ := found
  have passed : R next → ∃ t ∈ before ++ next :: (after ++ new), R t := fun mine => ⟨next, by simp, mine⟩
  rcases List.mem_append.mp member with early | late
  · rcases kept t holds with stays | mine
    · exact ⟨t, by simp [early], stays⟩
    · exact passed mine
  · rcases List.mem_cons.mp late with rfl | late
    · rcases moved holds with mine | ⟨other, fresh, theirs⟩
      · exact passed mine
      · exact ⟨other, by simp [fresh], theirs⟩
    · rcases kept t holds with stays | mine
      · exact ⟨t, by simp [late], stays⟩
      · exact passed mine

variable {P} in
theorem Moves.forall_threads {Q : τ → Prop} {c d : Config σ τ} {move : Move τ ι β} (moves : P.Moves c move d)
    (all : ∀ thread ∈ c.threads, Q thread) (starts : ∀ thread, move = .start thread → P.starts thread = true → Q thread)
    (steps : ∀ index thread input later next new, Q thread →
      P.step index c.shared thread input = some (later, next, new) → Q next ∧ ∀ other ∈ new, Q other) :
    ∀ thread ∈ d.threads, Q thread := by
  cases moves with
  | start allowed =>
    rw [List.forall_mem_append, List.forall_mem_singleton]
    exact ⟨all, starts _ rfl allowed⟩
  | @step shared later before after new thread next input stepped =>
    have mine := all thread (List.mem_append_right _ List.mem_cons_self)
    obtain ⟨holds, fresh⟩ := steps before.length thread input later next new mine stepped
    exact forall_replace_append all holds fresh
  | ambient done => exact all

def total (weight : τ → Nat) (threads : List τ) : Nat := (threads.map weight).sum

theorem total_append (weight : τ → Nat) (first second : List τ) :
    total weight (first ++ second) = total weight first + total weight second := by
  simp [total]

theorem total_cons (weight : τ → Nat) (thread : τ) (threads : List τ) :
    total weight (thread :: threads) = weight thread + total weight threads := by
  simp [total]

theorem total_at (weight : τ → Nat) (before after : List τ) (thread : τ) :
    total weight (before ++ thread :: after) = weight thread + total weight (before ++ after) := by
  rw [total_append, total_cons, total_append]
  omega

theorem total_pos_of_mem {weight : τ → Nat} {threads : List τ} {thread : τ} (member : thread ∈ threads)
    (positive : 0 < weight thread) : 0 < total weight threads :=
  List.sum_pos_iff_exists_pos_nat.mpr ⟨weight thread, List.mem_map_of_mem member, positive⟩

theorem total_eq_zero {weight : τ → Nat} {threads : List τ} (free : ∀ thread ∈ threads, weight thread = 0) :
    total weight threads = 0 :=
  List.sum_eq_zero_iff_forall_eq_nat.mpr (List.forall_mem_map.mpr free)

theorem getElem?_replace (before after : List τ) (thread next : τ) (index : Nat) :
    (before ++ next :: after)[index]? =
      if index = before.length then some next else (before ++ thread :: after)[index]? := by
  rw [← set_append_cons before after thread next, List.getElem?_set]
  by_cases same : before.length = index
  · rw [if_pos same, if_pos same.symm, if_pos]
    rw [List.length_append, List.length_cons]
    omega
  · rw [if_neg same, if_neg (Ne.symm same)]

theorem getElem?_moved (before after new : List τ) (thread next : τ) {index : Nat} {found : τ}
    (present : (before ++ thread :: after)[index]? = some found) :
    (before ++ next :: (after ++ new))[index]? = if index = before.length then some next else some found := by
  have inside : index < (before ++ next :: after).length := by
    have bound := (List.getElem?_eq_some_iff.mp present).1
    rw [List.length_append, List.length_cons] at bound ⊢
    exact bound
  have grouped : before ++ next :: (after ++ new) = (before ++ next :: after) ++ new := by simp
  rw [grouped, List.getElem?_append_left inside, getElem?_replace before after thread next, present]

variable {P} in
/-- One thread, followed through a move: the move is its own or leaves it where it was. -/
theorem Moves.thread_at {c d : Config σ τ} {move : Move τ ι β} (moves : P.Moves c move d) {index : Nat} {thread : τ}
    (found : c.threads[index]? = some thread) :
    (∃ input next new, move = .step index input ∧
      P.step index c.shared thread input = some (d.shared, next, new) ∧ d.threads[index]? = some next) ∨
    ((∀ input, move ≠ .step index input) ∧ d.threads[index]? = some thread) := by
  cases moves with
  | start allowed =>
    have inside := (List.getElem?_eq_some_iff.mp found).1
    exact .inr ⟨by simp, (List.getElem?_append_left inside).trans found⟩
  | @step shared later before after new moved next input stepped =>
    have after := getElem?_moved before after new moved next found
    by_cases own : index = before.length
    · subst own
      have same : moved = thread := by simpa using found
      subst same
      rw [if_pos rfl] at after
      exact .inl ⟨input, next, new, rfl, stepped, after⟩
    · rw [if_neg own] at after
      refine .inr ⟨fun input taken => ?_, after⟩
      cases taken
      exact own rfl
  | ambient done => exact .inr ⟨by simp, found⟩

variable {P} in
/-- Where a thread comes from: it was there, it is the one that moved, or it has just been started. -/
theorem Moves.thread_from {c d : Config σ τ} {move : Move τ ι β} (moves : P.Moves c move d) {index : Nat} {thread : τ}
    (found : d.threads[index]? = some thread) :
    c.threads[index]? = some thread ∨
    (∃ earlier input new, c.threads[index]? = some earlier ∧
      P.step index c.shared earlier input = some (d.shared, thread, new)) ∨
    P.starts thread = true ∨
    ∃ own input earlier next new, earlier ∈ c.threads ∧
      P.step own c.shared earlier input = some (d.shared, next, new) ∧ thread ∈ new := by
  cases moves with
  | @start shared threads started allowed =>
    have found : (threads ++ [started])[index]? = some thread := found
    rcases Nat.lt_or_ge index threads.length with inside | outside
    · rw [List.getElem?_append_left inside] at found
      exact .inl found
    · rw [List.getElem?_append_right outside] at found
      rw [List.mem_singleton.mp (List.mem_of_getElem? found)]
      exact .inr (.inr (.inl allowed))
  | @step shared later before after new moved next input stepped =>
    have grouped : before ++ next :: (after ++ new) = (before ++ next :: after) ++ new := by simp
    have found : (before ++ next :: (after ++ new))[index]? = some thread := found
    rw [grouped] at found
    rcases Nat.lt_or_ge index (before ++ next :: after).length with inside | outside
    · rw [List.getElem?_append_left inside, getElem?_replace before after moved next] at found
      split at found
      · rename_i own
        cases found
        subst own
        exact .inr (.inl ⟨moved, input, new, by simp, stepped⟩)
      · exact .inl found
    · rw [List.getElem?_append_right outside] at found
      exact .inr (.inr (.inr ⟨_, input, moved, next, new, by simp, stepped, List.mem_of_getElem? found⟩))
  | ambient done => exact .inl found

/-- The invariant rule over every interleaving whose moves meet a condition. -/
theorem run_invariant_of_meets {condition : Config σ τ → Move τ ι β → Prop} {I : Config σ τ → Prop}
    (keeps : ∀ c move d, I c → condition c move → P.Moves c move d → I d) {c d : Config σ τ}
    {moves : List (Move τ ι β)} (start : I c) (meets : P.machine.Meets condition c moves)
    (reached : P.machine.run c moves = some d) : I d :=
  P.machine.run_invariant_of_meets
    (fun s move t hold held taken => keeps s move t hold held (P.moves_of_step taken)) start meets reached

end Program

end Myrmidon.Transition
