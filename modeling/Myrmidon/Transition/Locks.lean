import Mathlib.Logic.Function.Basic
import Myrmidon.Transition.Interleaving

namespace Myrmidon.Transition

/-- How often each lock is recorded as taken, and how often a thread has it. -/
structure Locks (σ τ κ : Type*) where
  taken : σ → κ → Nat
  holds : κ → τ → Nat

namespace Locks

open Program

variable {σ τ κ : Type*}

theorem update_take [DecidableEq κ] (record : κ → Nat) (lock other : κ) :
    Function.update record lock (record lock + 1) other = record other + if lock = other then 1 else 0 := by
  by_cases same : lock = other
  · subst same
    rw [Function.update_self, if_pos rfl]
  · rw [Function.update_of_ne (Ne.symm same), if_neg same, Nat.add_zero]

theorem update_release [DecidableEq κ] (record : κ → Nat) (lock other : κ) :
    Function.update record lock (record lock - 1) other = record other - if lock = other then 1 else 0 := by
  by_cases same : lock = other
  · subst same
    rw [Function.update_self, if_pos rfl]
  · rw [Function.update_of_ne (Ne.symm same), if_neg same, Nat.sub_zero]

/-- The locks that are taken are the ones that some thread has. -/
def Balanced (K : Locks σ τ κ) (c : Config σ τ) : Prop := ∀ lock, K.taken c.shared lock = total (K.holds lock) c.threads

/-- A step that takes and gives back locks together with the record of them. -/
def Keeps (K : Locks σ τ κ) (s later : σ) (w next : τ) : Prop :=
  ∀ lock, K.taken later lock + K.holds lock w = K.taken s lock + K.holds lock next

variable {K : Locks σ τ κ} {c : Config σ τ} {s later : σ} {w next : τ} {before after threads : List τ}

theorem balanced_of_idle (free : ∀ lock, K.taken s lock = 0) (idle : ∀ w ∈ threads, ∀ lock, K.holds lock w = 0) :
    K.Balanced ⟨s, threads⟩ := by
  intro lock
  exact (free lock).trans (total_eq_zero fun w member => idle w member lock).symm

theorem Balanced.held (balanced : K.Balanced ⟨s, before ++ w :: after⟩) (lock : κ) :
    K.holds lock w ≤ K.taken s lock := by
  have same := balanced lock
  rw [total_at] at same
  dsimp only at same
  omega

theorem Balanced.step (balanced : K.Balanced ⟨s, before ++ w :: after⟩) (keeps : K.Keeps s later w next) :
    K.Balanced ⟨later, before ++ next :: after⟩ := by
  intro lock
  have same := balanced lock
  have moved := keeps lock
  rw [total_at] at same ⊢
  dsimp only at same ⊢
  omega

theorem Balanced.start (balanced : K.Balanced ⟨s, threads⟩) (idle : ∀ lock, K.holds lock w = 0) :
    K.Balanced ⟨s, threads ++ [w]⟩ := by
  intro lock
  rw [total_append, total_cons, idle lock]
  exact balanced lock

theorem Balanced.spawn {new : List τ} (balanced : K.Balanced ⟨s, threads⟩)
    (idle : ∀ w ∈ new, ∀ lock, K.holds lock w = 0) :
    K.Balanced ⟨s, threads ++ new⟩ := by
  intro lock
  rw [total_append, total_eq_zero fun w member => idle w member lock]
  exact balanced lock

theorem Balanced.ambient (balanced : K.Balanced ⟨s, threads⟩) (same : ∀ lock, K.taken later lock = K.taken s lock) :
    K.Balanced ⟨later, threads⟩ :=
  fun lock => (same lock).trans (balanced lock)

theorem Balanced.taken_of_mem (balanced : K.Balanced c) (lock : κ) (member : w ∈ c.threads)
    (holds : K.holds lock w ≠ 0) :
    K.taken c.shared lock ≠ 0 := by
  rw [balanced lock]
  exact Nat.ne_of_gt (total_pos_of_mem member (Nat.pos_of_ne_zero holds))

/-- A lock that one thread has as often as it is taken is not with another one. -/
theorem Balanced.only_holder {lock : κ} (balanced : K.Balanced ⟨s, before ++ w :: after⟩)
    (all : K.taken s lock ≤ K.holds lock w)
    {other : τ} (member : other ∈ before ++ after) : K.holds lock other = 0 := by
  have same := balanced lock
  rw [total_at] at same
  by_contra positive
  have more : 0 < total (K.holds lock) (before ++ after) := total_pos_of_mem member (Nat.pos_of_ne_zero positive)
  dsimp only at same
  omega

theorem Balanced.exists_holder (balanced : K.Balanced c) (lock : κ) (taken : K.taken c.shared lock ≠ 0) :
    ∃ w ∈ c.threads, K.holds lock w ≠ 0 := by
  by_contra none
  apply taken
  rw [balanced lock]
  apply total_eq_zero
  intro w member
  by_contra holds
  exact none ⟨w, member, holds⟩

theorem mem_elsewhere {other : τ} (member : other ∈ before ++ w :: after) (different : other ≠ w) :
    other ∈ before ++ after := by
  rw [List.mem_append, List.mem_cons] at member
  rw [List.mem_append]
  tauto

theorem mem_replaced {other : τ} (member : other ∈ before ++ after) : other ∈ before ++ next :: after := by
  rw [List.mem_append] at member
  rw [List.mem_append, List.mem_cons]
  tauto

end Locks

end Myrmidon.Transition
