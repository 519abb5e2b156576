import Mathlib.Data.List.DropRight

namespace Myrmidon.Data

/-- One list is an initial part of another, and not all of it. -/
def ProperPart {α : Type*} (short long : List α) : Prop := ∃ rest, rest ≠ [] ∧ long = short ++ rest

theorem ProperPart.trans_left {α : Type*} {first second third : List α} (early : first <+: second)
    (late : ProperPart second third) : ProperPart first third := by
  obtain ⟨middle, rfl⟩ := early
  obtain ⟨rest, more, rfl⟩ := late
  refine ⟨middle ++ rest, ?_, List.append_assoc first middle rest⟩
  simp [more]

section

variable {α : Type*} (separator : α)

theorem intercalate_append {first second : List (List α)} (nonempty : first ≠ []) (more : second ≠ []) :
    [separator].intercalate (first ++ second) =
      [separator].intercalate first ++ separator :: [separator].intercalate second := by
  induction first with
  | nil => exact absurd rfl nonempty
  | cons segment rest ih =>
    cases rest with
    | nil =>
      rw [List.singleton_append, List.intercalate_cons_of_ne_nil more, List.intercalate_singleton]
      simp
    | cons next rest =>
      have later := ih (List.cons_ne_nil next rest)
      rw [List.cons_append, List.intercalate_cons_of_ne_nil (by simp), later,
        List.intercalate_cons_of_ne_nil (List.cons_ne_nil next rest)]
      simp

variable [DecidableEq α]

/-- The text continues after a separator exactly if its segments continue. -/
theorem properPart_splitOn_iff (front text : List α) :
    ProperPart (front.splitOn separator) (text.splitOn separator) ↔ ∃ tail, text = front ++ separator :: tail := by
  constructor
  · rintro ⟨rest, more, split⟩
    refine ⟨[separator].intercalate rest, ?_⟩
    have whole : [separator].intercalate (text.splitOn separator) = text := List.intercalate_splitOn separator
    rw [split, intercalate_append separator (List.splitOn_ne_nil separator front) more,
      List.intercalate_splitOn] at whole
    exact whole.symm
  · rintro ⟨tail, rfl⟩
    refine ⟨tail.splitOn separator, List.splitOn_ne_nil separator tail, ?_⟩
    rw [List.splitOn_append_cons_self]

theorem length_splitOn_eq_one_iff (text : List α) : (text.splitOn separator).length = 1 ↔ separator ∉ text := by
  constructor
  · intro one member
    obtain ⟨front, tail, rfl⟩ := List.append_of_mem member
    rw [List.splitOn_append_cons_self, List.length_append] at one
    have first := List.length_pos_iff.mpr (List.splitOn_ne_nil separator front)
    have second := List.length_pos_iff.mpr (List.splitOn_ne_nil separator tail)
    omega
  · intro absent
    rw [List.splitOn_eq_singleton absent, List.length_singleton]

/-- The text goes on for one more segment exactly if no further separator follows. -/
theorem length_splitOn_succ_iff (front tail : List α) :
    ((front ++ separator :: tail).splitOn separator).length = (front.splitOn separator).length + 1 ↔
      separator ∉ tail := by
  rw [List.splitOn_append_cons_self, List.length_append, Nat.add_left_cancel_iff, length_splitOn_eq_one_iff]

theorem rdropWhile_append_replicate (text : List α) (count : Nat) :
    (text ++ List.replicate count separator).rdropWhile (· = separator) = text.rdropWhile (· = separator) := by
  induction count with
  | zero => simp
  | succ count ih =>
    rw [List.replicate_succ', ← List.append_assoc, List.rdropWhile_concat_pos _ _ _ (by simp), ih]

end

end Myrmidon.Data
