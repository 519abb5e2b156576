import Mathlib.Data.List.Perm.Basic

namespace Myrmidon.Data

theorem find?_filterMap_of_find? {α β : Type*} {test : α → Bool} {project : α → Option β} {inject : β → α}
    (exact : ∀ value image, project value = some image ↔ value = inject image) {values : List α} {image : β}
    (found : values.find? test = some (inject image)) :
    (values.filterMap project).find? (fun value => test (inject value)) = some image := by
  obtain ⟨passes, before, after, split, skipped⟩ := List.find?_eq_some_iff_append.mp found
  have none : (before.filterMap project).find? (fun value => test (inject value)) = none := by
    rw [List.find?_eq_none]
    intro value member
    obtain ⟨other, inside, projected⟩ := List.mem_filterMap.mp member
    rw [(exact other value).mp projected] at inside
    simpa using skipped _ inside
  rw [split, List.filterMap_append, List.find?_append, none, Option.none_or,
    List.filterMap_cons_some ((exact _ image).mpr rfl)]
  exact List.find?_cons_of_pos passes

variable {α β : Type*} [BEq α] [LawfulBEq α] [BEq β] [LawfulBEq β]

/-- Values sent and not yet taken, in the order they were sent. Equal values are
    interchangeable, so taking one removes its oldest occurrence. -/
def outstanding (sent taken : List α) : List α := sent.diff taken

/-- The queue holds exactly what is outstanding, and nothing was taken twice. -/
structure Accounts (sent taken queue : List α) : Prop where
  queued : queue = outstanding sent taken
  conserved : (taken ++ queue).Perm sent

omit [LawfulBEq α] in
theorem Accounts.nil : Accounts ([] : List α) [] [] := ⟨rfl, List.Perm.refl _⟩

theorem diff_append_of_perm {taken queue sent : List α} (conserved : (taken ++ queue).Perm sent) (later : List α) :
    (sent ++ later).diff taken = sent.diff taken ++ later := by
  induction taken generalizing sent with
  | nil => rfl
  | cons value rest ih =>
    have member : value ∈ sent := conserved.subset (by simp)
    rw [List.diff_cons, List.diff_cons, List.erase_append_left later member]
    apply ih
    have erased := conserved.erase value
    rwa [List.cons_append, List.erase_cons_head] at erased

theorem Accounts.send {sent taken queue : List α} (accounts : Accounts sent taken queue) (value : α) :
    Accounts (sent ++ [value]) taken (queue ++ [value]) := by
  refine ⟨?_, ?_⟩
  · rw [outstanding, diff_append_of_perm accounts.conserved, ← outstanding, ← accounts.queued]
  · rw [← List.append_assoc]
    exact accounts.conserved.append_right [value]

theorem Accounts.take {sent taken queue : List α} (accounts : Accounts sent taken queue) {value : α}
    (member : value ∈ queue) : Accounts sent (taken ++ [value]) (queue.erase value) := by
  refine ⟨?_, ?_⟩
  · have left : sent.diff taken = queue := accounts.queued.symm
    rw [outstanding, List.diff_append, left, List.diff_cons, List.diff_nil]
  · rw [List.append_assoc]
    exact ((List.perm_cons_erase member).symm.append_left taken).trans accounts.conserved

theorem eraseP_eq_erase_of_find? {test : α → Bool} {values : List α} {value : α}
    (found : values.find? test = some value) : values.eraseP test = values.erase value := by
  induction values with
  | nil => cases found
  | cons head tail ih =>
    by_cases passes : test head = true
    · rw [List.find?_cons_of_pos passes] at found
      cases found
      rw [List.eraseP_cons_of_pos passes, List.erase_cons_head]
    · rw [List.find?_cons_of_neg passes] at found
      have distinct : head ≠ value := by
        intro same
        exact passes (same ▸ List.find?_some found)
      rw [List.eraseP_cons_of_neg passes, List.erase_cons_tail (by simpa using distinct), ih found]

theorem filterMap_erase_some (project : α → Option β) {value : α} {image : β}
    (hit : project value = some image) (injective : ∀ other, project other = some image → other = value)
    (values : List α) : (values.erase value).filterMap project = (values.filterMap project).erase image := by
  induction values with
  | nil => rfl
  | cons head tail ih =>
    by_cases same : head = value
    · subst same
      rw [List.erase_cons_head, List.filterMap_cons_some hit, List.erase_cons_head]
    · rw [List.erase_cons_tail (by simpa using same)]
      cases projected : project head with
      | none => rw [List.filterMap_cons_none projected, List.filterMap_cons_none projected, ih]
      | some other =>
        have distinct : other ≠ image := fun equal => same (injective head (equal ▸ projected))
        rw [List.filterMap_cons_some projected, List.filterMap_cons_some projected,
          List.erase_cons_tail (by simpa using distinct), ih]

omit [BEq β] [LawfulBEq β] in
theorem filterMap_erase_none (project : α → Option β) {value : α} (miss : project value = none)
    (values : List α) : (values.erase value).filterMap project = values.filterMap project := by
  induction values with
  | nil => rfl
  | cons head tail ih =>
    by_cases same : head = value
    · subst same
      rw [List.erase_cons_head, List.filterMap_cons_none miss]
    · rw [List.erase_cons_tail (by simpa using same), List.filterMap_cons, List.filterMap_cons, ih]

end Myrmidon.Data
