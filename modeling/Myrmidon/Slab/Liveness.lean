import Mathlib.Data.Finset.Basic
import Myrmidon.Slab.Allocator
import Myrmidon.Transition.Machine

namespace Myrmidon.Slab

open Transition

namespace SlabAllocator

/-- The free list holds exactly the unoccupied indices, each once. -/
structure WellFormed (slab : SlabAllocator) : Prop where
  unique : slab.freeList.Nodup
  exact : ∀ idx, idx ∈ slab.freeList ↔ ∃ entry, slab.entries[idx]? = some entry ∧ entry.occupied = false

theorem new_wellFormed : WellFormed new where
  unique := List.nodup_nil
  exact := by simp [new]

theorem WellFormed.free_entry {slab : SlabAllocator} (wf : slab.WellFormed) {idx : Nat} {rest : List Nat}
    (free : slab.freeList = idx :: rest) : ∃ generation, slab.entries[idx]? = some ⟨generation, false⟩ := by
  obtain ⟨⟨generation, occupied⟩, found, vacant⟩ := (wf.exact idx).mp (by simp [free])
  simp only at vacant
  subst vacant
  exact ⟨generation, found⟩

theorem WellFormed.allocate_cases {slab next : SlabAllocator} {pid : Pid} (wf : slab.WellFormed)
    (allocated : slab.allocate = some (pid, next)) :
    (∃ idx rest generation, slab.freeList = idx :: rest ∧ slab.entries[idx]? = some ⟨generation, false⟩ ∧
      pid = makePid idx generation ∧ next = ⟨slab.entries.set idx ⟨generation, true⟩, rest⟩) ∨
    (slab.freeList = [] ∧ pid = makePid slab.entries.length 1 ∧ next = ⟨slab.entries ++ [⟨1, true⟩], []⟩) := by
  cases free : slab.freeList with
  | nil =>
    simp only [allocate, free, Option.some.injEq, Prod.mk.injEq] at allocated
    exact .inr ⟨rfl, allocated.1.symm, allocated.2.symm⟩
  | cons idx rest =>
    obtain ⟨generation, found⟩ := wf.free_entry free
    simp only [allocate, free, found, Option.some.injEq, Prod.mk.injEq] at allocated
    exact .inl ⟨idx, rest, generation, rfl, found, allocated.1.symm, allocated.2.symm⟩

theorem WellFormed.allocate_succeeds {slab : SlabAllocator} (wf : slab.WellFormed) :
    ∃ pid next, slab.allocate = some (pid, next) := by
  cases free : slab.freeList with
  | nil => simp [allocate, free]
  | cons idx rest =>
    obtain ⟨generation, found⟩ := wf.free_entry free
    simp [allocate, free, found]

theorem getElem?_set_some {entries : List Entry} {idx : Nat} {old : Entry} (found : entries[idx]? = some old)
    (entry : Entry) (other : Nat) :
    (entries.set idx entry)[other]? = if idx = other then some entry else entries[other]? := by
  have bound : idx < entries.length := (List.getElem?_eq_some_iff.mp found).1
  rw [List.getElem?_set]
  simp [bound]

theorem WellFormed.allocate {slab next : SlabAllocator} {pid : Pid} (wf : slab.WellFormed)
    (allocated : slab.allocate = some (pid, next)) : next.WellFormed := by
  rcases wf.allocate_cases allocated with ⟨idx, rest, generation, free, found, -, rfl⟩ | ⟨free, -, rfl⟩
  · have unique := wf.unique
    rw [free, List.nodup_cons] at unique
    refine ⟨unique.2, fun other => ?_⟩
    have exact := wf.exact other
    rw [free] at exact
    simp only [getElem?_set_some found]
    by_cases same : idx = other
    · subst same
      simp [unique.1]
    · simp only [same, if_false, ← exact, List.mem_cons]
      exact ⟨.inr, fun h => h.resolve_left (Ne.symm same)⟩
  · refine ⟨List.nodup_nil, fun other => ?_⟩
    have exact := wf.exact other
    rw [free] at exact
    simp only [List.not_mem_nil, false_iff, not_exists, not_and, Bool.not_eq_false] at exact ⊢
    intro entry found
    rw [List.getElem?_append] at found
    split at found
    · exact exact entry found
    · rw [List.getElem?_singleton] at found
      split at found
      · cases found; rfl
      · cases found

theorem WellFormed.deallocate {slab : SlabAllocator} (wf : slab.WellFormed) (pid : Pid) :
    (slab.deallocate pid).2.WellFormed := by
  cases valid : slab.isValid pid with
  | false => rw [deallocate_of_invalid slab pid valid]; exact wf
  | true =>
    rw [deallocate_of_valid slab pid valid]
    have found := (isValid_iff slab pid).mp valid
    have busy : (splitPid pid).1 ∉ slab.freeList := by
      rw [wf.exact]
      rintro ⟨entry, same, vacant⟩
      rw [found] at same
      cases same
      cases vacant
    refine ⟨List.nodup_cons.mpr ⟨busy, wf.unique⟩, fun other => ?_⟩
    simp only [getElem?_set_some found, List.mem_cons]
    by_cases same : (splitPid pid).1 = other
    · subst same
      simp
    · simp [same, Ne.symm same, wf.exact other]

theorem allocate_length_le {slab next : SlabAllocator} {pid : Pid} (wf : slab.WellFormed)
    (allocated : slab.allocate = some (pid, next)) : slab.entries.length ≤ next.entries.length := by
  rcases wf.allocate_cases allocated with ⟨_, _, _, -, -, -, rfl⟩ | ⟨-, -, rfl⟩ <;> simp

theorem deallocate_length (slab : SlabAllocator) (pid : Pid) :
    (slab.deallocate pid).2.entries.length = slab.entries.length := by
  cases valid : slab.isValid pid with
  | false => rw [deallocate_of_invalid slab pid valid]
  | true => rw [deallocate_of_valid slab pid valid]; simp

/-- While the slots fit the index width, `allocate` turns one stale PID valid. -/
theorem WellFormed.isValid_allocate {slab next : SlabAllocator} {pid : Pid} (wf : slab.WellFormed)
    (allocated : slab.allocate = some (pid, next)) (bound : next.entries.length ≤ 2^32) :
    slab.isValid pid = false ∧ ∀ other, next.isValid other = true ↔ other = pid ∨ slab.isValid other = true := by
  rcases wf.allocate_cases allocated with ⟨idx, rest, generation, free, found, rfl, rfl⟩ | ⟨free, rfl, rfl⟩
  · have small : idx < 2^32 := by
      have := (List.getElem?_eq_some_iff.mp found).1
      simp only [List.length_set] at bound
      omega
    constructor
    · rw [Bool.eq_false_iff, ne_eq, isValid_iff, splitPid_makePid idx generation small, found]
      simp
    · intro other
      simp only [isValid_iff, getElem?_set_some found, eq_makePid_iff other idx generation small]
      by_cases same : idx = (splitPid other).1
      · simp [← same, found, eq_comm]
      · simp [same, Ne.symm same]
  · have small : slab.entries.length < 2^32 := by
      simp only [List.length_append, List.length_singleton] at bound
      omega
    constructor
    · rw [Bool.eq_false_iff, ne_eq, isValid_iff, splitPid_makePid _ 1 small]
      simp
    · intro other
      simp only [isValid_iff, eq_makePid_iff other _ 1 small, List.getElem?_append]
      split
      · rename_i inside
        have distinct : (splitPid other).1 ≠ slab.entries.length := by omega
        simp [distinct]
      · rename_i outside
        have absent : slab.entries[(splitPid other).1]? = none := List.getElem?_eq_none (by omega)
        rw [List.getElem?_singleton, absent]
        by_cases same : (splitPid other).1 = slab.entries.length
        · simp [same, eq_comm]
        · have : (splitPid other).1 - slab.entries.length ≠ 0 := by omega
          simp [same, this]

theorem isValid_deallocate (slab : SlabAllocator) (pid other : Pid) (valid : slab.isValid pid = true) :
    (slab.deallocate pid).2.isValid other = true ↔ other ≠ pid ∧ slab.isValid other = true := by
  rw [deallocate_of_valid slab pid valid]
  have found := (isValid_iff slab pid).mp valid
  simp only [isValid_iff, getElem?_set_some found]
  by_cases same : (splitPid pid).1 = (splitPid other).1
  · have agree : other ≠ pid → (splitPid other).2 ≠ (splitPid pid).2 := by
      intro different equal
      apply different
      rw [← makePid_splitPid pid, same, ← equal, makePid_splitPid]
    rw [← same, found]
    simp only [if_true, Option.some.injEq, Entry.mk.injEq, Bool.false_eq_true, and_false, and_true, false_iff,
      not_and]
    intro different equal
    exact agree different equal.symm
  · have different : other ≠ pid := fun equal => same (by rw [equal])
    simp [same, different]

end SlabAllocator

inductive SlabCall where
  | allocate
  | deallocate (pid : Pid)
  deriving DecidableEq

/-- A slab together with what its callers have observed: the PIDs that are
    live by the answers so far, every PID returned and every PID freed. -/
structure History where
  slab : SlabAllocator
  live : Finset Pid
  returned : List Pid
  freed : List Pid
  deriving DecidableEq

def History.start : History := ⟨.new, ∅, [], []⟩

def History.call (h : History) : SlabCall → Option History
  | .allocate =>
    match h.slab.allocate with
    | none => none
    | some (pid, slab) => some ⟨slab, insert pid h.live, pid :: h.returned, h.freed⟩
  | .deallocate pid =>
    match h.slab.deallocate pid with
    | (true, slab) => some ⟨slab, h.live.erase pid, h.returned, pid :: h.freed⟩
    | (false, slab) => some { h with slab }

def historyMachine : Machine History SlabCall := ⟨History.call⟩

namespace History

open SlabAllocator

theorem call_cases {h next : History} {call : SlabCall} (stepped : historyMachine.step h call = some next) :
    (∃ pid slab, call = .allocate ∧ h.slab.allocate = some (pid, slab) ∧
      next = ⟨slab, insert pid h.live, pid :: h.returned, h.freed⟩) ∨
    (∃ pid, call = .deallocate pid ∧ h.slab.isValid pid = true ∧
      next = ⟨(h.slab.deallocate pid).2, h.live.erase pid, h.returned, pid :: h.freed⟩) ∨
    (∃ pid, call = .deallocate pid ∧ h.slab.isValid pid = false ∧ next = h) := by
  cases call with
  | allocate =>
    simp only [historyMachine, History.call] at stepped
    cases allocated : h.slab.allocate with
    | none => simp [allocated] at stepped
    | some result =>
      simp only [allocated, Option.some.injEq] at stepped
      exact .inl ⟨result.1, result.2, rfl, rfl, stepped.symm⟩
  | deallocate pid =>
    right
    simp only [historyMachine, History.call] at stepped
    cases valid : h.slab.isValid pid with
    | false =>
      simp only [deallocate_of_invalid h.slab pid valid, Option.some.injEq] at stepped
      exact .inr ⟨pid, rfl, valid, stepped.symm⟩
    | true =>
      refine .inl ⟨pid, rfl, valid, ?_⟩
      simp only [deallocate_of_valid h.slab pid valid, Option.some.injEq] at stepped ⊢
      exact stepped.symm

theorem wellFormed_step (h : History) (call : SlabCall) (wf : h.slab.WellFormed) :
    ∃ next, historyMachine.step h call = some next ∧ next.slab.WellFormed := by
  cases call with
  | allocate =>
    obtain ⟨pid, slab, allocated⟩ := wf.allocate_succeeds
    refine ⟨⟨slab, insert pid h.live, pid :: h.returned, h.freed⟩, ?_, wf.allocate allocated⟩
    simp only [historyMachine, History.call, allocated]
  | deallocate pid =>
    have kept := wf.deallocate pid
    simp only [historyMachine, History.call]
    cases freed : h.slab.deallocate pid with
    | mk accepted slab =>
      rw [freed] at kept
      cases accepted <;> exact ⟨_, rfl, kept⟩

def Refines (h : History) : Prop :=
  h.slab.entries.length ≤ 2^32 → ∀ pid, h.slab.isValid pid = true ↔ pid ∈ h.live

theorem refines_step {h next : History} {call : SlabCall} (wf : h.slab.WellFormed) (refined : h.Refines)
    (stepped : historyMachine.step h call = some next) : next.Refines := by
  rcases call_cases stepped with ⟨pid, slab, -, allocated, rfl⟩ | ⟨pid, -, valid, rfl⟩ | ⟨pid, -, -, rfl⟩
  · intro bound other
    have earlier := refined (le_trans (allocate_length_le wf allocated) bound)
    rw [(wf.isValid_allocate allocated bound).2 other, earlier other, Finset.mem_insert]
  · intro bound other
    rw [deallocate_length] at bound
    rw [isValid_deallocate h.slab pid other valid, refined bound other, Finset.mem_erase]
  · exact refined

/-- The state reached by any sequence of calls: no call panics, the free list
    is exact, and validity follows the live set. -/
theorem run_reaches (calls : List SlabCall) :
    ∃ final, historyMachine.run start calls = some final ∧ final.slab.WellFormed ∧ final.Refines := by
  obtain ⟨final, reached, wf⟩ := historyMachine.run_total (P := fun h => h.slab.WellFormed)
    wellFormed_step calls (s := start) new_wellFormed
  have initial : start.slab.WellFormed ∧ start.Refines :=
    ⟨new_wellFormed, by intro _ pid; simp [start, isValid, new]⟩
  have both := historyMachine.run_invariant (P := fun h => h.slab.WellFormed ∧ h.Refines) (by
    intro h call next hold stepped
    obtain ⟨other, same, kept⟩ := wellFormed_step h call hold.1
    rw [stepped] at same
    cases same
    exact ⟨kept, refines_step hold.1 hold.2 stepped⟩) initial reached
  exact ⟨final, reached, both⟩

/-- The allocator refines the set of live PIDs. The free list is exact in every
    state; while at most `2^32` slots exist, each call acts on the live set. -/
theorem slab_refines_live_set (calls : List SlabCall) :
    ∃ final, historyMachine.run start calls = some final ∧
      final.slab.freeList.Nodup ∧
      (∀ idx, idx ∈ final.slab.freeList ↔
        ∃ entry, final.slab.entries[idx]? = some entry ∧ entry.occupied = false) ∧
      (final.slab.entries.length ≤ 2^32 →
        (∀ pid, final.slab.isValid pid = true ↔ pid ∈ final.live) ∧
        (∃ pid next, final.slab.allocate = some (pid, next) ∧
          (next.entries.length ≤ 2^32 →
            pid ∉ final.live ∧ ∀ other, next.isValid other = true ↔ other ∈ insert pid final.live)) ∧
        (∀ pid, ((final.slab.deallocate pid).1 = true ↔ pid ∈ final.live) ∧
          (pid ∈ final.live →
            ∀ other, (final.slab.deallocate pid).2.isValid other = true ↔ other ∈ final.live.erase pid) ∧
          (pid ∉ final.live → (final.slab.deallocate pid).2 = final.slab))) := by
  obtain ⟨final, reached, wf, refined⟩ := run_reaches calls
  refine ⟨final, reached, wf.unique, wf.exact, fun bound => ⟨refined bound, ?_, fun pid => ?_⟩⟩
  · obtain ⟨pid, next, allocated⟩ := wf.allocate_succeeds
    refine ⟨pid, next, allocated, fun nextBound => ?_⟩
    obtain ⟨stale, valid⟩ := wf.isValid_allocate allocated nextBound
    refine ⟨?_, fun other => ?_⟩
    · rw [← refined bound pid, stale]
      simp
    · rw [valid other, refined bound other, Finset.mem_insert]
  · cases valid : final.slab.isValid pid with
    | false =>
      have dead : pid ∉ final.live := by rw [← refined bound pid, valid]; simp
      rw [deallocate_of_invalid final.slab pid valid]
      exact ⟨by simp [dead], fun live => absurd live dead, fun _ => rfl⟩
    | true =>
      have live : pid ∈ final.live := (refined bound pid).mp valid
      refine ⟨by simp [deallocate_of_valid final.slab pid valid, live], fun _ other => ?_,
        fun dead => absurd live dead⟩
      rw [isValid_deallocate final.slab pid other valid, refined bound other, Finset.mem_erase]

end History

end Myrmidon.Slab
