import Mathlib.Data.List.Range
import Myrmidon.Slab.Liveness

namespace Myrmidon.Slab

open Transition SlabAllocator

/-- Age of a generation counted from the first one, which is `1`. The counter
    passes through `0` last, just before it comes round to `1` again. -/
def age (generation : BitVec 32) : Nat := (generation - 1).toNat

theorem age_next (generation : BitVec 32) (unwrapped : generation + 1 ≠ 1) :
    age (generation + 1) = age generation + 1 := by
  have bound := generation.isLt
  have nonzero : generation.toNat ≠ 0 := by
    intro zero
    apply unwrapped
    apply BitVec.eq_of_toNat_eq
    simp [BitVec.toNat_add, zero]
  simp only [age, BitVec.toNat_sub, BitVec.toNat_add, BitVec.ofNat_eq_ofNat, BitVec.toNat_ofNat]
  omega

namespace History

/-- What the callers may rely on: `allocate` has repeated no PID and never
    returned the not-found value, and no freed PID is valid. -/
structure StaleDetected (h : History) : Prop where
  unrepeated : h.returned.Nodup
  nonzero : 0 ∉ h.returned
  freedInvalid : ∀ pid ∈ h.freed, h.slab.isValid pid = false

/-- An `allocate` that creates a slot fits the index width, and one that reuses
    a slot finds a generation that has not come round. -/
def GenerationFresh (h : History) : SlabCall → Prop
  | .deallocate _ => True
  | .allocate =>
    match h.slab.freeList with
    | [] => h.slab.entries.length < 2^32
    | idx :: _ => ∀ entry, h.slab.entries[idx]? = some entry →
      entry.generation ≠ 1 ∧ ¬(idx = 0 ∧ entry.generation = 0)

/-- Every returned PID is no younger than its slot, and strictly older than a
    slot that is free and has not come round. -/
structure Aged (h : History) : Prop where
  wellFormed : h.slab.WellFormed
  bound : h.slab.entries.length ≤ 2^32
  slot : ∀ pid ∈ h.returned, ∃ entry, h.slab.entries[(splitPid pid).1]? = some entry ∧
    (entry.occupied = true → age (splitPid pid).2 ≤ age entry.generation) ∧
    (entry.occupied = false → entry.generation = 1 ∨ age (splitPid pid).2 < age entry.generation)
  valid : ∀ pid, h.slab.isValid pid = true → pid ∈ h.returned
  first : ∀ idx, idx < h.slab.entries.length → makePid idx 1 ∈ h.returned
  freed : ∀ pid ∈ h.freed, pid ∈ h.returned ∧ h.slab.isValid pid = false
  unrepeated : h.returned.Nodup
  nonzero : 0 ∉ h.returned

theorem Aged.staleDetected {h : History} (aged : h.Aged) : h.StaleDetected :=
  ⟨aged.unrepeated, aged.nonzero, fun pid member => (aged.freed pid member).2⟩

theorem start_aged : start.Aged where
  wellFormed := new_wellFormed
  bound := by decide
  slot := by simp [start]
  valid := by simp [start, isValid, new]
  first := by simp [start, new]
  freed := by simp [start]
  unrepeated := List.nodup_nil
  nonzero := by simp [start]

theorem Aged.allocate_fresh {h : History} {pid : Pid} {slab : SlabAllocator} (aged : h.Aged)
    (fresh : h.GenerationFresh .allocate) (allocated : h.slab.allocate = some (pid, slab)) :
    slab.entries.length ≤ 2^32 ∧ pid ∉ h.returned ∧ pid ≠ 0 := by
  rcases aged.wellFormed.allocate_cases allocated with
    ⟨idx, rest, generation, free, found, rfl, rfl⟩ | ⟨free, rfl, rfl⟩
  · have inside : idx < h.slab.entries.length := (List.getElem?_eq_some_iff.mp found).1
    have small : idx < 2^32 := lt_of_lt_of_le inside aged.bound
    simp only [GenerationFresh, free] at fresh
    obtain ⟨unwrapped, notZero⟩ := fresh _ found
    refine ⟨by simpa using aged.bound, fun repeated => ?_, fun zero => ?_⟩
    · obtain ⟨entry, same, -, older⟩ := aged.slot _ repeated
      rw [splitPid_makePid idx generation small] at same older
      rw [found] at same
      cases same
      rcases older rfl with wrapped | younger
      · exact unwrapped wrapped
      · exact absurd younger (lt_irrefl _)
    · exact notZero ((makePid_eq_zero_iff idx generation small).mp zero)
  · simp only [GenerationFresh, free] at fresh
    refine ⟨by simp; omega, fun repeated => ?_, fun zero => ?_⟩
    · obtain ⟨entry, same, -⟩ := aged.slot _ repeated
      rw [splitPid_makePid _ 1 fresh, List.getElem?_eq_none (le_refl _)] at same
      cases same
    · exact absurd ((makePid_eq_zero_iff _ 1 fresh).mp zero).2 (by decide)

/-- The other direction: an `allocate` outside the condition repeats a PID or returns zero. -/
theorem Aged.allocate_stale {h : History} {pid : Pid} {slab : SlabAllocator} (aged : h.Aged)
    (stale : ¬ h.GenerationFresh .allocate) (allocated : h.slab.allocate = some (pid, slab)) :
    pid ∈ h.returned ∨ pid = 0 := by
  rcases aged.wellFormed.allocate_cases allocated with
    ⟨idx, rest, generation, free, found, rfl, -⟩ | ⟨free, rfl, -⟩
  · have inside : idx < h.slab.entries.length := (List.getElem?_eq_some_iff.mp found).1
    simp only [GenerationFresh, free, found] at stale
    by_cases wrapped : generation = 1
    · exact .inl (wrapped ▸ aged.first idx inside)
    · have zero : idx = 0 ∧ generation = 0 := by
        by_contra other
        apply stale
        rintro entry same
        cases same
        exact ⟨wrapped, other⟩
      exact .inr (by rw [zero.1, zero.2]; rfl)
  · simp only [GenerationFresh, free] at stale
    have full : h.slab.entries.length = 2^32 := by have := aged.bound; omega
    have overlap : makePid h.slab.entries.length 1 = makePid 0 1 := by rw [full]; rfl
    rw [overlap]
    exact .inl (aged.first 0 (by omega))

theorem Aged.allocate_slot {h : History} {pid : Pid} {slab : SlabAllocator} (aged : h.Aged)
    (fresh : h.GenerationFresh .allocate) (allocated : h.slab.allocate = some (pid, slab)) :
    ∀ old ∈ pid :: h.returned, ∃ entry, slab.entries[(splitPid old).1]? = some entry ∧
      (entry.occupied = true → age (splitPid old).2 ≤ age entry.generation) ∧
      (entry.occupied = false → entry.generation = 1 ∨ age (splitPid old).2 < age entry.generation) := by
  rw [List.forall_mem_cons]
  rcases aged.wellFormed.allocate_cases allocated with
    ⟨idx, rest, generation, free, found, rfl, rfl⟩ | ⟨free, rfl, rfl⟩
  · have small : idx < 2^32 := lt_of_lt_of_le (List.getElem?_eq_some_iff.mp found).1 aged.bound
    simp only [GenerationFresh, free] at fresh
    simp only [getElem?_set_some found]
    constructor
    · rw [splitPid_makePid idx generation small]
      exact ⟨⟨generation, true⟩, by simp⟩
    · intro old member
      obtain ⟨entry, inSlot, busy, vacant⟩ := aged.slot old member
      by_cases here : idx = (splitPid old).1
      · rw [← here, found] at inSlot
        cases inSlot
        have younger := (vacant rfl).resolve_left (fresh _ found).1
        exact ⟨⟨generation, true⟩, by simp [here], fun _ => le_of_lt younger, by simp⟩
      · exact ⟨entry, by simp [here, inSlot], busy, vacant⟩
  · simp only [GenerationFresh, free] at fresh
    constructor
    · rw [splitPid_makePid _ 1 fresh]
      exact ⟨⟨1, true⟩, by simp⟩
    · intro old member
      obtain ⟨entry, inSlot, older⟩ := aged.slot old member
      refine ⟨entry, ?_, older⟩
      rw [List.getElem?_append_left (List.getElem?_eq_some_iff.mp inSlot).1, inSlot]

theorem Aged.allocate {h : History} {pid : Pid} {slab : SlabAllocator} (aged : h.Aged)
    (fresh : h.GenerationFresh .allocate) (allocated : h.slab.allocate = some (pid, slab)) :
    Aged ⟨slab, insert pid h.live, pid :: h.returned, h.freed⟩ := by
  obtain ⟨bound, new, notZero⟩ := aged.allocate_fresh fresh allocated
  obtain ⟨-, valid⟩ := aged.wellFormed.isValid_allocate allocated bound
  refine ⟨aged.wellFormed.allocate allocated, bound, aged.allocate_slot fresh allocated, ?_, ?_, ?_, ?_, ?_⟩
  · intro other isValid
    rcases (valid other).mp isValid with rfl | earlier
    · exact List.mem_cons_self
    · exact List.mem_cons_of_mem _ (aged.valid other earlier)
  · intro idx inside
    rcases aged.wellFormed.allocate_cases allocated with
      ⟨_, _, _, -, -, -, rfl⟩ | ⟨-, same, rfl⟩
    · exact List.mem_cons_of_mem _ (aged.first idx (by simpa using inside))
    · simp only [List.length_append, List.length_singleton] at inside
      rcases Nat.lt_succ_iff_lt_or_eq.mp inside with earlier | rfl
      · exact List.mem_cons_of_mem _ (aged.first idx earlier)
      · exact same ▸ List.mem_cons_self
  · intro old member
    obtain ⟨issued, invalid⟩ := aged.freed old member
    refine ⟨List.mem_cons_of_mem _ issued, ?_⟩
    rw [Bool.eq_false_iff, ne_eq, valid old]
    rintro (rfl | earlier)
    · exact new issued
    · rw [invalid] at earlier; cases earlier
  · exact List.nodup_cons.mpr ⟨new, aged.unrepeated⟩
  · intro member
    rcases List.mem_cons.mp member with zero | member
    · exact notZero zero.symm
    · exact aged.nonzero member

theorem Aged.deallocate {h : History} {pid : Pid} (aged : h.Aged) (isValid : h.slab.isValid pid = true) :
    Aged ⟨(h.slab.deallocate pid).2, h.live.erase pid, h.returned, pid :: h.freed⟩ := by
  have validity := fun other => isValid_deallocate h.slab pid other isValid
  have found := (isValid_iff h.slab pid).mp isValid
  refine ⟨aged.wellFormed.deallocate pid, by simpa [deallocate_length] using aged.bound, ?_,
    fun other later => aged.valid other ((validity other).mp later).2,
    fun idx inside => aged.first idx (by simpa [deallocate_length] using inside), ?_,
    aged.unrepeated, aged.nonzero⟩
  · intro old member
    obtain ⟨entry, inSlot, busy, vacant⟩ := aged.slot old member
    rw [deallocate_of_valid h.slab pid isValid]
    simp only [getElem?_set_some found]
    by_cases here : (splitPid pid).1 = (splitPid old).1
    · rw [← here, found] at inSlot
      cases inSlot
      refine ⟨⟨(splitPid pid).2 + 1, false⟩, by simp [here], by simp, fun _ => ?_⟩
      by_cases wrapped : (splitPid pid).2 + 1 = 1
      · exact .inl wrapped
      · right
        rw [age_next _ wrapped]
        exact Nat.lt_succ_of_le (busy rfl)
    · exact ⟨entry, by simp [here, inSlot], busy, vacant⟩
  · intro old member
    rcases List.mem_cons.mp member with rfl | member
    · refine ⟨aged.valid old isValid, ?_⟩
      rw [Bool.eq_false_iff, ne_eq, validity old]
      simp
    · obtain ⟨issued, invalid⟩ := aged.freed old member
      refine ⟨issued, ?_⟩
      rw [Bool.eq_false_iff, ne_eq, validity old, invalid]
      simp

theorem aged_step (h : History) (call : SlabCall) (next : History) (aged : h.Aged)
    (fresh : h.GenerationFresh call) (stepped : historyMachine.step h call = some next) : next.Aged := by
  rcases call_cases stepped with ⟨pid, slab, rfl, allocated, rfl⟩ | ⟨pid, -, valid, rfl⟩ | ⟨pid, -, -, rfl⟩
  · exact aged.allocate fresh allocated
  · exact aged.deallocate valid
  · exact aged

theorem returned_suffix {h next : History} {call : SlabCall} (stepped : historyMachine.step h call = some next) :
    h.returned <:+ next.returned := by
  rcases call_cases stepped with ⟨pid, slab, -, -, rfl⟩ | ⟨pid, -, -, rfl⟩ | ⟨pid, -, -, rfl⟩
  · exact List.suffix_cons pid _
  · exact List.suffix_refl _
  · exact List.suffix_refl _

/-- A PID has come twice, or the not-found value has. -/
def Repeats (h : History) : Prop := ¬ (h.returned.Nodup ∧ 0 ∉ h.returned)

theorem Repeats.step {h next : History} {call : SlabCall} (repeats : h.Repeats)
    (stepped : historyMachine.step h call = some next) : next.Repeats := by
  have kept := returned_suffix stepped
  rintro ⟨unrepeated, nonzero⟩
  exact repeats ⟨unrepeated.sublist kept.sublist, fun zero => nonzero (kept.subset zero)⟩

theorem Aged.repeats {h next : History} {call : SlabCall} (aged : h.Aged) (stale : ¬ h.GenerationFresh call)
    (stepped : historyMachine.step h call = some next) : next.Repeats := by
  rintro ⟨unrepeated, nonzero⟩
  rcases call_cases stepped with ⟨pid, slab, rfl, allocated, rfl⟩ | ⟨pid, rfl, -, -⟩ | ⟨pid, rfl, -, -⟩
  · rcases aged.allocate_stale stale allocated with repeated | rfl
    · exact (List.nodup_cons.mp unrepeated).1 repeated
    · exact nonzero List.mem_cons_self
  · exact stale trivial
  · exact stale trivial

/-- Over every run, stale PIDs are detected exactly while no reused slot's
    generation comes round and the slots fit the index width. -/
theorem stale_detected_iff_generation_fresh (calls : List SlabCall) :
    ∃ final, historyMachine.run start calls = some final ∧
      (final.StaleDetected ↔ historyMachine.Meets GenerationFresh start calls) := by
  obtain ⟨final, reached, -, -⟩ := run_reaches calls
  refine ⟨final, reached, ?_⟩
  rcases historyMachine.run_dichotomy (Q := Repeats) aged_step (fun _ _ _ aged => aged.repeats)
      (fun _ _ _ repeats => repeats.step) start_aged reached with ⟨meets, aged⟩ | ⟨breaks, repeats⟩
  · exact iff_of_true aged.staleDetected meets
  · exact iff_of_false (fun detected => repeats ⟨detected.unrepeated, detected.nonzero⟩) breaks

/-- A slot that is freed while no other one is free is taken next, a generation later. -/
theorem reuse_run (h : History) {idx : Nat} {generation : BitVec 32} (small : idx < 2^32)
    (found : h.slab.entries[idx]? = some ⟨generation, true⟩) (full : h.slab.freeList = []) :
    ∃ next, historyMachine.run h [.deallocate (makePid idx generation), .allocate] = some next ∧
      next.slab = ⟨h.slab.entries.set idx ⟨generation + 1, true⟩, []⟩ ∧
      makePid idx (generation + 1) ∈ next.returned := by
  have valid : h.slab.isValid (makePid idx generation) = true := by
    rw [isValid_iff, splitPid_makePid idx generation small]
    exact found
  have freed : h.slab.deallocate (makePid idx generation) =
      (true, ⟨h.slab.entries.set idx ⟨generation + 1, false⟩, [idx]⟩) := by
    rw [deallocate_of_valid _ _ valid, splitPid_makePid idx generation small, full]
  have vacant : (h.slab.entries.set idx ⟨generation + 1, false⟩)[idx]? = some ⟨generation + 1, false⟩ := by
    rw [getElem?_set_some found, if_pos rfl]
  have taken : SlabAllocator.allocate ⟨h.slab.entries.set idx ⟨generation + 1, false⟩, [idx]⟩ =
      some (makePid idx (generation + 1), ⟨h.slab.entries.set idx ⟨generation + 1, true⟩, []⟩) := by
    simp only [SlabAllocator.allocate, vacant, List.set_set]
  simp only [Machine.run_cons, Machine.run_nil, historyMachine, History.call, freed, Option.bind_some, taken]
  exact ⟨_, rfl, rfl, List.mem_cons_self⟩

def busySlot (count : Nat) : List SlabCall :=
  .allocate :: (List.range count).flatMap fun reuse =>
    [.deallocate (makePid 0 (BitVec.ofNat 32 (reuse + 1))), .allocate]

theorem busySlot_run (count : Nat) : ∃ final, historyMachine.run start (busySlot count) = some final ∧
    final.slab = ⟨[⟨BitVec.ofNat 32 (count + 1), true⟩], []⟩ ∧
    makePid 0 (BitVec.ofNat 32 (count + 1)) ∈ final.returned := by
  induction count with
  | zero => exact ⟨_, rfl, rfl, by decide⟩
  | succ count ih =>
    obtain ⟨before, reached, slab, -⟩ := ih
    have longer : busySlot (count + 1) = busySlot count ++
        [.deallocate (makePid 0 (BitVec.ofNat 32 (count + 1))), .allocate] := by
      simp [busySlot, List.range_succ]
    have found : before.slab.entries[0]? = some ⟨BitVec.ofNat 32 (count + 1), true⟩ := by
      rw [slab]
      rfl
    have following : BitVec.ofNat 32 (count + 1) + 1 = BitVec.ofNat 32 (count + 1 + 1) := by
      simp [BitVec.ofNat_add]
    obtain ⟨next, reused, later, issued⟩ := before.reuse_run (by decide) found (by rw [slab])
    rw [slab, following, List.set_cons_zero] at later
    rw [following] at issued
    rw [longer, Machine.run_append, reached]
    exact ⟨next, reused, later, issued⟩

/-- After `2^32 - 1` reuses the slot's generation is zero, and so is the PID. -/
theorem busy_slot_returns_zero :
    ∃ final, historyMachine.run start (busySlot (2^32 - 1)) = some final ∧ ¬ final.StaleDetected := by
  obtain ⟨final, reached, -, issued⟩ := busySlot_run (2^32 - 1)
  have zero : makePid 0 (BitVec.ofNat 32 (2^32 - 1 + 1)) = 0 := rfl
  rw [zero] at issued
  exact ⟨final, reached, fun detected => detected.nonzero issued⟩

end History

end Myrmidon.Slab
