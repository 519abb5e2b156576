import Mathlib.Algebra.Ring.Nat
import Mathlib.Data.List.Basic

namespace Myrmidon

/-- Public PID type: `[ generation : u32 | index : u32 ]`. -/
abbrev Pid := BitVec 64

instance : LawfulBEq Pid := inferInstance

end Myrmidon

namespace Myrmidon.Slab

def makePid (index : Nat) (generation : BitVec 32) : Pid :=
  (generation.setWidth 64 <<< 32) ||| BitVec.ofNat 64 index

def splitPid (pid : Pid) : Nat × BitVec 32 :=
  ((pid &&& 0xffffffff#64).toNat, (pid >>> 32).setWidth 32)

structure Entry where
  generation : BitVec 32
  occupied : Bool
  deriving DecidableEq

/-- The free list is a stack: its head is the index `Vec::pop` takes next. -/
structure SlabAllocator where
  entries : List Entry
  freeList : List Nat
  deriving DecidableEq

namespace SlabAllocator

def new : SlabAllocator := ⟨[], []⟩

/-- `none` is the index panic of the unchecked `self.entries[idx]`. -/
def allocate (slab : SlabAllocator) : Option (Pid × SlabAllocator) :=
  match slab.freeList with
  | idx :: rest =>
    match slab.entries[idx]? with
    | none => none
    | some entry =>
      some (makePid idx entry.generation,
        ⟨slab.entries.set idx { entry with occupied := true }, rest⟩)
  | [] => some (makePid slab.entries.length 1, ⟨slab.entries ++ [⟨1, true⟩], []⟩)

def deallocate (slab : SlabAllocator) (pid : Pid) : Bool × SlabAllocator :=
  let (idx, gen) := splitPid pid
  match slab.entries[idx]? with
  | none => (false, slab)
  | some entry =>
    if !entry.occupied || entry.generation != gen then (false, slab)
    else (true, ⟨slab.entries.set idx ⟨entry.generation + 1, false⟩, idx :: slab.freeList⟩)

def isValid (slab : SlabAllocator) (pid : Pid) : Bool :=
  let (idx, gen) := splitPid pid
  match slab.entries[idx]? with
  | none => false
  | some entry => entry.occupied && entry.generation == gen

end SlabAllocator

theorem makePid_toNat (index : Nat) (generation : BitVec 32) (bound : index < 2^32) :
    (makePid index generation).toNat = generation.toNat * 2^32 + index := by
  have small := generation.isLt
  simp only [makePid, BitVec.toNat_or, BitVec.toNat_shiftLeft, BitVec.toNat_setWidth, BitVec.toNat_ofNat]
  rw [Nat.mod_eq_of_lt (by omega : generation.toNat < 2^64), Nat.mod_eq_of_lt (by omega : index < 2^64),
    Nat.shiftLeft_eq, Nat.mod_eq_of_lt (by omega), Nat.mul_comm, ← Nat.two_pow_add_eq_or_of_lt bound, Nat.mul_comm]

theorem splitPid_eq (pid : Pid) :
    splitPid pid = (pid.toNat % 2^32, BitVec.ofNat 32 (pid.toNat / 2^32)) := by
  have mask : (pid &&& 0xffffffff#64).toNat = pid.toNat % 2^32 := by
    rw [BitVec.toNat_and]
    exact Nat.and_two_pow_sub_one_eq_mod pid.toNat 32
  have high : (pid >>> 32).setWidth 32 = BitVec.ofNat 32 (pid.toNat / 2^32) := by
    apply BitVec.eq_of_toNat_eq
    simp [BitVec.toNat_setWidth, BitVec.toNat_ushiftRight, Nat.shiftRight_eq_div_pow]
  rw [splitPid, mask, high]

theorem splitPid_index_lt (pid : Pid) : (splitPid pid).1 < 2^32 := by
  rw [splitPid_eq]
  exact Nat.mod_lt _ (by decide)

theorem splitPid_makePid (index : Nat) (generation : BitVec 32) (bound : index < 2^32) :
    splitPid (makePid index generation) = (index, generation) := by
  rw [splitPid_eq, makePid_toNat index generation bound]
  have low : (generation.toNat * 2^32 + index) % 2^32 = index := by omega
  have high : (generation.toNat * 2^32 + index) / 2^32 = generation.toNat := by omega
  rw [low, high, BitVec.ofNat_toNat, BitVec.setWidth_eq]

theorem makePid_splitPid (pid : Pid) : makePid (splitPid pid).1 (splitPid pid).2 = pid := by
  apply BitVec.eq_of_toNat_eq
  rw [makePid_toNat _ _ (splitPid_index_lt pid), splitPid_eq]
  have bound := pid.isLt
  simp only [BitVec.toNat_ofNat]
  omega

theorem eq_makePid_iff (pid : Pid) (index : Nat) (generation : BitVec 32) (bound : index < 2^32) :
    pid = makePid index generation ↔ (splitPid pid).1 = index ∧ (splitPid pid).2 = generation := by
  constructor
  · intro same
    rw [same, splitPid_makePid index generation bound]
    exact ⟨rfl, rfl⟩
  · rintro ⟨rfl, rfl⟩
    exact (makePid_splitPid pid).symm

theorem makePid_eq_zero_iff (index : Nat) (generation : BitVec 32) (bound : index < 2^32) :
    makePid index generation = 0 ↔ index = 0 ∧ generation = 0 := by
  rw [eq_comm, eq_makePid_iff 0 index generation bound]
  exact ⟨fun h => ⟨h.1.symm, h.2.symm⟩, fun h => ⟨h.1.symm, h.2.symm⟩⟩

namespace SlabAllocator

theorem isValid_iff (slab : SlabAllocator) (pid : Pid) :
    slab.isValid pid = true ↔ slab.entries[(splitPid pid).1]? = some ⟨(splitPid pid).2, true⟩ := by
  simp only [isValid]
  cases slab.entries[(splitPid pid).1]? with
  | none => simp
  | some entry =>
    obtain ⟨generation, occupied⟩ := entry
    simp [and_comm]

theorem deallocate_of_valid (slab : SlabAllocator) (pid : Pid) (valid : slab.isValid pid = true) :
    slab.deallocate pid =
      (true, ⟨slab.entries.set (splitPid pid).1 ⟨(splitPid pid).2 + 1, false⟩,
        (splitPid pid).1 :: slab.freeList⟩) := by
  rw [isValid_iff] at valid
  simp [deallocate, valid]

theorem deallocate_of_invalid (slab : SlabAllocator) (pid : Pid) (stale : slab.isValid pid = false) :
    slab.deallocate pid = (false, slab) := by
  simp only [isValid] at stale
  simp only [deallocate]
  cases found : slab.entries[(splitPid pid).1]? with
  | none => rfl
  | some entry =>
    simp only [found] at stale
    cases occupied : entry.occupied <;> simp_all

end SlabAllocator

end Myrmidon.Slab
