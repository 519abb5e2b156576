import Myrmidon.Data.Rounding
import Myrmidon.Slab.Staleness

namespace Myrmidon.Node

open Data Slab Transition

/-- `pid as i64`. -/
def asI64 (pid : Pid) : Int := pid.toInt

/-- `number as u64`. -/
def asU64 (number : Int) : Pid := BitVec.ofInt 64 number

/-- The conversions of napi: an `i64` becomes the nearest `Number`, and a
    `Number` that is an `i64` becomes that one. -/
structure Napi where
  toNumber : Int → Int
  fromNumber : Int → Int
  rounds : ∀ n, -2^63 ≤ n → n < 2^63 → NearestEven 53 n (toNumber n)
  converts : ∀ n, -2^63 ≤ n → n < 2^63 → Fits 53 n → fromNumber n = n

/-- The `Number` that `spawn` returns for the PID. -/
def Napi.spawn (napi : Napi) (pid : Pid) : Int := napi.toNumber (asI64 pid)

/-- The PID to which `send` delivers. -/
def Napi.send (napi : Napi) (number : Int) : Pid := asU64 (napi.fromNumber number)

theorem asI64_bounds (pid : Pid) : -2^63 ≤ asI64 pid ∧ asI64 pid < 2^63 := by
  have low := BitVec.le_toInt pid
  have high := @BitVec.toInt_lt 64 pid
  exact ⟨low, high⟩

theorem asU64_asI64 (pid : Pid) : asU64 (asI64 pid) = pid := BitVec.ofInt_toInt

theorem asI64_asU64 {n : Int} (low : -2^63 ≤ n) (high : n < 2^63) : asI64 (asU64 n) = n := by
  rw [asI64, asU64, BitVec.toInt_ofInt]
  exact Int.bmod_eq_of_le (by omega) (by omega)

theorem asU64_eq_iff {n : Int} (low : -2^63 ≤ n) (high : n < 2^63) (pid : Pid) :
    asU64 n = pid ↔ n = asI64 pid := by
  constructor
  · intro same
    rw [← same, asI64_asU64 low high]
  · intro same
    rw [same, asU64_asI64]

theorem fits_two_pow (e : Nat) : Fits 53 (2^e) := ⟨1, e, by decide, (one_mul _).symm⟩

theorem fits_bottom : Fits 53 (-2^63) := ⟨-1, 63, by decide, by norm_num⟩

theorem fits_below_top : Fits 53 (2^63 - 1024) := ⟨2^53 - 1, 10, by decide, by norm_num⟩

theorem spacing_top {n : Int} (low : 2^62 ≤ n) (high : n < 2^63) : spacing 53 n = 1024 :=
  spacing_eq (k := 62) (by omega) (by omega)

theorem nearestEven_bounds {n m : Int} (near : NearestEven 53 n m) (low : -2^63 ≤ n) (high : n < 2^63) :
    -2^63 ≤ m ∧ m ≤ 2^63 := by
  have top := near.nearest (2^63) (fits_two_pow 63)
  have bottom := near.nearest (-2^63) fits_bottom
  omega

/-- The last `i64` values become a `Number` that is no `i64`. -/
theorem nearestEven_top {n m : Int} (near : NearestEven 53 n m) (high : n < 2^63) :
    2^63 ≤ m ↔ 2^63 - 512 ≤ n := by
  have top := near.nearest (2^63) (fits_two_pow 63)
  have below := near.nearest (2^63 - 1024) fits_below_top
  constructor
  · intro rounded
    omega
  · intro last
    by_contra less
    have multiple := (fits_iff 53 m).mp near.fits
    rw [spacing_top (by omega) (by omega)] at multiple
    -- Only the middle between the two is as near to the lower one.
    have value : m = 2^63 - 1024 := by omega
    have even := near.even (2^63) (fits_two_pow 63) (by omega) (by omega)
    rw [spacing_top (by omega) high] at even
    omega

/-- A PID comes back exactly if its `i64` is a `Number`; the last ones depend
    on what becomes of the `Number` after them. -/
theorem Napi.send_spawn_iff (napi : Napi) (pid : Pid) :
    napi.send (napi.spawn pid) = pid ↔
      Fits 53 (asI64 pid) ∨ (2^63 - 512 ≤ asI64 pid ∧ napi.send (2^63) = pid) := by
  obtain ⟨low, high⟩ := asI64_bounds pid
  have near : NearestEven 53 (asI64 pid) (napi.spawn pid) := napi.rounds (asI64 pid) low high
  obtain ⟨bottom, top⟩ := nearestEven_bounds near low high
  have last := nearestEven_top near high
  by_cases inside : napi.spawn pid < 2^63
  · have same : napi.send (napi.spawn pid) = asU64 (napi.spawn pid) := by
      rw [send, napi.converts _ bottom inside near.fits]
    rw [same, asU64_eq_iff bottom inside, near.eq_iff]
    constructor
    · exact Or.inl
    · rintro (fits | ⟨late, -⟩)
      · exact fits
      · omega
  · have value : napi.spawn pid = 2^63 := by omega
    rw [value]
    constructor
    · intro same
      exact .inr ⟨last.mp (by omega), same⟩
    · rintro (fits | ⟨-, same⟩)
      · have equal := near.eq_iff.mpr fits
        omega
      · exact same

theorem size_packed {high low : Nat} (small : low < 2^32) : (high * 2^32 + low).size - 53 = high.size - 21 := by
  have wide : ∀ k, (high * 2^32 + low).size ≤ k + 32 ↔ high.size ≤ k := by
    intro k
    rw [Nat.size_le, Nat.size_le, pow_add]
    constructor
    · intro less
      by_contra more
      have bound := Nat.mul_le_mul_right (2^32) (not_lt.mp more)
      omega
    · intro less
      have bound := Nat.mul_le_mul_right (2^32) (Nat.succ_le_of_lt less)
      omega
  have upper := (wide high.size).mpr le_rfl
  have lower := wide ((high * 2^32 + low).size - 32)
  omega

/-- The bits of a word of which the upper half has `high` set. -/
theorem fits_packed {n : Int} {high low : Nat} (value : n.natAbs = high * 2^32 + low) (small : low < 2^32)
    (bound : high < 2^31) : Fits 53 n ↔ 2^(high.size - 21) ∣ low := by
  have size : high.size ≤ 31 := Nat.size_le.mpr bound
  have divides : 2^(high.size - 21) ∣ high * 2^32 :=
    (pow_dvd_pow 2 (by omega)).trans (Nat.dvd_mul_left _ _)
  have unit : (spacing 53 n).natAbs = 2^(high.size - 21) := by
    rw [spacing, value, size_packed small, Int.natAbs_pow]
    rfl
  rw [fits_iff, ← Int.natAbs_dvd_natAbs, unit, value]
  exact Nat.dvd_add_right divides

/-- The generation without its sign: from `2^31` on the `i64` is negative. -/
def magnitude (generation : BitVec 32) : Nat :=
  if generation.toNat < 2^31 then generation.toNat else 2^32 - 1 - generation.toNat

theorem toNat_split (pid : Pid) : pid.toNat = (splitPid pid).2.toNat * 2^32 + (splitPid pid).1 := by
  have packed := makePid_toNat (splitPid pid).1 (splitPid pid).2 (splitPid_index_lt pid)
  rw [makePid_splitPid] at packed
  exact packed

theorem asI64_eq (pid : Pid) :
    asI64 pid = (splitPid pid).2.toNat * 2^32 + (splitPid pid).1 -
      (if (splitPid pid).2.toNat < 2^31 then 0 else 2^64) := by
  have small := splitPid_index_lt pid
  have value := toNat_split pid
  rw [asI64, BitVec.toInt_eq_toNat_cond, value]
  split <;> split <;> omega

theorem fits_iff_index (pid : Pid) :
    Fits 53 (asI64 pid) ↔ 2^((magnitude (splitPid pid).2).size - 21) ∣ (splitPid pid).1 := by
  have small := splitPid_index_lt pid
  have value := asI64_eq pid
  have bound := (splitPid pid).2.isLt
  generalize (splitPid pid).2 = generation at *
  generalize (splitPid pid).1 = index at *
  by_cases positive : generation.toNat < 2^31
  · rw [magnitude, if_pos positive]
    rw [if_pos positive] at value
    exact fits_packed (by omega) small positive
  · rw [magnitude, if_neg positive]
    rw [if_neg positive] at value
    by_cases zero : index = 0
    · -- No bit of the lower half is set in the `i64` either.
      rw [zero]
      refine iff_of_true ⟨generation.toNat - 2^32, 32, by omega, by omega⟩ (Nat.dvd_zero _)
    · have bits : Nat.size (2^32 - 1 - generation.toNat) ≤ 31 := Nat.size_le.mpr (by omega)
      have divides : 2^(Nat.size (2^32 - 1 - generation.toNat) - 21) ∣ 2^32 - index + index := by
        rw [Nat.sub_add_cancel (le_of_lt small)]
        exact pow_dvd_pow 2 (by omega)
      have absolute : (asI64 pid).natAbs = (2^32 - 1 - generation.toNat) * 2^32 + (2^32 - index) := by omega
      rw [fits_packed absolute (by omega) (by omega)]
      constructor
      · intro rest
        exact (Nat.dvd_add_right rest).mp divides
      · intro rest
        exact (Nat.dvd_add_left rest).mp divides

/-- The bits of the index for which the generation leaves no room are zero. The
    last PIDs depend on what becomes of the `Number` that is no `i64`. -/
def Napi.Carries (napi : Napi) (pid : Pid) : Prop :=
  2^((magnitude (splitPid pid).2).size - 21) ∣ (splitPid pid).1 ∨
    ((splitPid pid).2.toNat = 2^31 - 1 ∧ 2^32 - 512 ≤ (splitPid pid).1 ∧ napi.send (2^63) = pid)

theorem Napi.carries_iff (napi : Napi) (pid : Pid) : napi.Carries pid ↔ napi.send (napi.spawn pid) = pid := by
  have small := splitPid_index_lt pid
  have value := asI64_eq pid
  have bound := (splitPid pid).2.isLt
  have last : (splitPid pid).2.toNat = 2^31 - 1 ∧ 2^32 - 512 ≤ (splitPid pid).1 ↔ 2^63 - 512 ≤ asI64 pid := by
    rw [value]
    split <;> omega
  rw [Carries, napi.send_spawn_iff, fits_iff_index, ← last, and_assoc]

/-- The slot that `allocate` takes next has an index that its generation leaves room for. -/
def Napi.CarriesNext (napi : Napi) (h : History) : SlabCall → Prop
  | .deallocate _ => True
  | .allocate =>
    match h.slab.freeList with
    | [] => napi.Carries (makePid h.slab.entries.length 1)
    | idx :: _ => ∀ entry, h.slab.entries[idx]? = some entry → napi.Carries (makePid idx entry.generation)

section

variable {h final : History} {calls : List SlabCall}

theorem carriesNext_iff (napi : Napi) {pid : Pid} {slab : SlabAllocator}
    (allocated : h.slab.allocate = some (pid, slab)) :
    napi.CarriesNext h .allocate ↔ napi.Carries pid := by
  simp only [Napi.CarriesNext]
  unfold SlabAllocator.allocate at allocated
  split at allocated
  · rename_i idx rest free
    simp only [free]
    split at allocated
    · cases allocated
    · rename_i entry found
      cases allocated
      constructor
      · intro all
        exact all entry found
      · intro carries other same
        have equal : entry = other := Option.some.inj (found.symm.trans same)
        rw [← equal]
        exact carries
  · rename_i free
    simp only [free]
    cases allocated
    rfl

theorem Napi.carries_step (napi : Napi) {next : History} {call : SlabCall}
    (stepped : historyMachine.step h call = some next) :
    (∀ pid ∈ next.returned, napi.Carries pid) ↔
      napi.CarriesNext h call ∧ ∀ pid ∈ h.returned, napi.Carries pid := by
  rcases History.call_cases stepped with
    ⟨pid, slab, rfl, allocated, rfl⟩ | ⟨pid, rfl, -, rfl⟩ | ⟨pid, rfl, -, rfl⟩
  · rw [List.forall_mem_cons, carriesNext_iff napi allocated]
  · exact (and_iff_right trivial).symm
  · exact (and_iff_right trivial).symm

/-- What is returned in a run can be carried exactly if every allocation meets the condition. -/
theorem Napi.carries_iff_meets (napi : Napi) (reached : historyMachine.run .start calls = some final) :
    (∀ pid ∈ final.returned, napi.Carries pid) ↔ historyMachine.Meets napi.CarriesNext .start calls := by
  have start : ∀ pid ∈ History.start.returned, napi.Carries pid := List.forall_mem_nil _
  have run := historyMachine.run_dichotomy (P := fun h => ∀ pid ∈ h.returned, napi.Carries pid)
    (Q := fun h => ¬ ∀ pid ∈ h.returned, napi.Carries pid)
    (fun h call next all holds stepped => (napi.carries_step stepped).mpr ⟨holds, all⟩)
    (fun h call next _ breaks stepped all => breaks ((napi.carries_step stepped).mp all).1)
    (fun h call next lost stepped all => lost ((napi.carries_step stepped).mp all).2) start reached
  rcases run with ⟨meets, all⟩ | ⟨breaks, lost⟩
  · exact iff_of_true all meets
  · exact iff_of_false lost breaks

theorem live_returned (reached : historyMachine.run .start calls = some final) :
    ∀ pid ∈ final.live, pid ∈ final.returned := by
  apply historyMachine.run_invariant (P := fun h => ∀ pid ∈ h.live, pid ∈ h.returned) _ _ reached
  · intro h call next kept stepped
    rcases History.call_cases stepped with
      ⟨pid, slab, -, -, rfl⟩ | ⟨pid, -, -, rfl⟩ | ⟨pid, -, -, rfl⟩
    · intro other member
      rcases Finset.mem_insert.mp member with same | earlier
      · rw [same]
        exact List.mem_cons_self
      · exact List.mem_cons_of_mem _ (kept other earlier)
    · intro other member
      exact kept other (Finset.mem_of_mem_erase member)
    · exact kept
  · intro pid member
    exact absurd member (Finset.notMem_empty pid)

end

/-- In every run of the slab, the PIDs survive the way to JavaScript and back,
    and the live ones are told apart there, exactly if the slot of every
    allocation has an index that its generation leaves room for. -/
theorem pids_survive_iff (napi : Napi) (calls : List SlabCall) :
    ∃ final, historyMachine.run .start calls = some final ∧
      (((∀ pid ∈ final.returned, napi.send (napi.spawn pid) = pid) ∧
          ∀ pid ∈ final.live, ∀ other ∈ final.live, napi.spawn pid = napi.spawn other → pid = other) ↔
        historyMachine.Meets napi.CarriesNext .start calls) := by
  obtain ⟨final, reached, -, -⟩ := History.run_reaches calls
  refine ⟨final, reached, ?_⟩
  rw [← napi.carries_iff_meets reached]
  constructor
  · rintro ⟨survive, -⟩ pid member
    exact (napi.carries_iff pid).mpr (survive pid member)
  · intro carries
    have survive : ∀ pid ∈ final.returned, napi.send (napi.spawn pid) = pid := by
      intro pid member
      exact (napi.carries_iff pid).mp (carries pid member)
    refine ⟨survive, ?_⟩
    intro pid live other also same
    rw [← survive pid (live_returned reached pid live), same, survive other (live_returned reached other also)]

/-- A `Number` beyond the range of `i64` becomes the last one in it. -/
def Napi.saturating : Napi where
  toNumber := roundEven 53
  fromNumber := fun number => max (-2^63) (min number (2^63 - 1))
  rounds := fun n _ _ => roundEven_nearest (by decide) n
  converts := by
    intro n low high _
    omega

def twoBusySlots (count : Nat) : List SlabCall :=
  [.allocate, .allocate] ++ (List.range count).flatMap fun reuse =>
    [.deallocate (makePid 0 (BitVec.ofNat 32 (reuse + 1))), .allocate] ++
      [.deallocate (makePid 1 (BitVec.ofNat 32 (reuse + 1))), .allocate]

theorem twoBusySlots_run (count : Nat) : ∃ final, historyMachine.run .start (twoBusySlots count) = some final ∧
    final.slab = ⟨[⟨BitVec.ofNat 32 (count + 1), true⟩, ⟨BitVec.ofNat 32 (count + 1), true⟩], []⟩ := by
  induction count with
  | zero => exact ⟨_, rfl, rfl⟩
  | succ count ih =>
    obtain ⟨before, reached, slab⟩ := ih
    have longer : twoBusySlots (count + 1) = twoBusySlots count ++
        ([.deallocate (makePid 0 (BitVec.ofNat 32 (count + 1))), .allocate] ++
          [.deallocate (makePid 1 (BitVec.ofNat 32 (count + 1))), .allocate]) := by
      simp [twoBusySlots, List.range_succ]
    have following : BitVec.ofNat 32 (count + 1) + 1 = BitVec.ofNat 32 (count + 1 + 1) := by
      simp [BitVec.ofNat_add]
    have first : before.slab.entries[0]? = some ⟨BitVec.ofNat 32 (count + 1), true⟩ := by
      rw [slab]
      rfl
    obtain ⟨middle, reused, half, -⟩ := before.reuse_run (by decide) first (by rw [slab])
    rw [slab, following] at half
    have second : middle.slab.entries[1]? = some ⟨BitVec.ofNat 32 (count + 1), true⟩ := by
      rw [half]
      rfl
    obtain ⟨next, again, whole, -⟩ := middle.reuse_run (by decide) second (by rw [half])
    rw [half, following] at whole
    rw [longer, Machine.run_append, reached]
    refine ⟨next, ?_, whole⟩
    rw [Option.bind_some, Machine.run_append, reused]
    exact again

/-- The first odd number that needs 54 bits is rounded down. -/
theorem Napi.spawn_second (napi : Napi) :
    napi.spawn (makePid 1 (BitVec.ofNat 32 (2^21))) = 2^53 := by
  have value : asI64 (makePid 1 (BitVec.ofNat 32 (2^21))) = 2^53 + 1 := by decide +kernel
  have near : NearestEven 53 (2^53 + 1) (napi.spawn (makePid 1 (BitVec.ofNat 32 (2^21)))) := by
    rw [spawn, value]
    exact napi.rounds (2^53 + 1) (by decide) (by decide)
  generalize napi.spawn (makePid 1 (BitVec.ofNat 32 (2^21))) = number at near
  have unit : spacing 53 (2^53 + 1) = 2 := spacing_eq (k := 53) (by decide) (by decide)
  have odd := near.eq_iff.not.mpr (by rw [fits_iff, unit]; decide)
  have even := near.even (2^53) (fits_two_pow 53)
  have nearest := near.nearest (2^53) (fits_two_pow 53)
  rw [unit] at even
  by_contra other
  have upper : number = 2^53 + 2 := by omega
  have divides := even (by omega) (by omega)
  omega

/-- Two live PIDs are the same `Number`: their slots have been reused until
    the generation is `2^21`, and the indices differ in the lowest bit. -/
theorem reused_slots_confused :
    ∃ final, historyMachine.run .start (twoBusySlots (2^21 - 1)) = some final ∧
      ∃ pid ∈ final.live, ∃ other ∈ final.live, pid ≠ other ∧
        Napi.saturating.spawn pid = Napi.saturating.spawn other ∧
        Napi.saturating.send (Napi.saturating.spawn other) ≠ other := by
  obtain ⟨final, reached, slab⟩ := twoBusySlots_run (2^21 - 1)
  obtain ⟨same, again, -, refines⟩ := History.run_reaches (twoBusySlots (2^21 - 1))
  have equal : same = final := Option.some.inj (again.symm.trans reached)
  rw [equal] at refines
  have live := refines (by rw [slab]; decide)
  have value : asI64 (makePid 0 (BitVec.ofNat 32 (2^21))) = 2^53 := by decide +kernel
  have whole : Napi.saturating.spawn (makePid 0 (BitVec.ofNat 32 (2^21))) = 2^53 := by
    rw [Napi.spawn, value]
    exact roundEven_eq_self (fits_two_pow 53)
  refine ⟨final, reached, makePid 0 (BitVec.ofNat 32 (2^21)), ?_, makePid 1 (BitVec.ofNat 32 (2^21)), ?_, ?_, ?_, ?_⟩
  · rw [← live, slab]
    decide
  · rw [← live, slab]
    decide
  · decide
  · rw [whole, Napi.spawn_second]
  · rw [Napi.spawn_second]
    decide

end Myrmidon.Node
