import Mathlib.Data.Int.Basic
import Mathlib.Data.Nat.Size
import Mathlib.Tactic.Positivity
import Mathlib.Tactic.Ring

namespace Myrmidon.Data

/-- At most `p` significant bits. -/
def Fits (p : Nat) (n : Int) : Prop := ∃ (m : Int) (e : Nat), m.natAbs < 2^p ∧ n = m * 2^e

/-- The distance of neighbours with `p` significant bits around `n`. -/
def spacing (p : Nat) (n : Int) : Int := 2^(n.natAbs.size - p)

/-- `m` is the nearest to `n` with `p` significant bits; of two the one that
    is an even multiple of the spacing. -/
structure NearestEven (p : Nat) (n m : Int) : Prop where
  fits : Fits p m
  nearest : ∀ k, Fits p k → (m - n).natAbs ≤ (k - n).natAbs
  even : ∀ k, Fits p k → k ≠ m → (k - n).natAbs = (m - n).natAbs → 2 * spacing p n ∣ m

def roundEven (p : Nat) (n : Int) : Int :=
  let below := n / spacing p n
  let rest := n % spacing p n
  if 2 * rest < spacing p n then below * spacing p n
  else if spacing p n < 2 * rest then (below + 1) * spacing p n
  else (below + below % 2) * spacing p n

theorem spacing_pos (p : Nat) (n : Int) : 0 < spacing p n := by
  unfold spacing
  positivity

theorem spacing_eq {p k : Nat} {n : Int} (low : 2^k ≤ n.natAbs) (high : n.natAbs < 2^(k + 1)) :
    spacing p n = 2^(k + 1 - p) := by
  have size : n.natAbs.size = k + 1 := by
    apply le_antisymm
    · exact Nat.size_le.mpr high
    · exact Nat.lt_size.mpr low
  rw [spacing, size]

theorem natAbs_lt_spacing (p : Nat) (n : Int) : (n.natAbs : Int) < 2^p * spacing p n := by
  have below : n.natAbs < 2^n.natAbs.size := Nat.lt_size_self n.natAbs
  have wide : 2^n.natAbs.size ≤ 2^(p + (n.natAbs.size - p)) := Nat.pow_le_pow_right (by decide) (by omega)
  unfold spacing
  rw [← pow_add]
  exact_mod_cast lt_of_lt_of_le below wide

theorem fits_iff (p : Nat) (n : Int) : Fits p n ↔ spacing p n ∣ n := by
  constructor
  · rintro ⟨m, e, small, rfl⟩
    have size : (m * 2^e).natAbs.size ≤ p + e := by
      rw [Nat.size_le, Int.natAbs_mul, pow_add, Int.natAbs_pow]
      exact Nat.mul_lt_mul_of_pos_right small (by positivity)
    have divides : spacing p (m * 2^e) ∣ 2^e := pow_dvd_pow 2 (by omega)
    exact divides.trans (Int.dvd_mul_left m (2^e))
  · rintro ⟨m, product⟩
    refine ⟨m, n.natAbs.size - p, ?_, ?_⟩
    · have bound := natAbs_lt_spacing p n
      have positive := spacing_pos p n
      have size : (n.natAbs : Int) = m.natAbs * spacing p n := by
        conv_lhs => rw [product]
        rw [Int.natAbs_mul, Int.natCast_mul, Int.natAbs_of_nonneg (le_of_lt positive), Int.mul_comm]
      rw [size] at bound
      exact_mod_cast lt_of_mul_lt_mul_right bound (le_of_lt positive)
    · rw [Int.mul_comm]
      exact product

instance (p : Nat) (n : Int) : Decidable (Fits p n) := decidable_of_iff _ (fits_iff p n).symm

theorem NearestEven.eq_iff {p : Nat} {n m : Int} (near : NearestEven p n m) : m = n ↔ Fits p n := by
  constructor
  · intro same
    rw [← same]
    exact near.fits
  · intro fits
    have bound := near.nearest n fits
    omega

theorem fits_multiple {p : Nat} (positive : 0 < p) {j : Int} (small : j.natAbs ≤ 2^p) (e : Nat) :
    Fits p (j * 2^e) := by
  rcases Nat.lt_or_eq_of_le small with less | equal
  · exact ⟨j, e, less, rfl⟩
  · -- One more bit, but all of them after the first are zero.
    refine ⟨j.sign, p + e, ?_, ?_⟩
    · have one : j.sign.natAbs ≤ 1 := by
        rw [Int.natAbs_sign]
        split <;> omega
      have two : 2^1 ≤ 2^p := Nat.pow_le_pow_right (by decide) positive
      omega
    · have split : j = j.sign * 2^p := by
        conv_lhs => rw [← Int.sign_mul_natAbs j, equal]
        norm_cast
      rw [pow_add, ← mul_assoc, ← split]

/-- What fits and has no fewer bits than `n` is a multiple of the spacing at `n`. -/
theorem spacing_dvd {p : Nat} {n k : Int} (fits : Fits p k) (large : 2^(n.natAbs.size - 1) ≤ k.natAbs) :
    spacing p n ∣ k := by
  have size : n.natAbs.size - 1 < k.natAbs.size := Nat.lt_size.mpr large
  have divides : spacing p n ∣ spacing p k := pow_dvd_pow 2 (by omega)
  exact divides.trans ((fits_iff p k).mp fits)

/-- What is strictly between the neighbours of `n` has no fewer bits than `n`: the
    first number with as many bits is itself a multiple of the spacing. -/
theorem large_of_between {p : Nat} (positive : 0 < p) {n k : Int} (between : ¬ spacing p n ∣ n)
    (above : n / spacing p n * spacing p n < k) (below : k < (n / spacing p n + 1) * spacing p n) :
    2^(n.natAbs.size - 1) ≤ k.natAbs := by
  have unit := spacing_pos p n
  have nonzero : n ≠ 0 := by
    rintro rfl
    exact between (Int.dvd_zero _)
  have bits : 0 < n.natAbs.size := Nat.size_pos.mpr (by omega)
  have first : 2^(n.natAbs.size - 1) ≤ n.natAbs := Nat.lt_size.mp (by omega)
  have long : p < n.natAbs.size := by
    by_contra short
    apply between
    rw [spacing, Nat.sub_eq_zero_of_le (by omega)]
    exact Int.one_dvd n
  obtain ⟨t, multiple⟩ : spacing p n ∣ ((2^(n.natAbs.size - 1) : Nat) : Int) := by
    rw [Nat.cast_pow]
    exact pow_dvd_pow 2 (by omega)
  rw [mul_comm] at multiple
  rcases lt_or_gt_of_ne nonzero with negative | positive
  · have beyond : n < -t * spacing p n := by
      rw [neg_mul, ← multiple]
      have different : n ≠ -(t * spacing p n) := by
        intro same
        have divides : spacing p n ∣ -(t * spacing p n) := (Int.dvd_mul_left t _).neg_right
        rw [← same] at divides
        exact between divides
      rw [← multiple] at different
      omega
    have quotient : n / spacing p n + 1 ≤ -t := (Int.ediv_lt_iff_lt_mul unit).mpr beyond
    have bound := mul_le_mul_of_nonneg_right quotient (le_of_lt unit)
    rw [neg_mul, ← multiple] at bound
    omega
  · have within : t * spacing p n ≤ n := by
      rw [← multiple]
      omega
    have quotient : t ≤ n / spacing p n := (Int.le_ediv_iff_mul_le unit).mpr within
    have bound := mul_le_mul_of_nonneg_right quotient (le_of_lt unit)
    rw [← multiple] at bound
    omega

/-- Nothing that fits is strictly between the neighbours of `n`. -/
theorem no_fit_between {p : Nat} (positive : 0 < p) {n k : Int} (between : ¬ spacing p n ∣ n) (fits : Fits p k) :
    k ≤ n / spacing p n * spacing p n ∨ (n / spacing p n + 1) * spacing p n ≤ k := by
  by_contra inside
  simp only [not_or, not_le] at inside
  obtain ⟨above, below⟩ := inside
  have divides := spacing_dvd fits (large_of_between positive between above below)
  rw [mul_comm] at above below
  exact (Int.exists_lt_and_lt_iff_not_dvd k (spacing_pos p n)).mp ⟨n / spacing p n, above, below⟩ divides

theorem roundEven_eq_self {p : Nat} {n : Int} (fits : Fits p n) : roundEven p n = n := by
  have divides := (fits_iff p n).mp fits
  have unit := spacing_pos p n
  have exact : n % spacing p n = 0 := Int.emod_eq_zero_of_dvd divides
  simp only [roundEven, exact]
  rw [if_pos (by omega), Int.ediv_mul_cancel divides]

theorem nearestEven_self {p : Nat} {n : Int} (fits : Fits p n) : NearestEven p n n where
  fits := fits
  nearest := by
    intro k _
    omega
  even := by
    intro k _ different same
    omega

theorem roundEven_fits {p : Nat} (positive : 0 < p) (n : Int) : Fits p (roundEven p n) := by
  have unit := spacing_pos p n
  have bound := natAbs_lt_spacing p n
  have low : -2^p ≤ n / spacing p n := by
    rw [Int.le_ediv_iff_mul_le unit, neg_mul]
    omega
  have high : n / spacing p n < 2^p := by
    rw [Int.ediv_lt_iff_lt_mul unit]
    omega
  have small : ∀ j, n / spacing p n ≤ j → j ≤ n / spacing p n + 1 → Fits p (j * spacing p n) := by
    intro j above below
    apply fits_multiple positive
    have cast : ((2^p : Nat) : Int) = 2^p := Nat.cast_pow 2 p
    omega
  unfold roundEven
  dsimp only
  split
  · exact small _ (by omega) (by omega)
  · split
    · exact small _ (by omega) (by omega)
    · exact small _ (by omega) (by omega)

/-- The neighbour that is chosen, and when. -/
theorem roundEven_cases (p : Nat) (n : Int) :
    (roundEven p n = n / spacing p n * spacing p n ∧ 2 * (n % spacing p n) < spacing p n) ∨
    (roundEven p n = n / spacing p n * spacing p n + spacing p n ∧ spacing p n < 2 * (n % spacing p n)) ∨
    (2 * spacing p n ∣ roundEven p n ∧ 2 * (n % spacing p n) = spacing p n ∧
      (roundEven p n = n / spacing p n * spacing p n ∨
        roundEven p n = n / spacing p n * spacing p n + spacing p n)) := by
  unfold roundEven
  dsimp only
  split
  · rename_i less
    exact .inl ⟨rfl, less⟩
  · split
    · rename_i more
      exact .inr (.inl ⟨by ring, more⟩)
    · refine .inr (.inr ⟨?_, by omega, ?_⟩)
      · exact mul_dvd_mul_right (by omega) _
      · rcases Int.emod_two_eq_zero_or_one (n / spacing p n) with even | odd
        · exact .inl (by rw [even, add_zero])
        · exact .inr (by rw [odd]; ring)

theorem roundEven_nearest {p : Nat} (positive : 0 < p) (n : Int) : NearestEven p n (roundEven p n) := by
  by_cases fits : Fits p n
  · rw [roundEven_eq_self fits]
    exact nearestEven_self fits
  · have between : ¬ spacing p n ∣ n := fun divides => fits ((fits_iff p n).mpr divides)
    have grid := fun k (kept : Fits p k) => no_fit_between positive between kept
    have split : n / spacing p n * spacing p n + n % spacing p n = n := by
      rw [mul_comm]
      exact Int.mul_ediv_add_emod n (spacing p n)
    have unit := spacing_pos p n
    have rest := Int.emod_nonneg n (ne_of_gt unit)
    have short := Int.emod_lt_of_pos n unit
    simp only [add_mul, one_mul] at grid
    have chosen := roundEven_cases p n
    refine ⟨roundEven_fits positive n, ?_, ?_⟩
    · intro k kept
      have sides := grid k kept
      omega
    · intro k kept different same
      have sides := grid k kept
      rcases chosen with ⟨value, less⟩ | ⟨value, more⟩ | ⟨divides, -⟩
      · omega
      · omega
      · exact divides

end Myrmidon.Data
