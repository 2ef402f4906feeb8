import Mathlib.Algebra.Order.Group.Nat
import Mathlib.Data.Int.Log
import Mathlib.Data.Nat.Log
import Mathlib.Data.Rat.Floor
import Mathlib.Tactic.Ring

/-! # Rounding to binary64

A positive binary64 number has 53 significant bits. `roundTo53 n` is the natural number with at most
53 significant bits that is nearest to `n`, with ties to the even significand; since scaling by a power
of two does not change the significant bits, it also rounds a fraction over a power of two. Rounding is
off by half a unit at most (`roundTo53_error`), so a fraction that stays clear of the integers, or
close enough to one, keeps its ceiling (`ceilScaled_roundTo53`). -/

namespace Binary64

/-- The weight of the last of the 53 significant bits of `n`. -/
def unit (n : Nat) : Nat := 2 ^ (n.log2 - 52)

/-- Round to the nearest multiple of the unit, ties to the even multiple. -/
def roundTo53 (n : Nat) : Nat :=
  let q := n / unit n
  let r := n % unit n
  let up : Bool := unit n < 2 * r ∨ unit n = 2 * r ∧ q % 2 = 1
  (if up then q + 1 else q) * unit n

theorem unit_pos (n : Nat) : 0 < unit n := Nat.two_pow_pos _

/-- A number of at most 53 bits is not changed. -/
theorem roundTo53_of_lt {n : Nat} (h : n < 2 ^ 53) : roundTo53 n = n := by
  have hunit : unit n = 1 := by
    have hlog : n.log2 ≤ 52 := by
      rcases Nat.eq_zero_or_pos n with rfl | hpos
      · rw [Nat.log2_zero]
        exact Nat.zero_le _
      · exact Nat.le_of_lt_succ ((Nat.log2_lt hpos.ne').mpr h)
    rw [unit, Nat.sub_eq_zero_of_le hlog, pow_zero]
  unfold roundTo53
  rw [hunit]
  simp [Nat.mod_one]

/-- The unit of a number below `2 ^ (53 + k)` divides `2 ^ k`. -/
theorem unit_dvd {n k : Nat} (h : n < 2 ^ (53 + k)) : unit n ∣ 2 ^ k := by
  refine Nat.pow_dvd_pow 2 ?_
  rcases Nat.eq_zero_or_pos n with rfl | hpos
  · rw [Nat.log2_zero]
    exact Nat.zero_le _
  · have hlog : n.log2 < 53 + k := (Nat.log2_lt hpos.ne').mpr h
    omega

/-- A number has at most 53 bits in front of its unit. -/
theorem lt_unit (n : Nat) : n < 2 ^ 53 * unit n := by
  have hlog : n < 2 ^ (n.log2 + 1) := Nat.lt_log2_self
  refine hlog.trans_le ?_
  rw [unit, ← pow_add]
  exact Nat.pow_le_pow_right (by decide) (by omega)

/-- Rounding is off by half a unit at most. -/
theorem roundTo53_error (n : Nat) :
    2 * n ≤ 2 * roundTo53 n + unit n ∧ 2 * roundTo53 n ≤ 2 * n + unit n := by
  have hdiv : unit n * (n / unit n) + n % unit n = n := Nat.div_add_mod n (unit n)
  have hmod : n % unit n < unit n := Nat.mod_lt n (unit_pos n)
  have hup : (n / unit n + 1) * unit n = unit n * (n / unit n) + unit n := by ring
  have hdown : n / unit n * unit n = unit n * (n / unit n) := Nat.mul_comm _ _
  unfold roundTo53
  dsimp only
  split
  · rename_i h
    rw [hup]
    have hhalf := of_decide_eq_true h
    omega
  · rename_i h
    rw [hdown]
    have hhalf := of_decide_eq_false (Bool.eq_false_iff.mpr h)
    omega

/-- The ceiling of a number that is given in units of `2⁻⁵³`. -/
def ceilScaled (n : Nat) : Nat := (n + (2 ^ 53 - 1)) / 2 ^ 53

/-- The bounds of a ceiling. -/
theorem ceilScaled_eq_iff {n m : Nat} (hm : 0 < m) :
    ceilScaled n = m ↔ (m - 1) * 2 ^ 53 < n ∧ n ≤ m * 2 ^ 53 := by
  unfold ceilScaled
  obtain ⟨k, rfl⟩ := Nat.exists_eq_succ_of_ne_zero hm.ne'
  rw [Nat.succ_eq_add_one, Nat.add_sub_cancel, Nat.div_eq_iff (by norm_num)]
  omega

/-- **A ceiling survives rounding** if the number lies more than half a unit above the integer before
and less than half a unit above its own. -/
theorem ceilScaled_roundTo53 {n m : Nat} (hm : 0 < m) (hsmall : n < 2 ^ (53 + 53))
    (hlower : 2 * ((m - 1) * 2 ^ 53) + unit n < 2 * n)
    (hupper : 2 * n < 2 * (m * 2 ^ 53) + unit n) : ceilScaled (roundTo53 n) = m := by
  obtain ⟨herror, herror'⟩ := roundTo53_error n
  obtain ⟨k, hk⟩ : unit n ∣ m * 2 ^ 53 := (unit_dvd hsmall).mul_left m
  obtain ⟨j, hj⟩ : unit n ∣ roundTo53 n := ⟨_, Nat.mul_comm _ _⟩
  rw [ceilScaled_eq_iff hm]
  constructor
  · generalize (m - 1) * 2 ^ 53 = c at hlower ⊢
    omega
  · -- both are multiples of the unit
    rw [hk] at hupper ⊢
    rw [hj] at herror' ⊢
    refine Nat.mul_le_mul_left _ (not_lt.mp fun hlt => ?_)
    have hstep : unit n * (k + 1) ≤ unit n * j := Nat.mul_le_mul_left _ hlt
    rw [Nat.mul_succ] at hstep
    omega

/-- The binary64 number nearest to a positive rational, ties to the even significand, where it neither
over- nor underflows. -/
def roundRat (x : ℚ) : ℚ :=
  let u : ℚ := (2 : ℚ) ^ (Int.log 2 x - 52)
  let q := ⌊x / u⌋
  let r := x / u - q
  (if 1 < 2 * r ∨ 2 * r = 1 ∧ q % 2 = 1 then q + 1 else q) * u

end Binary64
