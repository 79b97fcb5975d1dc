import Jiauliyan.FormatDouble

namespace Jiauliyan.ExactMath

open Jiauliyan.FloatingPoint
open Jiauliyan.FormatDouble (trunc toDouble ofInt_eq)

-- Every operation is exact.
def fabs (x : ℚ) : ℚ := if x < 0 then -x else x

/-- The fraction, and what is stored through `iptr`. The cast to `int64_t` is of numbers that it
can hold. -/
def modf (x : ℚ) : ℚ × ℚ :=
  if 4503599627370496 ≤ fabs x then (0, x)
  else if fabs x < 1 then (x, 0)
  else (x - trunc x, trunc x)

def floor (x : ℚ) : ℚ :=
  let x := (modf x).2
  if x < 0 then x - 1 else x

def modfl (x : ℚ) : ℚ × ℚ := modf x

def floorl (x : ℚ) : ℚ :=
  let x := (modfl x).2
  if x < 0 then x - 1 else x

/-- The operator `%` of Lua. -/
def luaiNummod (a b : ℚ) : ℚ := a - floor (a / b) * b

/-- Not a negative integer, and not between -1 and 0. -/
def Floors (x : ℚ) : Prop := 0 ≤ x ∨ x < -1 ∧ ∀ n : ℤ, x ≠ n

section Truncation

variable {x : ℚ}

theorem fabs_eq (x : ℚ) : fabs x = |x| := by
  rw [fabs]
  split_ifs with h
  · exact (abs_of_neg h).symm
  · exact (abs_of_nonneg (not_lt.mp h)).symm

theorem trunc_neg (h : x < 0) : trunc x = ⌈x⌉ := if_pos h

theorem trunc_nonneg (h : 0 ≤ x) : trunc x = ⌊x⌋ := if_neg (not_lt.mpr h)

theorem trunc_small (h : |x| < 1) : trunc x = 0 := by
  obtain ⟨hlo, hhi⟩ := abs_lt.mp h
  by_cases hneg : x < 0
  · rw [trunc_neg hneg, Int.ceil_eq_zero_iff]
    exact ⟨hlo, hneg.le⟩
  · rw [trunc_nonneg (not_lt.mp hneg), Int.floor_eq_zero_iff]
    exact ⟨not_lt.mp hneg, hhi⟩

theorem modf_trunc (hx : |x| < 4503599627370496) : (modf x).2 = trunc x := by
  rw [modf, fabs_eq, if_neg (not_le.mpr hx)]
  split_ifs with h
  · rw [trunc_small h, Int.cast_zero]
  · rfl

theorem trunc_neg_iff : trunc x < 0 ↔ x ≤ -1 := by
  by_cases hneg : x < 0
  · have hle : ⌈x⌉ < 0 ↔ ⌈x⌉ ≤ -1 := by omega
    rw [trunc_neg hneg, hle, Int.ceil_le]
    norm_num
  · have hpos := not_lt.mp hneg
    have hfloor := Int.floor_nonneg.mpr hpos
    rw [trunc_nonneg hpos]
    constructor
    · intro h
      omega
    · intro h
      linarith

theorem floor_eq (hx : |x| < 4503599627370496) :
    floor x = ((if x ≤ -1 then trunc x - 1 else trunc x : ℤ) : ℚ) := by
  have hsign : (trunc x : ℚ) < 0 ↔ x ≤ -1 := by rw [Int.cast_lt_zero, trunc_neg_iff]
  rw [floor, modf_trunc hx]
  simp only [hsign]
  split_ifs with h
  · rw [Int.cast_sub, Int.cast_one]
  · rfl

theorem floor_nonneg (h0 : 0 ≤ x) (hx : x < 4503599627370496) : floor x = ⌊x⌋ := by
  have hneg : ¬x ≤ -1 := by linarith
  rw [floor_eq (abs_lt.mpr ⟨by linarith, hx⟩), if_neg hneg, trunc_nonneg h0]

/-- The integer that `floor` yields is the greatest below, unless the correction is missing or one
too many. -/
theorem floored_iff : (if x ≤ -1 then trunc x - 1 else trunc x) = ⌊x⌋ ↔ Floors x := by
  by_cases h0 : 0 ≤ x
  · have hneg : ¬x ≤ -1 := by linarith
    rw [if_neg hneg, trunc_nonneg h0]
    simp [Floors, h0]
  · have hneg := not_le.mp h0
    by_cases h1 : x ≤ -1
    · rw [if_pos h1, trunc_neg hneg]
      constructor
      · intro h
        have hint : ∀ n : ℤ, x ≠ n := by
          rintro n rfl
          rw [Int.ceil_intCast, Int.floor_intCast] at h
          omega
        have hlt : x ≠ -1 := by simpa using hint (-1)
        exact .inr ⟨lt_of_le_of_ne h1 hlt, hint⟩
      · rintro (h | ⟨-, hint⟩)
        · exact absurd h h0
        · have hceil : ⌈x⌉ = ⌊x⌋ + 1 := by
            rw [Int.ceil_eq_iff]
            have hle := Int.floor_le x
            have hlt := Int.lt_floor_add_one x
            have hne : (⌊x⌋ : ℚ) ≠ x := (hint ⌊x⌋).symm
            push_cast
            exact ⟨by linarith [lt_of_le_of_ne hle hne], hlt.le⟩
          omega
    · have hsmall : |x| < 1 := abs_lt.mpr ⟨not_le.mp h1, by linarith⟩
      have hfloor : ⌊x⌋ < 0 := Int.floor_lt.mpr (by simpa using hneg)
      have hnot : ¬Floors x := by
        rintro (h | ⟨h, -⟩)
        · exact h0 h
        · exact h1 h.le
      rw [if_neg h1, trunc_small hsmall]
      simp only [hnot, iff_false]
      omega

end Truncation

section Machine

variable {q : ℚ}

theorem trunc_le (hq : |q| ≤ 2 ^ 51) : |trunc q| ≤ 2 ^ 51 := by
  have hle := (FormatDouble.trunc_abs q).trans hq
  rw [← Int.cast_abs] at hle
  exact_mod_cast hle

theorem toDouble_bounds (hq : |q| ≤ 2 ^ 51) :
    ∃ r, toDouble (.finite q) = .finite r ∧ |r| < 4503599627370496 ∧ (1 ≤ |q| → 1 ≤ |r|) := by
  have hmag : ∀ p : ℚ, 0 ≤ p → p ≤ 2 ^ 51 →
      ∃ r, binary64.magnitude p = .finite r ∧ |r| < 4503599627370496 ∧ (1 ≤ p → 1 ≤ |r|) := by
    intro p hp0 hp
    have hlargest : p ≤ binary64.largest := by
      refine hp.trans (le_trans ?_ (pow_top binary64).1)
      rw [← zpow_natCast]
      exact zpow_le_zpow_right₀ (by norm_num) (by decide)
    have hdiv : ((0 : ℤ) : ℚ) ≤ p / 2 ^ binary64.exponent p := by
      rw [Int.cast_zero]
      positivity
    have hn : (0 : ℚ) ≤ nearest (p / 2 ^ binary64.exponent p) := by exact_mod_cast le_nearest hdiv
    refine ⟨_, magnitude_finite hlargest, ?_, fun h1 => ?_⟩
    · rw [abs_of_nonneg (by positivity)]
      obtain h1 | h1 := le_or_gt 1 p
      · have hnear := (near_error (F := binary64) h1).2.1
        have hunit := unit_le binary64
        rw [Format.near] at hnear
        nlinarith
      · exact (rounded_le_one h1.le).trans_lt (by norm_num)
    · exact (near_error h1).2.2.trans (le_abs_self _)
  by_cases hneg : q < 0
  · rw [abs_of_neg hneg] at hq ⊢
    obtain ⟨r, hr, hlt, hge⟩ := hmag (-q) (by linarith) hq
    refine ⟨-r, ?_, by rwa [abs_neg], by rwa [abs_neg]⟩
    show binary64.round q = _
    rw [Format.round, if_pos hneg, hr]
    rfl
  · rw [abs_of_nonneg (not_lt.mp hneg)] at hq ⊢
    obtain ⟨r, hr, hlt, hge⟩ := hmag q (not_lt.mp hneg) hq
    exact ⟨r, (round_pos (not_lt.mp hneg)).trans hr, hlt, hge⟩

theorem modfl_machine (M : FormatDouble.Machine) (hq : |q| ≤ 2 ^ 51) :
    (FormatDouble.modfl M (.finite q)).2 = .finite (trunc q) := by
  obtain ⟨r, hr, hlt, hge⟩ := toDouble_bounds hq
  have hlarge : ((Number.finite 4503599627370496).lt (.finite |r|) ||
      (Number.finite |r|).eq (.finite 4503599627370496)) = false := by
    simp [Number.lt, Number.eq, hlt.le, hlt.ne]
  rw [FormatDouble.modfl, hr, FormatDouble.fabs_finite]
  simp only [hlarge, Bool.false_eq_true, if_false]
  by_cases hone : |r| < 1
  · have hsmall : |q| < 1 := lt_of_not_ge fun h => absurd (hge h) (not_le.mpr hone)
    rw [trunc_small hsmall, Int.cast_zero]
    simp [Number.lt, hone]
  · have htrunc := trunc_le hq
    obtain ⟨hlow, hhigh⟩ := abs_le.mp htrunc
    have hint : FormatDouble.toInt64 M (.finite q) = trunc q := if_pos ⟨by omega, by omega⟩
    have hlow1 : (Number.finite |r|).lt (.finite 1) = false := by simp [Number.lt, not_lt.mp hone]
    rw [hlow1, if_neg Bool.false_ne_true, hint, ofInt_eq (htrunc.trans_lt (by norm_num))]

theorem floorl_machine (M : FormatDouble.Machine) (hq : |q| ≤ 2 ^ 51) :
    FormatDouble.floorl M (.finite q) = .finite (floorl q) := by
  have hq' : |q| < 4503599627370496 := hq.trans_lt (by norm_num)
  have htrunc := trunc_le hq
  have hexact : floorl q = if (trunc q : ℚ) < 0 then (trunc q : ℚ) - 1 else trunc q := by
    rw [floorl, modfl, modf_trunc hq']
  rw [FormatDouble.floorl, modfl_machine M hq, hexact]
  by_cases hneg : (trunc q : ℚ) < 0
  · obtain ⟨hlow, hhigh⟩ := abs_le.mp htrunc
    have hround : extended.round ((trunc q - 1 : ℤ) : ℚ) = .finite ((trunc q - 1 : ℤ) : ℚ) := by
      refine round_int ?_ (by decide)
      rw [abs_lt]
      constructor
      · exact lt_of_lt_of_le (by decide : -2 ^ 64 < (-2 ^ 51 - 1 : ℤ)) (by omega)
      · exact lt_of_le_of_lt (by omega : trunc q - 1 ≤ 2 ^ 51) (by decide)
    have hlt : (Number.finite (trunc q)).lt (.finite 0) = true := decide_eq_true hneg
    rw [Int.cast_sub, Int.cast_one] at hround
    simp only [hlt, if_true, if_pos hneg]
    rw [Format.sub, Number.neg, Format.add, ← sub_eq_add_neg]
    exact hround
  · have hlt : (Number.finite (trunc q)).lt (.finite 0) = false := decide_eq_false hneg
    simp only [hlt, Bool.false_eq_true, if_false, if_neg hneg]

end Machine

theorem remainder_iff {a b : ℚ} (hb : 0 < b) (n : ℤ) :
    0 ≤ a - n * b ∧ a - n * b < b ↔ n = ⌊a / b⌋ := by
  rw [eq_comm, Int.floor_eq_iff, le_div_iff₀ hb, div_lt_iff₀ hb, add_mul, one_mul, sub_nonneg,
    sub_lt_iff_lt_add']

theorem floor_iff (x : ℚ) (hx : |x| < 2 ^ 52) :
    (floor x = ⌊x⌋ ↔ Floors x) ∧
      ∀ a b : ℚ, 0 < b → a / b = x →
        (0 ≤ luaiNummod a b ∧ luaiNummod a b < b ↔ Floors x) := by
  have hx' : |x| < 4503599627370496 := by norm_num at hx; exact hx
  constructor
  · rw [floor_eq hx', Int.cast_inj, floored_iff]
  · rintro a b hb rfl
    rw [luaiNummod, floor_eq hx', remainder_iff hb, floored_iff]

theorem floor_iff_half :
    floor (7 / 2) = ⌊(7 / 2 : ℚ)⌋ ∧ 0 ≤ luaiNummod 7 2 ∧ luaiNummod 7 2 < 2 := by
  obtain ⟨hfloor, hmod⟩ := floor_iff (7 / 2) (by norm_num)
  have h0 : Floors (7 / 2) := .inl (by norm_num)
  exact ⟨hfloor.mpr h0, (hmod 7 2 (by norm_num) (by norm_num)).mpr h0⟩

theorem floor_below : ¬∀ x : ℚ, |x| < 2 ^ 52 → floor x = ⌊x⌋ := by
  intro h
  have h2 := h (-2) (by norm_num)
  revert h2
  decide +kernel

end Jiauliyan.ExactMath
