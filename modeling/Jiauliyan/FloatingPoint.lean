import Mathlib.Algebra.Order.Field.Power
import Mathlib.Data.Int.Log
import Mathlib.Data.Rat.Floor
import Mathlib.Tactic.FieldSimp
import Mathlib.Tactic.Linarith
import Mathlib.Tactic.Positivity
import Mathlib.Tactic.Ring

namespace Jiauliyan.FloatingPoint

/-- A binary format: the digits of the significand, and the exponent of the first power of two
that is too large for it. -/
structure Format where
  precision : ℕ
  emax : ℤ
  precise : 1 ≤ precision
  wide : 2 ≤ emax

def binary64 : Format := ⟨53, 1024, by decide, by decide⟩

def extended : Format := ⟨64, 16384, by decide, by decide⟩

/-- A floating-point number; the sign of a zero is left out. -/
inductive Number
  | nan
  | inf (negative : Bool)
  | finite (q : ℚ)
  deriving DecidableEq

namespace Number

def neg : Number → Number
  | nan => nan
  | inf s => inf !s
  | finite q => finite (-q)

def lt : Number → Number → Bool
  | nan, _ | _, nan => false
  | inf s, inf t => s && !t
  | inf s, finite _ => s
  | finite _, inf t => !t
  | finite q, finite r => q < r

def eq : Number → Number → Bool
  | nan, _ | _, nan => false
  | x, y => x = y

end Number

/-- The integer next to a number, of two that are equally far the even one. -/
def nearest (x : ℚ) : ℤ :=
  if x - ⌊x⌋ < 1 / 2 then ⌊x⌋
  else if 1 / 2 < x - ⌊x⌋ then ⌊x⌋ + 1
  else if ⌊x⌋ % 2 = 0 then ⌊x⌋ else ⌊x⌋ + 1

namespace Format

variable (F : Format)

def largest : ℚ := (2 ^ F.precision - 1) * 2 ^ (F.emax - F.precision)

def exponent (q : ℚ) : ℤ := max (Int.log 2 q + 1 - F.precision) (3 - F.emax - F.precision)

/-- A number that is not negative, rounded to nearest. -/
def magnitude (q : ℚ) : Number :=
  let r : ℚ := nearest (q / 2 ^ F.exponent q) * 2 ^ F.exponent q
  if r ≤ F.largest then .finite r else .inf false

def near (q : ℚ) : ℚ := nearest (q / 2 ^ F.exponent q) * 2 ^ F.exponent q

def round (q : ℚ) : Number := if q < 0 then (F.magnitude (-q)).neg else F.magnitude q

def mul : Number → Number → Number
  | .nan, _ | _, .nan => .nan
  | .inf s, .inf t => .inf (s ^^ t)
  | .inf s, .finite q | .finite q, .inf s => if q = 0 then .nan else .inf (s ^^ decide (q < 0))
  | .finite q, .finite r => F.round (q * r)

def div : Number → Number → Number
  | .nan, _ | _, .nan => .nan
  | .inf _, .inf _ => .nan
  | .inf s, .finite q => .inf (s ^^ decide (q < 0))
  | .finite _, .inf _ => .finite 0
  | .finite q, .finite r =>
    if r = 0 then if q = 0 then .nan else .inf (q < 0) else F.round (q / r)

def add : Number → Number → Number
  | .nan, _ | _, .nan => .nan
  | .inf s, .inf t => if s = t then .inf s else .nan
  | .inf s, .finite _ | .finite _, .inf s => .inf s
  | .finite q, .finite r => F.round (q + r)

def sub (x y : Number) : Number := F.add x y.neg

/-- A number of a register, stored in memory. -/
def store : Number → Number
  | .finite q => F.round q
  | x => x

def unit : ℚ := (2 ^ F.precision)⁻¹

end Format

theorem nearest_near (x : ℚ) : x - 1 / 2 ≤ nearest x ∧ (nearest x : ℚ) ≤ x + 1 / 2 := by
  have hlo := Int.floor_le x
  have hhi := Int.lt_floor_add_one x
  unfold nearest
  split_ifs <;> constructor <;> push_cast <;> linarith

theorem nearest_le {x : ℚ} {n : ℤ} (h : x ≤ n) : nearest x ≤ n := by
  have hn := (nearest_near x).2
  have hlt : (nearest x : ℚ) < n + 1 := by linarith
  exact Int.lt_add_one_iff.mp (by exact_mod_cast hlt)

theorem le_nearest {x : ℚ} {n : ℤ} (h : n ≤ x) : n ≤ nearest x := by
  have hn := (nearest_near x).1
  have hlt : (n : ℚ) < nearest x + 1 := by linarith
  exact Int.lt_add_one_iff.mp (by exact_mod_cast hlt)

variable {F : Format} {q : ℚ}

theorem unit_pos (F : Format) : 0 < F.unit := by
  unfold Format.unit
  positivity

theorem unit_le (F : Format) : F.unit ≤ 1 / 2 := by
  have hp : (2 : ℚ) ^ 1 ≤ 2 ^ F.precision := pow_le_pow_right₀ (by norm_num) F.precise
  rw [Format.unit, one_div]
  exact inv_anti₀ (by norm_num) (by linarith)

theorem pow_top (F : Format) : (2 : ℚ) ^ (F.emax - 1) ≤ F.largest ∧ F.largest < 2 ^ F.emax := by
  have hp : (2 : ℚ) ^ 1 ≤ 2 ^ F.precision := pow_le_pow_right₀ (by norm_num) F.precise
  have hmax : (2 : ℚ) ^ F.emax = 2 ^ F.precision * 2 ^ (F.emax - F.precision) := by
    rw [← zpow_natCast, ← zpow_add₀ (by norm_num)]
    congr 1
    omega
  have hhalf : (2 : ℚ) ^ (F.emax - 1) = 2 ^ F.emax / 2 := by
    rw [zpow_sub_one₀ (by norm_num)]
    rfl
  have hpos : (0 : ℚ) < 2 ^ (F.emax - F.precision) := by positivity
  rw [hhalf, hmax, Format.largest]
  constructor
  · rw [div_le_iff₀ (by norm_num)]
    nlinarith
  · exact mul_lt_mul_of_pos_right (by linarith) hpos

theorem rounded_le (hq : q ≤ F.largest) :
    (nearest (q / 2 ^ F.exponent q) : ℚ) * 2 ^ F.exponent q ≤ F.largest := by
  have hpos : (0 : ℚ) < 2 ^ F.exponent q := by positivity
  have hwide := F.wide
  have hprecise := F.precise
  obtain ⟨hhalf, htop⟩ := pow_top F
  by_cases hsmall : q < 2 ^ (F.emax - 1)
  · -- below half the range, up to the power of two there
    have hexp : F.exponent q ≤ F.emax - 1 := by
      have hlog : Int.log 2 q < F.emax - 1 := by
        obtain hq0 | hq0 := le_or_gt q 0
        · rw [Int.log_of_right_le_zero _ hq0]
          omega
        · exact (Int.lt_zpow_iff_log_lt (by norm_num) hq0).mp (by exact_mod_cast hsmall)
      unfold Format.exponent
      omega
    have hle : q / 2 ^ F.exponent q ≤ ((2 ^ (F.emax - 1 - F.exponent q).toNat : ℤ) : ℚ) := by
      have hcast : ((2 ^ (F.emax - 1 - F.exponent q).toNat : ℤ) : ℚ) =
          2 ^ (F.emax - 1 - F.exponent q) := by
        rw [Int.cast_pow, Int.cast_ofNat, ← zpow_natCast, Int.toNat_of_nonneg (by omega)]
      rw [hcast, div_le_iff₀ hpos, ← zpow_add₀ (by norm_num), sub_add_cancel]
      exact hsmall.le
    have hn := nearest_le hle
    have hmul : (nearest (q / 2 ^ F.exponent q) : ℚ) * 2 ^ F.exponent q ≤
        2 ^ (F.emax - 1 - F.exponent q).toNat * 2 ^ F.exponent q :=
      mul_le_mul_of_nonneg_right (by exact_mod_cast hn) hpos.le
    rw [← zpow_natCast (2 : ℚ), Int.toNat_of_nonneg (by omega), ← zpow_add₀ (by norm_num),
      sub_add_cancel] at hmul
    exact hmul.trans hhalf
  · -- in the highest binade the spacing is that of the largest number
    have hq0 : 0 < q := lt_of_lt_of_le (by positivity) (not_lt.mp hsmall)
    have hlog : Int.log 2 q = F.emax - 1 := by
      have hge : F.emax - 1 ≤ Int.log 2 q :=
        (Int.zpow_le_iff_le_log (by norm_num) hq0).mp (by exact_mod_cast not_lt.mp hsmall)
      have hlt : Int.log 2 q < F.emax :=
        (Int.lt_zpow_iff_log_lt (by norm_num) hq0).mp (by exact_mod_cast hq.trans_lt htop)
      omega
    have hexp : F.exponent q = F.emax - F.precision := by
      unfold Format.exponent
      omega
    have hle : q / 2 ^ F.exponent q ≤ ((2 ^ F.precision - 1 : ℤ) : ℚ) := by
      rw [div_le_iff₀ hpos, hexp]
      push_cast
      exact hq
    have hn := nearest_le hle
    rw [hexp] at hn ⊢
    exact mul_le_mul_of_nonneg_right (by exact_mod_cast hn) (by positivity)

theorem magnitude_finite (hq : q ≤ F.largest) :
    F.magnitude q = .finite (nearest (q / 2 ^ F.exponent q) * 2 ^ F.exponent q) :=
  if_pos (rounded_le hq)

theorem log_nonneg (hq : 1 ≤ q) : 0 ≤ Int.log 2 q :=
  (Int.zpow_le_iff_le_log (by norm_num) (by linarith)).mp (by simpa using hq)

theorem exponent_normal (hq : 1 ≤ q) : F.exponent q = Int.log 2 q + 1 - F.precision := by
  have hlog := log_nonneg hq
  have hwide := F.wide
  have hprecise := F.precise
  unfold Format.exponent
  omega

theorem power_le_near (hq : 1 ≤ q) : (2 : ℚ) ^ Int.log 2 q ≤ F.near q := by
  have hprecise := F.precise
  have hexp := exponent_normal (F := F) hq
  have hpos : (0 : ℚ) < 2 ^ F.exponent q := by positivity
  have hlow : (2 : ℚ) ^ Int.log 2 q ≤ q := by
    exact_mod_cast Int.zpow_log_le_self (b := 2) (by norm_num) (by linarith : 0 < q)
  have hgrid : (2 : ℚ) ^ Int.log 2 q = (2 ^ (F.precision - 1) : ℤ) * 2 ^ F.exponent q := by
    have hsum : Int.log 2 q = ((F.precision - 1 : ℕ) : ℤ) + F.exponent q := by omega
    push_cast
    rw [hsum, zpow_add₀ (by norm_num), zpow_natCast]
  have hge : (((2 ^ (F.precision - 1) : ℤ)) : ℚ) ≤ q / 2 ^ F.exponent q := by
    rw [le_div_iff₀ hpos, ← hgrid]
    exact hlow
  have hn : (((2 ^ (F.precision - 1) : ℤ)) : ℚ) ≤ nearest (q / 2 ^ F.exponent q) := by
    exact_mod_cast le_nearest hge
  rw [hgrid]
  exact mul_le_mul_of_nonneg_right hn hpos.le

theorem near_error (hq : 1 ≤ q) :
    q * (1 - F.unit) ≤ F.near q ∧ F.near q ≤ q * (1 + F.unit) ∧ 1 ≤ F.near q := by
  have hexp := exponent_normal (F := F) hq
  have hpos : (0 : ℚ) < 2 ^ F.exponent q := by positivity
  have hlow : (2 : ℚ) ^ Int.log 2 q ≤ q := by
    exact_mod_cast Int.zpow_log_le_self (b := 2) (by norm_num) (by linarith : 0 < q)
  have hspace : (2 : ℚ) ^ F.exponent q * (1 / 2) = 2 ^ Int.log 2 q * F.unit := by
    rw [hexp, Format.unit, add_sub_right_comm, zpow_add_one₀ (by norm_num), zpow_sub₀ (by norm_num),
      zpow_natCast]
    field_simp
  have hhalf : (2 : ℚ) ^ F.exponent q * (1 / 2) ≤ q * F.unit := by
    rw [hspace]
    exact mul_le_mul_of_nonneg_right hlow (unit_pos F).le
  have hdiv : q / 2 ^ F.exponent q * 2 ^ F.exponent q = q := div_mul_cancel₀ q hpos.ne'
  obtain ⟨hlo, hhi⟩ := nearest_near (q / 2 ^ F.exponent q)
  have hone := (one_le_zpow₀ (by norm_num) (log_nonneg hq)).trans (power_le_near (F := F) hq)
  refine ⟨?_, ?_, hone⟩
  · unfold Format.near
    nlinarith
  · unfold Format.near
    nlinarith

theorem rounded_le_one (hq : q ≤ 1) :
    (nearest (q / 2 ^ F.exponent q) : ℚ) * 2 ^ F.exponent q ≤ 1 := by
  have hpos : (0 : ℚ) < 2 ^ F.exponent q := by positivity
  have hwide := F.wide
  have hprecise := F.precise
  have hlog : Int.log 2 q ≤ 0 := by
    obtain hq0 | hq0 := le_or_gt q 0
    · rw [Int.log_of_right_le_zero _ hq0]
    · have hmono := Int.log_mono_right (b := 2) hq0 hq
      rwa [Int.log_one_right] at hmono
  have hexp : F.exponent q ≤ 0 := by
    unfold Format.exponent
    omega
  have hone : ((2 ^ (-F.exponent q).toNat : ℤ) : ℚ) * 2 ^ F.exponent q = 1 := by
    rw [Int.cast_pow, Int.cast_ofNat, ← zpow_natCast, Int.toNat_of_nonneg (by omega),
      ← zpow_add₀ (by norm_num), neg_add_cancel, zpow_zero]
  have hle : q / 2 ^ F.exponent q ≤ ((2 ^ (-F.exponent q).toNat : ℤ) : ℚ) := by
    rw [div_le_iff₀ hpos, hone]
    exact hq
  rw [← hone]
  exact mul_le_mul_of_nonneg_right (by exact_mod_cast nearest_le hle) hpos.le

theorem round_pos (hq : 0 ≤ q) : F.round q = F.magnitude q := if_neg (not_lt.mpr hq)

theorem round_zero (F : Format) : F.round 0 = .finite 0 := by
  have hlargest : 0 ≤ F.largest := le_trans (by positivity) (pow_top F).1
  have hzero : nearest 0 = 0 := by simp [nearest]
  rw [round_pos le_rfl, magnitude_finite hlargest, zero_div, hzero, Int.cast_zero, zero_mul]

theorem nearest_int (n : ℤ) : nearest n = n := by
  have hhalf : ((n : ℚ) - ⌊(n : ℚ)⌋) < 1 / 2 := by simp
  rw [nearest, if_pos hhalf, Int.floor_intCast]

theorem round_int {n : ℤ} (hn : |n| < 2 ^ F.precision) (hF : F.precision < F.emax) :
    F.round n = .finite n := by
  have hmag : ∀ m : ℤ, 0 < m → m < 2 ^ F.precision → F.magnitude m = .finite m := by
    intro m hpos hlt
    have hwide := F.wide
    have hprecise := F.precise
    have hlt' : (m : ℚ) < 2 ^ F.precision := by exact_mod_cast hlt
    have hpos' : (0 : ℚ) < m := by exact_mod_cast hpos
    have hlog : Int.log 2 (m : ℚ) < F.precision := by
      rw [← Int.lt_zpow_iff_log_lt (by norm_num) hpos', zpow_natCast]
      exact_mod_cast hlt'
    have hexp : F.exponent m ≤ 0 := by
      unfold Format.exponent
      omega
    have hinteger : (m : ℚ) / 2 ^ F.exponent m = ((m * 2 ^ (-F.exponent m).toNat : ℤ) : ℚ) := by
      push_cast
      rw [← zpow_natCast, Int.toNat_of_nonneg (by omega), zpow_neg, div_eq_mul_inv]
    have hle : (m : ℚ) ≤ F.largest := calc
      (m : ℚ) ≤ 2 ^ F.precision := hlt'.le
      _ = (2 : ℚ) ^ (F.precision : ℤ) := (zpow_natCast 2 _).symm
      _ ≤ 2 ^ (F.emax - 1) := zpow_le_zpow_right₀ (by norm_num) (by omega)
      _ ≤ F.largest := (pow_top F).1
    rw [magnitude_finite hle, hinteger, nearest_int, ← hinteger, div_mul_cancel₀ _ (by positivity)]
  obtain hneg | rfl | hpos := lt_trichotomy n 0
  · have hneg' : (n : ℚ) < 0 := by exact_mod_cast hneg
    have habs : -n < 2 ^ F.precision := (neg_le_abs n).trans_lt hn
    have hm := hmag (-n) (by omega) habs
    rw [Int.cast_neg] at hm
    rw [Format.round, if_pos hneg', hm, Number.neg, neg_neg]
  · rw [Int.cast_zero]
    exact round_zero F
  · have hpos' : (0 : ℚ) ≤ n := by exact_mod_cast hpos.le
    rw [round_pos hpos', hmag n hpos ((le_abs_self n).trans_lt hn)]

/-- The format `E` of the registers holds the products of numbers of the format `F`. -/
structure Wider (E F : Format) : Prop where
  precision : F.precision ≤ E.precision
  emax : 2 * F.emax + 8 ≤ E.emax

theorem extended_wider : Wider extended binary64 := ⟨by decide, by decide⟩

/-- What is rounded in a register and then in memory, however large it is. -/
def stored (E F : Format) (q : ℚ) : ℚ := F.near (E.near q)

section Registers

variable {E : Format} {x y : ℚ}

theorem near_nonneg (hq : 0 ≤ q) : 0 ≤ F.near q := by
  have hdiv : ((0 : ℤ) : ℚ) ≤ q / 2 ^ F.exponent q := by
    rw [Int.cast_zero]
    positivity
  have hn : (0 : ℚ) ≤ nearest (q / 2 ^ F.exponent q) := by exact_mod_cast le_nearest hdiv
  exact mul_nonneg hn (by positivity)

theorem near_le (hq : 0 ≤ q) : F.near q ≤ 2 * q + 1 := by
  obtain hsmall | hlarge := le_total q 1
  · exact (rounded_le_one hsmall).trans (by linarith)
  · obtain ⟨-, hhigh, -⟩ := near_error (F := F) hlarge
    have hunit := unit_le F
    refine hhigh.trans ?_
    nlinarith

theorem near_top (h : (2 : ℚ) ^ E.emax ≤ q) : 2 ^ E.emax ≤ F.near q := by
  have hwide := E.wide
  have hone : (1 : ℚ) ≤ 2 ^ E.emax := one_le_zpow₀ (by norm_num) (by omega)
  have hlog : E.emax ≤ Int.log 2 q :=
    (Int.zpow_le_iff_le_log (by norm_num) (by linarith)).mp (by exact_mod_cast h)
  exact (zpow_le_zpow_right₀ (by norm_num) hlog).trans (power_le_near (hone.trans h))

theorem top_le_near (h : F.largest < F.near q) : (2 : ℚ) ^ F.emax ≤ F.near q := by
  have hlarge : F.largest < q := not_le.mp fun hle => not_le.mpr h (rounded_le hle)
  by_cases htop : q < 2 ^ F.emax
  · have hwide := F.wide
    have hprecise := F.precise
    have hhalf := (pow_top F).1.trans hlarge.le
    have hq0 : 0 < q := lt_of_lt_of_le (by positivity) hhalf
    have hlog : Int.log 2 q = F.emax - 1 := by
      have hge : F.emax - 1 ≤ Int.log 2 q :=
        (Int.zpow_le_iff_le_log (by norm_num) hq0).mp (by exact_mod_cast hhalf)
      have hlt : Int.log 2 q < F.emax :=
        (Int.lt_zpow_iff_log_lt (by norm_num) hq0).mp (by exact_mod_cast htop)
      omega
    have hexp : F.exponent q = F.emax - F.precision := by
      unfold Format.exponent
      omega
    have hpos : (0 : ℚ) < 2 ^ (F.emax - F.precision) := by positivity
    have hmax : (2 : ℚ) ^ F.emax = 2 ^ F.precision * 2 ^ (F.emax - F.precision) := by
      rw [← zpow_natCast, ← zpow_add₀ (by norm_num)]
      congr 1
      omega
    rw [Format.near, hexp, Format.largest] at h
    have hn : ((2 ^ F.precision - 1 : ℤ) : ℚ) < nearest (q / 2 ^ (F.emax - F.precision)) := by
      push_cast
      exact lt_of_mul_lt_mul_right h hpos.le
    have hint : (2 ^ F.precision : ℤ) ≤ nearest (q / 2 ^ (F.emax - F.precision)) := by
      have hlt : (2 ^ F.precision - 1 : ℤ) < nearest (q / 2 ^ (F.emax - F.precision)) := by
        exact_mod_cast hn
      omega
    rw [Format.near, hexp, hmax]
    exact mul_le_mul_of_nonneg_right (by exact_mod_cast hint) hpos.le
  · exact near_top (not_lt.mp htop)

theorem largest_pos (F : Format) : 2 ≤ F.largest := by
  have hwide := F.wide
  refine le_trans ?_ (pow_top F).1
  calc (2 : ℚ) = 2 ^ (1 : ℤ) := by norm_num
    _ ≤ 2 ^ (F.emax - 1) := zpow_le_zpow_right₀ (by norm_num) (by omega)

theorem Wider.unit (h : Wider E F) : E.unit ≤ F.unit :=
  inv_anti₀ (by positivity) (pow_le_pow_right₀ (by norm_num) h.precision)

theorem Wider.room (h : Wider E F) : 100 * (F.largest * F.largest) ≤ E.largest := by
  have htop := (pow_top F).2
  have hpos := largest_pos F
  have hemax := h.emax
  have hsquare : F.largest * F.largest ≤ 2 ^ F.emax * 2 ^ F.emax :=
    mul_le_mul htop.le htop.le (by linarith) (by positivity)
  calc 100 * (F.largest * F.largest) ≤ 2 ^ (7 : ℤ) * (2 ^ F.emax * 2 ^ F.emax) :=
        mul_le_mul (by norm_num) hsquare (mul_nonneg (by linarith) (by linarith)) (by positivity)
    _ = 2 ^ (7 + (F.emax + F.emax)) := by
        rw [zpow_add₀ (by norm_num), zpow_add₀ (by norm_num)]
    _ ≤ 2 ^ (E.emax - 1) := zpow_le_zpow_right₀ (by norm_num) (by omega)
    _ ≤ E.largest := (pow_top E).1

theorem Wider.product (h : Wider E F) (hx : x ≤ F.largest) (hy0 : 0 ≤ y) (hy : y ≤ F.largest) :
    100 * (x * y) ≤ E.largest := by
  have hpos := largest_pos F
  have hmul : x * y ≤ F.largest * F.largest := mul_le_mul hx hy hy0 (by linarith)
  linarith [h.room]

theorem Wider.largest (h : Wider E F) : F.largest ≤ E.largest := by
  have hpos := largest_pos F
  have hproduct := h.product le_rfl (by norm_num : (0 : ℚ) ≤ 1) (by linarith)
  linarith

theorem Wider.near_le_largest (h : Wider E F) (hq : q ≤ F.largest) : E.near q ≤ F.largest := by
  have hprecision := h.precision
  have hemax := h.emax
  have hwide := F.wide
  have hpos : (0 : ℚ) < 2 ^ E.exponent q := by positivity
  have hexp : E.exponent q ≤ F.emax - F.precision := by
    have hlog : Int.log 2 q < F.emax := by
      obtain hq0 | hq0 := le_or_gt q 0
      · rw [Int.log_of_right_le_zero _ hq0]
        omega
      · exact (Int.lt_zpow_iff_log_lt (by norm_num) hq0).mp
          (by exact_mod_cast hq.trans_lt (pow_top F).2)
    unfold Format.exponent
    omega
  -- the largest number is a multiple of the spacing
  have hgrid : F.largest = ((2 ^ F.precision - 1) *
      2 ^ (F.emax - F.precision - E.exponent q).toNat : ℤ) * 2 ^ E.exponent q := by
    push_cast
    rw [← zpow_natCast (2 : ℚ) (Int.toNat _), Int.toNat_of_nonneg (by omega), mul_assoc,
      ← zpow_add₀ (by norm_num), sub_add_cancel, Format.largest]
  have hdiv := (div_le_iff₀ hpos).mpr (hgrid ▸ hq)
  rw [hgrid]
  exact mul_le_mul_of_nonneg_right (by exact_mod_cast nearest_le hdiv) hpos.le

theorem stored_nonneg (hq : 0 ≤ q) : 0 ≤ stored E F q := near_nonneg (near_nonneg hq)

theorem near_zero (F : Format) : F.near 0 = 0 := by
  have hzero : nearest 0 = 0 := by simp [nearest]
  rw [Format.near, zero_div, hzero, Int.cast_zero, zero_mul]

theorem stored_zero (E F : Format) : stored E F 0 = 0 := by
  rw [stored, near_zero, near_zero]

theorem stored_le_largest (h : Wider E F) (hq : q ≤ F.largest) : stored E F q ≤ F.largest :=
  rounded_le (h.near_le_largest hq)

/-- The number in memory where the rounding to the precision of the format gives `q`. -/
def Tracks (F : Format) (q : ℚ) : Number → Prop
  | .finite r => r = q ∧ 0 ≤ q ∧ q ≤ F.largest
  | .inf false => 2 ^ F.emax ≤ q
  | _ => False

variable {v w : Number}

theorem Tracks.inf_iff (h : Tracks F q v) : v = .inf false ↔ F.largest < q := by
  match v, h with
  | .finite _, h => exact ⟨fun hinf => Number.noConfusion hinf, fun hlt => absurd h.2.2 hlt.not_ge⟩
  | .inf false, h => exact ⟨fun _ => (pow_top F).2.trans_le h, fun _ => rfl⟩

theorem Tracks.finite_of_le (h : Tracks F q v) (hq : q ≤ F.largest) : v = .finite q := by
  match v, h with
  | .finite r, h => rw [h.1]
  | .inf false, h => exact absurd hq ((pow_top F).2.trans_le h).not_ge

theorem tracks_store (hq : 0 ≤ q) (hle : q ≤ E.largest) :
    Tracks F (stored E F q) (F.store (E.round q)) := by
  have hround : E.round q = .finite (E.near q) := by
    rw [round_pos hq, magnitude_finite hle]
    rfl
  have hstore : F.store (E.round q) = if stored E F q ≤ F.largest then .finite (stored E F q)
      else .inf false := by
    rw [hround, Format.store, round_pos (near_nonneg hq), Format.magnitude]
    rfl
  rw [hstore]
  by_cases hfits : stored E F q ≤ F.largest
  · rw [if_pos hfits]
    exact ⟨rfl, stored_nonneg hq, hfits⟩
  · rw [if_neg hfits]
    exact top_le_near (not_le.mp hfits)

theorem tracks_over (E : Format) (hq : (2 : ℚ) ^ F.emax ≤ q) :
    Tracks F (stored E F q) (.inf false) :=
  near_top (near_top hq)

theorem infinity_mul (hx : 1 ≤ x) : E.mul (.inf false) (.finite x) = .inf false := by
  have hneg : ¬x < 0 := by linarith
  simp [Format.mul, show x ≠ 0 by linarith, hneg]

theorem mul_infinity (hx : 1 ≤ x) : E.mul (.finite x) (.inf false) = .inf false := by
  have hneg : ¬x < 0 := by linarith
  simp [Format.mul, show x ≠ 0 by linarith, hneg]

theorem Tracks.mul (h : Wider E F) (hx : 1 ≤ x) (hy : 1 ≤ y) (hv : Tracks F x v)
    (hw : Tracks F y w) : Tracks F (stored E F (x * y)) (F.store (E.mul v w)) := by
  have hxy : x ≤ x * y := le_mul_of_one_le_right (by linarith) hy
  have hyx : y ≤ x * y := le_mul_of_one_le_left (by linarith) hx
  match v, w with
  | .finite _, .finite _ =>
    obtain ⟨rfl, hx0, hxl⟩ := hv
    obtain ⟨rfl, hy0, hyl⟩ := hw
    have hroom := h.product hxl hy0 hyl
    have hpos := mul_nonneg hx0 hy0
    exact tracks_store hpos (by linarith)
  | .inf false, .finite _ =>
    obtain ⟨rfl, -, -⟩ := hw
    rw [infinity_mul hy]
    exact tracks_over E (le_trans hv hxy)
  | .finite _, .inf false =>
    obtain ⟨rfl, -, -⟩ := hv
    rw [mul_infinity hx]
    exact tracks_over E (le_trans hw hyx)
  | .inf false, .inf false => exact tracks_over E (le_trans hv hxy)

theorem Tracks.mul_add {d : ℚ} (h : Wider E F) (hy : 1 ≤ y) (hyl : y ≤ F.largest) (hd : 0 ≤ d)
    (hdl : d ≤ F.largest) (hv : Tracks F x v) :
    Tracks F (stored E F (E.near (x * y) + d))
      (F.store (E.add (E.mul v (.finite y)) (.finite d))) := by
  have hpos := largest_pos F
  have hpos' := largest_pos E
  match v with
  | .finite r =>
    obtain ⟨heq, hx0, hxl⟩ := hv
    rw [heq]
    have hroom := h.product hxl (by linarith) hyl
    have hproduct := mul_nonneg hx0 (by linarith : 0 ≤ y)
    have hmul : E.mul (.finite x) (.finite y) = .finite (E.near (x * y)) := by
      rw [Format.mul, round_pos hproduct, magnitude_finite (by linarith)]
      rfl
    have hnear := near_le (F := E) hproduct
    have hnear0 := near_nonneg (F := E) hproduct
    have hdroom := h.product hdl (by norm_num : (0 : ℚ) ≤ 1) (by linarith)
    rw [hmul]
    exact tracks_store (by linarith) (by linarith)
  | .inf false =>
    have hx0 : 0 ≤ x := le_trans (by positivity) hv
    have hxy : x ≤ x * y := le_mul_of_one_le_right hx0 hy
    have hnear := near_top (F := E) (le_trans hv hxy)
    rw [infinity_mul hy]
    exact tracks_over E (by linarith)

end Registers

def Within (F : Format) (k : ℕ) (q x : ℚ) : Prop :=
  q * (1 - F.unit) ^ k ≤ x ∧ x ≤ q * (1 + F.unit) ^ k ∧ 1 ≤ x

variable {E : Format} {k l : ℕ} {p x y : ℚ}

theorem within_exact (hq : 1 ≤ q) : Within F 0 q q := by
  simp [Within, hq]

theorem Within.near (h : Within F k q x) (hunit : E.unit ≤ F.unit) :
    Within F (k + 1) q (E.near x) := by
  have hu := unit_pos E
  have hu' := unit_le F
  obtain ⟨hlo, hhi, hone⟩ := h
  obtain ⟨hnear, hnear', hone'⟩ := near_error (F := E) hone
  refine ⟨le_trans ?_ hnear, hnear'.trans ?_, hone'⟩
  · calc q * (1 - F.unit) ^ (k + 1) = q * (1 - F.unit) ^ k * (1 - F.unit) := by
          rw [pow_succ, mul_assoc]
      _ ≤ x * (1 - F.unit) := mul_le_mul_of_nonneg_right hlo (by linarith)
      _ ≤ x * (1 - E.unit) := mul_le_mul_of_nonneg_left (by linarith) (by linarith)
  · calc x * (1 + E.unit) ≤ x * (1 + F.unit) :=
          mul_le_mul_of_nonneg_left (by linarith) (by linarith)
      _ ≤ q * (1 + F.unit) ^ k * (1 + F.unit) := mul_le_mul_of_nonneg_right hhi (by linarith)
      _ = q * (1 + F.unit) ^ (k + 1) := by rw [pow_succ, mul_assoc]

theorem Within.stored (h : Wider E F) (hx : Within F k q x) : Within F (k + 2) q (stored E F x) :=
  (hx.near h.unit).near le_rfl

theorem Within.mul (hq : 1 ≤ q) (hp : 1 ≤ p) (hx : Within F k q x) (hy : Within F l p y) :
    Within F (k + l) (q * p) (x * y) := by
  have hu := unit_pos F
  have hu' := unit_le F
  obtain ⟨hx, hx', hx1⟩ := hx
  obtain ⟨hy, hy', hy1⟩ := hy
  have hpow : 0 ≤ p * (1 - F.unit) ^ l := mul_nonneg (by linarith) (pow_nonneg (by linarith) l)
  refine ⟨?_, ?_, one_le_mul_of_one_le_of_one_le hx1 hy1⟩
  · calc q * p * (1 - F.unit) ^ (k + l)
        = q * (1 - F.unit) ^ k * (p * (1 - F.unit) ^ l) := by rw [pow_add]; ring
      _ ≤ x * y := mul_le_mul hx hy hpow (by linarith)
  · calc x * y ≤ q * (1 + F.unit) ^ k * (p * (1 + F.unit) ^ l) :=
          mul_le_mul hx' hy' (by linarith) (by positivity)
      _ = q * p * (1 + F.unit) ^ (k + l) := by rw [pow_add]; ring

theorem Within.add {d : ℚ} (hd : 0 ≤ d) (hx : Within F k q x) : Within F k (q + d) (x + d) := by
  have hu := unit_pos F
  have hu' := unit_le F
  have hlow : (1 - F.unit) ^ k ≤ 1 := pow_le_one₀ (by linarith) (by linarith)
  have hhigh : 1 ≤ (1 + F.unit) ^ k := one_le_pow₀ (by linarith)
  obtain ⟨hlo, hhi, hone⟩ := hx
  refine ⟨?_, ?_, by linarith⟩
  · nlinarith
  · nlinarith

theorem error_le {δ : ℚ} (h : k * F.unit ≤ δ) :
    1 - δ ≤ (1 - F.unit) ^ k ∧ (1 - δ) * (1 + F.unit) ^ k ≤ 1 := by
  have hu := unit_pos F
  have hu' := unit_le F
  have hbernoulli := one_add_mul_le_pow (a := -F.unit) (by linarith) k
  have hlow : 1 - δ ≤ (1 - F.unit) ^ k := by
    rw [sub_eq_add_neg 1 F.unit]
    linarith
  refine ⟨hlow, ?_⟩
  calc (1 - δ) * (1 + F.unit) ^ k ≤ (1 - F.unit) ^ k * (1 + F.unit) ^ k :=
        mul_le_mul_of_nonneg_right hlow (by positivity)
    _ = (1 - F.unit ^ 2) ^ k := by rw [← mul_pow]; ring
    _ ≤ 1 := pow_le_one₀ (by nlinarith) (by nlinarith)

theorem Within.lt {δ B : ℚ} (h : Within F k q x) (hδ : k * F.unit ≤ δ) (hB : 0 ≤ B)
    (hq : q ≤ (1 - δ) * B) : x ≤ B := by
  have hu := unit_pos F
  calc x ≤ q * (1 + F.unit) ^ k := h.2.1
    _ ≤ (1 - δ) * B * (1 + F.unit) ^ k := mul_le_mul_of_nonneg_right hq (by positivity)
    _ = (1 - δ) * (1 + F.unit) ^ k * B := by ring
    _ ≤ 1 * B := mul_le_mul_of_nonneg_right (error_le hδ).2 hB
    _ = B := one_mul B

theorem Within.gt {δ B : ℚ} (h : Within F k q x) (hδ : k * F.unit ≤ δ) (hq0 : 0 ≤ q)
    (hq : B < (1 - δ) * q) : B < x := by
  have hle : (1 - δ) * q ≤ q * (1 - F.unit) ^ k := by
    rw [mul_comm]
    exact mul_le_mul_of_nonneg_left (error_le hδ).1 hq0
  exact hq.trans_le (hle.trans h.1)

@[simp] theorem Number.neg_twice (v : Number) : v.neg.neg = v := by
  cases v <;> simp [Number.neg]

theorem round_neg (F : Format) (q : ℚ) : F.round (-q) = (F.round q).neg := by
  obtain hq | rfl | hq := lt_trichotomy q 0
  · rw [Format.round, Format.round, if_pos hq, if_neg (by linarith), Number.neg_twice]
  · rw [neg_zero, round_zero]
    simp [Number.neg]
  · rw [Format.round, Format.round, if_neg (by linarith : ¬q < 0), if_pos (by linarith), neg_neg]

theorem inf_sign (s : Bool) (hq : q ≠ 0) : (s ^^ decide (-q < 0)) = !(s ^^ decide (q < 0)) := by
  obtain h | h := lt_or_gt_of_ne hq
  · cases s <;> simp [h, h.le]
  · cases s <;> simp [h, h.le]

theorem mul_neg_left (F : Format) (v w : Number) : F.mul v.neg w = (F.mul v w).neg := by
  match v, w with
  | .nan, _ => rfl
  | .inf _, .nan | .finite _, .nan => rfl
  | .inf s, .inf t => simp [Number.neg, Format.mul]
  | .inf s, .finite q =>
    by_cases hq : q = 0
    · simp [Number.neg, Format.mul, hq]
    · simp [Number.neg, Format.mul, hq]
  | .finite q, .inf s =>
    by_cases hq : q = 0
    · simp [Number.neg, Format.mul, hq]
    · simp only [Number.neg, Format.mul, neg_eq_zero, if_neg hq, inf_sign s hq]
  | .finite q, .finite r => simp only [Number.neg, Format.mul, neg_mul, round_neg]

theorem div_neg_left (F : Format) (v w : Number) : F.div v.neg w = (F.div v w).neg := by
  match v, w with
  | .nan, _ => rfl
  | .inf _, .nan | .finite _, .nan => rfl
  | .inf s, .inf t => rfl
  | .inf s, .finite q => simp [Number.neg, Format.div]
  | .finite q, .inf s => simp [Number.neg, Format.div]
  | .finite q, .finite r =>
    by_cases hr : r = 0
    · by_cases hq : q = 0
      · simp [Number.neg, Format.div, hr, hq]
      · have hsign := inf_sign false hq
        simp only [Bool.false_xor] at hsign
        simp only [Number.neg, Format.div, if_pos hr, neg_eq_zero, if_neg hq, hsign]
    · simp only [Number.neg, Format.div, if_neg hr, neg_div, round_neg]

end Jiauliyan.FloatingPoint
