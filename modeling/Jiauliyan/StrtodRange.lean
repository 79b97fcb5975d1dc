import Jiauliyan.Strtod
import Mathlib.Data.Nat.EvenOddRec
import Mathlib.Tactic.NormNum

namespace Jiauliyan.StrtodRange

open Jiauliyan.CString Jiauliyan.StringCompare Jiauliyan.FloatingPoint
open Jiauliyan.Format (isdigit int32)
open Jiauliyan.FormatArguments (Digit)
open Jiauliyan.StrtoulRange (unsigned)
open Jiauliyan.Strtod

variable (d : Decimal)

def negative : Sign → Bool
  | .minus => true
  | _ => false

def exponentValue : Option Exponent → ℤ
  | none => 0
  | some e =>
    if negative e.sign then -digitsValue ((e.first :: e.more).map (·.1))
    else digitsValue ((e.first :: e.more).map (·.1))

/-- The digits of the mantissa. -/
def digits : Chars := (d.whole ++ d.fraction.getD []).map (·.1)

def significand : ℕ := digitsValue (digits d)

def exponent : ℤ := exponentValue d.exponent - (d.fraction.getD []).length

/-- The number that a numeral denotes. -/
def value : ℚ :=
  if negative d.sign then -(significand d * 10 ^ exponent d) else significand d * 10 ^ exponent d

variable {d}

theorem sign_head (g : Sign) {c : UInt8} (h : isdigit c = true ∨ c = 46) (t : Chars) :
    decide ((g.text ++ c :: t).head? = some 45) = negative g := by
  obtain ⟨-, hminus, -⟩ := digit_or_point h
  cases g with
  | none => simp [Sign.text, negative, hminus]
  | plus => simp [Sign.text, negative]
  | minus => simp [Sign.text, negative]

theorem parts_neg (d : Decimal) : (parts d.text).neg = negative d.sign := by
  obtain ⟨c, t, hc, hstart⟩ := body_starts d
  have hsigned := text_signed d []
  rw [List.append_nil, List.append_nil, hc] at hsigned
  simp only [parts, hsigned]
  exact sign_head d.sign hstart t

theorem exponentText_stops (e : Option Exponent) :
    (exponentText e).takeWhile isdigit = [] ∧ (exponentText e).dropWhile isdigit = exponentText e ∧
      (exponentText e).head? ≠ some 46 := by
  cases e with
  | none => exact ⟨rfl, rfl, by simp [exponentText]⟩
  | some e =>
    obtain ⟨-, htake, hdrop, hhead⟩ := marked_text e []
    rw [List.append_nil] at htake hdrop hhead
    exact ⟨htake, hdrop, hhead⟩

theorem parts_digits (d : Decimal) :
    (parts d.text).whole ++ (parts d.text).fraction = digits d ∧
      (parts d.text).fraction.length = (d.fraction.getD []).length ∧
      (parts d.text).rest = exponentText d.exponent := by
  obtain ⟨htake, hdrop, hhead⟩ := exponentText_stops d.exponent
  cases hf : d.fraction with
  | none =>
    have hplain := parts_plain hf []
    rw [List.append_nil, List.append_nil, htake, hdrop] at hplain
    obtain ⟨hwhole, hrest, -⟩ := hplain
    obtain ⟨hfraction, hrest⟩ := hrest hhead
    rw [hwhole, hfraction, hrest, digits, hf]
    simp
  | some ds =>
    have hpointed := parts_pointed hf []
    rw [List.append_nil, List.append_nil, htake, hdrop] at hpointed
    obtain ⟨hwhole, hfraction, hrest⟩ := hpointed
    rw [hwhole, hfraction, hrest, digits, hf]
    simp

theorem written_text (e : Option Exponent) : written (exponentText e) = exponentValue e := by
  cases e with
  | none => rfl
  | some e =>
    obtain ⟨hmarked, -⟩ := marked_text e []
    obtain ⟨hdigits, -⟩ := exponent_digits e []
    have htail : e.text.tail = e.sign.text ++ e.first.1 :: e.more.map (·.1) := rfl
    have hsign := sign_head e.sign (.inl e.first.2) (e.more.map (·.1))
    rw [List.append_nil] at hmarked hdigits
    rw [List.takeWhile_nil, List.append_nil] at hdigits
    rw [exponentText, written, if_pos hmarked, hdigits, htail, exponentValue, ← hsign]
    by_cases h : (e.sign.text ++ e.first.1 :: e.more.map (·.1)).head? = some 45
    · rw [if_pos h, if_pos (decide_eq_true h)]
    · rw [if_neg h, if_neg fun hd => h (of_decide_eq_true hd)]

theorem parts_exponent (d : Decimal) : (parts d.text).exponent = exponent d := by
  obtain ⟨-, hlength, hrest⟩ := parts_digits d
  rw [Parts.exponent, hrest, hlength, written_text]
  rfl

abbrev kept (q : ℚ) : ℚ := stored extended binary64 q

/-- The mantissa behind the number `m`, rounded at each digit. -/
def roundedMantissa (m : ℚ) (ds : Chars) : ℚ :=
  ds.foldl (fun m c => kept (extended.near (m * 10) + (c.toNat - 48 : ℕ))) m

/-- The product of `m` with the power `n` of `p`, rounded at each step. -/
def roundedProduct (n : ℕ) (m p : ℚ) : ℚ :=
  if n = 0 then m
  else roundedProduct (n / 2) (if n % 2 = 1 then kept (m * p) else m) (kept (p * p))
termination_by n

theorem roundedProduct_zero (m p : ℚ) : roundedProduct 0 m p = m := by
  rw [roundedProduct, if_pos rfl]

theorem roundedProduct_even (n : ℕ) (m p : ℚ) :
    roundedProduct (2 * n) m p = roundedProduct n m (kept (p * p)) := by
  obtain rfl | hn := Nat.eq_zero_or_pos n
  · rw [Nat.mul_zero, roundedProduct_zero, roundedProduct_zero]
  · rw [roundedProduct, if_neg (by omega), if_neg (by omega),
      Nat.mul_div_cancel_left n (by omega)]

theorem roundedProduct_odd (n : ℕ) (m p : ℚ) :
    roundedProduct (2 * n + 1) m p = roundedProduct n (kept (m * p)) (kept (p * p)) := by
  have hhalf : (2 * n + 1) / 2 = n := by omega
  rw [roundedProduct, if_neg (by omega), if_pos (by omega), hhalf]

theorem kept_zero : kept 0 = 0 := stored_zero extended binary64

theorem roundedProduct_of_zero (n : ℕ) (p : ℚ) : roundedProduct n 0 p = 0 := by
  induction n using Nat.evenOddRec generalizing p with
  | h0 => exact roundedProduct_zero 0 p
  | h_even n ih => rw [roundedProduct_even, ih]
  | h_odd n ih => rw [roundedProduct_odd, zero_mul, kept_zero, ih]

theorem one_le_kept {q : ℚ} (hq : 1 ≤ q) : 1 ≤ kept q :=
  (Within.stored extended_wider (within_exact (F := binary64) hq)).2.2

theorem one_le_mul_kept {x y : ℚ} (hx : 1 ≤ x) (hy : 1 ≤ y) : 1 ≤ kept (x * y) :=
  one_le_kept (one_le_mul_of_one_le_of_one_le hx hy)

section Scaling

variable {negative : Bool} {n k l : ℕ} {q p P : ℚ} {v p10 : Number}

theorem scale_none (negative : Bool) (v p10 : Number) : scale negative 0 v p10 = v := by
  rw [scale, if_pos rfl]

theorem scale_even (negative : Bool) (m : ℕ) (v p10 : Number) :
    scale negative (2 * m) v p10 =
      scale negative m v (binary64.store (extended.mul p10 p10)) := by
  obtain rfl | hm := Nat.eq_zero_or_pos m
  · rw [Nat.mul_zero, scale_none, scale_none]
  · rw [scale, if_neg (by omega), if_neg (by omega), Nat.mul_div_cancel_left m (by omega)]

theorem scale_odd (negative : Bool) (m : ℕ) (v p10 : Number) :
    scale negative (2 * m + 1) v p10 =
      scale negative m
        (binary64.store (if negative then extended.div v p10 else extended.mul v p10))
        (binary64.store (extended.mul p10 p10)) := by
  have hhalf : (2 * m + 1) / 2 = m := by omega
  rw [scale, if_neg (by omega), if_pos (by omega), hhalf]

theorem store_neg (v : Number) : binary64.store v.neg = (binary64.store v).neg := by
  cases v with
  | nan => rfl
  | inf s => rfl
  | finite q => exact round_neg binary64 q

theorem scale_neg (negative : Bool) (n : ℕ) (v p10 : Number) :
    scale negative n v.neg p10 = (scale negative n v p10).neg := by
  induction n using Nat.evenOddRec generalizing v p10 with
  | h0 => rw [scale_none, scale_none]
  | h_even m ih => rw [scale_even, scale_even, ih]
  | h_odd m ih =>
    rw [scale_odd, scale_odd, ← ih]
    cases negative with
    | true => rw [if_pos rfl, if_pos rfl, div_neg_left, store_neg]
    | false => rw [if_neg Bool.false_ne_true, if_neg Bool.false_ne_true, mul_neg_left, store_neg]

theorem square (hp : 1 ≤ p) (h : Tracks binary64 p p10) :
    Tracks binary64 (kept (p * p)) (binary64.store (extended.mul p10 p10)) :=
  h.mul extended_wider hp hp h

theorem scale_keeps (negative : Bool) (Kept : Number → Prop)
    (hstep : ∀ {p : ℚ} {v p10 : Number}, 1 ≤ p → Tracks binary64 p p10 → Kept v →
      Kept (binary64.store (if negative then extended.div v p10 else extended.mul v p10)))
    (hp : 1 ≤ p) (h : Tracks binary64 p p10) (hv : Kept v) : Kept (scale negative n v p10) := by
  induction n using Nat.evenOddRec generalizing p v p10 with
  | h0 => rwa [scale_none]
  | h_even m ih =>
    rw [scale_even]
    exact ih (one_le_mul_kept hp hp) (square hp h) hv
  | h_odd m ih =>
    rw [scale_odd]
    exact ih (one_le_mul_kept hp hp) (square hp h) (hstep hp h hv)

theorem scale_up (hq : 1 ≤ q) (hp : 1 ≤ p) (hv : Tracks binary64 q v)
    (h : Tracks binary64 p p10) :
    Tracks binary64 (roundedProduct n q p) (scale false n v p10) := by
  induction n using Nat.evenOddRec generalizing q p v p10 with
  | h0 => rwa [scale_none, roundedProduct_zero]
  | h_even m ih =>
    rw [scale_even, roundedProduct_even]
    exact ih hq (one_le_mul_kept hp hp) hv (square hp h)
  | h_odd m ih =>
    rw [scale_odd, roundedProduct_odd, if_neg Bool.false_ne_true]
    exact ih (one_le_mul_kept hq hp) (one_le_mul_kept hp hp) (hv.mul extended_wider hq hp h)
      (square hp h)

theorem scale_up_zero (hp : 1 ≤ p) (h : Tracks binary64 p p10) :
    scale false n (.finite 0) p10 = .finite 0 ∨ scale false n (.finite 0) p10 = .nan := by
  refine scale_keeps false (fun v => v = .finite 0 ∨ v = .nan) ?_ hp h (.inl rfl)
  rintro p v p10 - h (rfl | rfl)
  · rw [if_neg Bool.false_ne_true]
    match p10, h with
    | .finite x, _ =>
      left
      rw [Format.mul, zero_mul, round_zero, Format.store, round_zero]
    | .inf false, _ => exact .inr rfl
  · exact .inr rfl

theorem infinity_div {x : ℚ} (h : 1 ≤ x) : extended.div (.inf false) (.finite x) = .inf false := by
  have hpos : 0 < x := by linarith
  rw [Format.div, decide_eq_false (not_lt.mpr hpos.le)]
  rfl

/-- A double that is not below zero. -/
def Ordinary (v : Number) : Prop := ∃ x, v = .finite x ∧ 0 ≤ x ∧ x ≤ binary64.largest

theorem Ordinary.div (hv : Ordinary v) (hp : 1 ≤ p) (h : Tracks binary64 p p10) :
    Ordinary (binary64.store (extended.div v p10)) := by
  obtain ⟨x, rfl, h0, hx⟩ := hv
  match p10, h with
  | .finite y, h =>
    have hy : 1 ≤ y := h.1 ▸ hp
    have hpos : 0 < y := by linarith
    have hle : x / y ≤ binary64.largest := (div_le_self h0 hy).trans hx
    have hdiv0 : 0 ≤ x / y := div_nonneg h0 hpos.le
    have hstored := stored_le_largest extended_wider hle
    have hstore := (tracks_store (F := binary64) hdiv0
      (hle.trans extended_wider.largest)).finite_of_le hstored
    rw [Format.div, if_neg hpos.ne', hstore]
    exact ⟨_, rfl, stored_nonneg hdiv0, hstored⟩
  | .inf false, _ =>
    have hzero : binary64.store (extended.div (.finite x) (.inf false)) = .finite 0 :=
      round_zero binary64
    rw [hzero]
    exact ⟨0, rfl, le_rfl, h0.trans hx⟩

theorem scale_down (hv : Ordinary v) (hp : 1 ≤ p) (h : Tracks binary64 p p10) :
    Ordinary (scale true n v p10) := by
  refine scale_keeps true Ordinary ?_ hp h hv
  intro p v p10 hp h hv
  rw [if_pos rfl]
  exact hv.div hp h

end Scaling

def margin : ℚ := 1 / 2 ^ 41

theorem roundings_le {k : ℕ} (h : k ≤ 4096) : k * binary64.unit ≤ margin := by
  have hk : (k : ℚ) ≤ 4096 := by exact_mod_cast h
  have hunit : binary64.unit = 1 / 2 ^ 53 := by norm_num [Format.unit, binary64]
  rw [hunit, margin]
  linarith

theorem largest_eq : binary64.largest = (2 ^ 53 - 1) * ((2 ^ 97) ^ 10 * 2) := by
  have hpower : (2 : ℚ) ^ (binary64.emax - binary64.precision) = (2 ^ 97) ^ 10 * 2 := by
    rw [← pow_mul, ← pow_succ]
    exact zpow_natCast 2 971
  rw [Format.largest, hpower]
  rfl

theorem largest_nonneg : 0 ≤ binary64.largest := le_trans (by positivity) (pow_top binary64).1

theorem ten_tracks : Tracks binary64 10 (.finite 10) :=
  ⟨rfl, by norm_num, by rw [largest_eq]; norm_num⟩

theorem ten_within : Within binary64 0 10 10 := within_exact (by norm_num)

theorem power_low : (10 : ℚ) ^ 2 ^ 8 ≤ (1 - margin) * binary64.largest := by
  rw [largest_eq, margin]
  norm_num

theorem power_high : binary64.largest < (1 - margin) * 10 ^ 2 ^ 9 := by
  have hpower : (10 : ℚ) ^ 2 ^ 9 = (10 ^ 128) ^ 4 := (pow_mul 10 128 4)
  rw [hpower, largest_eq, margin]
  norm_num

structure Power (j l : ℕ) (P p : ℚ) (p10 : Number) : Prop where
  one : 1 ≤ P
  within : Within binary64 l P p
  tracks : Tracks binary64 p p10
  roundings : (l + 2) * 2 ^ j ≤ 4096

section Powers

variable {j n l : ℕ} {P p : ℚ} {p10 : Number}

theorem Power.ten (hj : j ≤ 9) : Power j 0 10 10 (.finite 10) where
  one := by norm_num
  within := ten_within
  tracks := ten_tracks
  roundings := by
    have hle : 2 ^ j ≤ 2 ^ 9 := Nat.pow_le_pow_right (by norm_num) hj
    omega

theorem Power.few (h : Power j l P p p10) : l ≤ 4096 := by
  have hle : l + 2 ≤ (l + 2) * 2 ^ j := Nat.le_mul_of_pos_right _ (by positivity)
  have hl := h.roundings
  omega

theorem Power.square (h : Power (j + 1) l P p p10) :
    Power j (l + l + 2) (P * P) (kept (p * p)) (binary64.store (extended.mul p10 p10)) where
  one := one_le_mul_of_one_le_of_one_le h.one h.one
  within := (h.within.mul h.one h.one h.within).stored extended_wider
  tracks := StrtodRange.square h.within.2.2 h.tracks
  roundings := by
    have hl := h.roundings
    have hcount : (l + 2) * 2 ^ (j + 1) = (l + l + 2 + 2) * 2 ^ j := by ring
    omega

theorem square_power (P : ℚ) (j : ℕ) : P ^ 2 ^ (j + 1) = (P * P) ^ 2 ^ j := by
  rw [← pow_two, ← pow_mul, pow_succ' 2 j]

theorem Power.finite (h : Power j l P p p10)
    (hpower : P ^ 2 ^ j ≤ (1 - margin) * binary64.largest) :
    binary64.store (extended.div (.inf false) p10) = .inf false := by
  have hle : P ≤ P ^ 2 ^ j := le_self_pow₀ h.one (by positivity)
  have hp := h.within.lt (roundings_le h.few) largest_nonneg (hle.trans hpower)
  rw [h.tracks.finite_of_le hp, infinity_div h.within.2.2]
  rfl

theorem Power.stays (h : Power j l P p p10) (hn : n < 2 ^ (j + 1))
    (hpower : P ^ 2 ^ j ≤ (1 - margin) * binary64.largest) :
    scale true n (.inf false) p10 = .inf false := by
  induction j generalizing n l P p p10 with
  | zero =>
    obtain rfl | rfl : n = 0 ∨ n = 2 * 0 + 1 := by omega
    · exact scale_none ..
    · rw [scale_odd, if_pos rfl, h.finite hpower, scale_none]
  | succ j ih =>
    have hrest := fun m hm => ih (n := m) h.square hm (square_power P j ▸ hpower)
    rw [pow_succ] at hn
    obtain ⟨m, rfl | rfl⟩ := Nat.even_or_odd' n
    · rw [scale_even]
      exact hrest m (by omega)
    · rw [scale_odd, if_pos rfl, h.finite hpower]
      exact hrest m (by omega)

theorem Power.vanishes (h : Power j l P p p10) (hlow : 2 ^ j ≤ n) (hhigh : n < 2 ^ (j + 1))
    (hpower : binary64.largest < (1 - margin) * P ^ 2 ^ j) (v : Number) :
    scale true n v p10 = .finite 0 ∨ scale true n v p10 = .nan := by
  induction j generalizing n l P p p10 v with
  | zero =>
    have hover := h.within.gt (roundings_le h.few) (by linarith [h.one]) (by simpa using hpower)
    obtain rfl : n = 2 * 0 + 1 := by omega
    obtain rfl := h.tracks.inf_iff.mpr hover
    rw [scale_odd, if_pos rfl, scale_none]
    cases v with
    | nan => exact .inr rfl
    | inf _ => exact .inr rfl
    | finite _ => exact .inl (round_zero binary64)
  | succ j ih =>
    have hrest := fun m hm hm' => ih (n := m) h.square hm hm' (square_power P j ▸ hpower)
    rw [pow_succ 2 j] at hlow
    rw [pow_succ 2 (j + 1)] at hhigh
    obtain ⟨m, rfl | rfl⟩ := Nat.even_or_odd' n
    · rw [scale_even]
      exact hrest m (by omega) (by omega) v
    · rw [scale_odd]
      exact hrest m (by omega) (by omega) _

end Powers

section Mantissa

variable {n : ℕ} {m : ℚ} {ds : Chars} {N : Number}

def extend (n : ℕ) (ds : Chars) : ℕ := ds.foldl (fun n c => n * 10 + (c.toNat - 48)) n

theorem digitsValue_eq (ds : Chars) : digitsValue ds = extend 0 ds := by
  rw [digitsValue, Numeral.value, List.foldl_map, extend]

theorem extend_cons (n : ℕ) (c : UInt8) (ds : Chars) :
    extend n (c :: ds) = extend (n * 10 + (c.toNat - 48)) ds := by
  rw [extend, List.foldl_cons, extend]

theorem horner_tracks (h : Tracks binary64 m N) :
    Tracks binary64 (roundedMantissa m ds) (horner N ds) := by
  induction ds generalizing m N with
  | nil => exact h
  | cons c ds ih =>
    have hdigit : ((c.toNat - 48 : ℕ) : ℚ) ≤ binary64.largest := by
      have hc : ((c.toNat - 48 : ℕ) : ℚ) ≤ 255 := by
        have hbyte := c.toNat_lt
        exact_mod_cast (by omega : c.toNat - 48 ≤ 255)
      refine hc.trans ?_
      rw [largest_eq]
      norm_num
    exact ih (h.mul_add extended_wider (by norm_num) ten_tracks.2.2 (Nat.cast_nonneg _) hdigit)

theorem roundedMantissa_within {k : ℕ} (hn : 1 ≤ n) (h : Within binary64 k n m) (ds : Chars) :
    Within binary64 (k + 3 * ds.length) (extend n ds : ℕ) (roundedMantissa m ds) := by
  induction ds generalizing n k m with
  | nil => exact h
  | cons c ds ih =>
    have hn' : (1 : ℚ) ≤ n := by exact_mod_cast hn
    have hmul := (h.mul hn' (by norm_num) ten_within).near extended_wider.unit
    have hadd := (hmul.add (d := ((c.toNat - 48 : ℕ) : ℚ)) (Nat.cast_nonneg _)).stored
      extended_wider
    have hcast : (n : ℚ) * 10 + ((c.toNat - 48 : ℕ) : ℚ) = ((n * 10 + (c.toNat - 48) : ℕ) : ℚ) := by
      push_cast
      rfl
    have hcount : k + 3 * (c :: ds).length = k + 0 + 1 + 2 + 3 * ds.length := by
      rw [List.length_cons]
      ring
    rw [hcast] at hadd
    rw [extend_cons, hcount]
    exact ih (by omega) hadd

theorem roundedMantissa_leading (ds : Chars) :
    (extend 0 ds = 0 ∧ roundedMantissa 0 ds = 0) ∨
      ∃ n t m, 1 ≤ n ∧ Within binary64 2 (n : ℕ) m ∧ extend 0 ds = extend n t ∧
        roundedMantissa 0 ds = roundedMantissa m t := by
  induction ds with
  | nil => exact .inl ⟨rfl, rfl⟩
  | cons c ds ih =>
    have hrounded : roundedMantissa 0 (c :: ds) =
        roundedMantissa (kept (c.toNat - 48 : ℕ)) ds := by
      have hnear : extended.near 0 = 0 := near_zero extended
      rw [roundedMantissa, List.foldl_cons, zero_mul, hnear, zero_add, roundedMantissa]
    rw [extend_cons, hrounded, Nat.zero_mul, Nat.zero_add]
    obtain hc | hc := Nat.eq_zero_or_pos (c.toNat - 48)
    · rw [hc, Nat.cast_zero, kept_zero]
      exact ih
    · have hone : (1 : ℚ) ≤ (c.toNat - 48 : ℕ) := by exact_mod_cast hc
      exact .inr ⟨_, ds, _, hc, (within_exact hone).stored extended_wider, rfl, rfl⟩

theorem le_roundedMantissa (hm : 1 ≤ m) (ds : Chars) : m ≤ roundedMantissa m ds := by
  induction ds generalizing m with
  | nil => exact le_rfl
  | cons c ds ih =>
    have hnear := within_exact (F := binary64) (by linarith : 1 ≤ m * 10)
    have hdigit : (0 : ℚ) ≤ (c.toNat - 48 : ℕ) := Nat.cast_nonneg _
    have hstep := ((hnear.near extended_wider.unit).add hdigit).stored extended_wider
    have hle := hstep.gt (roundings_le (by norm_num)) (by linarith) (B := m) (by
      rw [margin]
      linarith)
    exact hle.le.trans (ih hstep.2.2)

end Mantissa

section Result

variable {ds : Chars} {e : ℤ}

/-- The number that the digits and the exponent make. -/
def result (ds : Chars) (e : ℤ) : Number :=
  scale (e < 0) e.natAbs (horner (.finite 0) ds) (.finite 10)

/-- The mantissa, multiplied by a power of ten if the exponent is positive, with every rounding
on the way. -/
def rounded (ds : Chars) (e : ℤ) : ℚ := roundedProduct e.toNat (roundedMantissa 0 ds) 10

/-- The rounded number is a double, or the mantissa is divided by 10^512. -/
def Fits (ds : Chars) (e : ℤ) : Prop := e < -511 ∨ rounded ds e ≤ binary64.largest

theorem rounded_down (he : e < 0) : rounded ds e = roundedMantissa 0 ds := by
  rw [rounded, Int.toNat_of_nonpos he.le, roundedProduct_zero]

theorem result_down (he : e < 0) :
    result ds e = scale true e.natAbs (horner (.finite 0) ds) (.finite 10) := by
  rw [result, decide_eq_true he]

theorem result_up (he : 0 ≤ e) :
    result ds e = scale false e.toNat (horner (.finite 0) ds) (.finite 10) := by
  have hn : e.natAbs = e.toNat := by omega
  rw [result, decide_eq_false (not_lt.mpr he), hn]

theorem mantissa_tracks (ds : Chars) :
    Tracks binary64 (roundedMantissa 0 ds) (horner (.finite 0) ds) :=
  horner_tracks ⟨rfl, le_rfl, largest_nonneg⟩

theorem result_deep (ds : Chars) (hlow : -1021 ≤ e) (he : e < -511) :
    result ds e = .finite 0 ∨ result ds e = .nan := by
  rw [result_down (by omega)]
  exact (Power.ten le_rfl).vanishes (by omega) (by omega) power_high _

theorem result_divided (ds : Chars) (hlow : -511 ≤ e) (he : e < 0) :
    (rounded ds e ≤ binary64.largest ∧ Ordinary (result ds e)) ∨
      (binary64.largest < rounded ds e ∧ result ds e = .inf false) := by
  have htracks := mantissa_tracks ds
  rw [result_down he, rounded_down he]
  match horner (.finite 0) ds, htracks with
  | .finite x, h =>
    obtain ⟨rfl, h0, hle⟩ := h
    exact .inl ⟨hle, scale_down ⟨_, rfl, h0, hle⟩ (by norm_num) ten_tracks⟩
  | .inf false, h =>
    refine .inr ⟨Tracks.inf_iff h |>.mp rfl, ?_⟩
    exact (Power.ten (j := 8) (by norm_num)).stays (by omega) power_low

theorem result_multiplied (ds : Chars) (he : 0 ≤ e) :
    (rounded ds e = 0 ∧ (result ds e = .finite 0 ∨ result ds e = .nan)) ∨
      Tracks binary64 (rounded ds e) (result ds e) := by
  have htracks := mantissa_tracks ds
  rw [result_up he, rounded]
  obtain ⟨-, hzero⟩ | ⟨n, t, m, hn, hm, -, hrounded⟩ := roundedMantissa_leading ds
  · rw [hzero] at htracks ⊢
    have hfinite := htracks.finite_of_le largest_nonneg
    rw [hfinite, roundedProduct_of_zero]
    exact .inl ⟨rfl, scale_up_zero (by norm_num) ten_tracks⟩
  · have hone : 1 ≤ roundedMantissa 0 ds := by
      rw [hrounded]
      exact hm.2.2.trans (le_roundedMantissa hm.2.2 t)
    exact .inr (scale_up hone (by norm_num) htracks ten_tracks)

theorem no_infinity {v : Number} (h : v = .finite 0 ∨ v = .nan) (s : Bool) : v ≠ .inf s := by
  obtain rfl | rfl := h
  · exact Number.noConfusion
  · exact Number.noConfusion

theorem result_cases (ds : Chars) (hlow : -1021 ≤ e) :
    (Fits ds e ∧ ∀ s, result ds e ≠ .inf s) ∨ (¬Fits ds e ∧ result ds e = .inf false) := by
  have hover : -511 ≤ e → binary64.largest < rounded ds e → ¬Fits ds e := by
    rintro he hlarge (hdeep | hle)
    · omega
    · exact absurd hle hlarge.not_ge
  obtain hdeep | he := lt_or_ge e (-511)
  · exact .inl ⟨.inl hdeep, no_infinity (result_deep ds hlow hdeep)⟩
  · obtain hneg | hpos := lt_or_ge e 0
    · obtain ⟨hle, x, hx, -⟩ | ⟨hlarge, hinf⟩ := result_divided ds he hneg
      · refine .inl ⟨.inr hle, fun s => ?_⟩
        rw [hx]
        exact Number.noConfusion
      · exact .inr ⟨hover he hlarge, hinf⟩
    · obtain ⟨hzero, hresult⟩ | htracks := result_multiplied ds hpos
      · exact .inl ⟨.inr (hzero ▸ largest_nonneg), no_infinity hresult⟩
      · match result ds e, htracks with
        | .finite _, h => exact .inl ⟨.inr h.2.2, fun _ => Number.noConfusion⟩
        | .inf false, h => exact .inr ⟨hover he (Tracks.inf_iff h |>.mp rfl), rfl⟩

end Result

section Distance

variable {n k l : ℕ} {q p m P : ℚ} {ds : Chars} {e : ℤ}

theorem roundedProduct_within (hq : 1 ≤ q) (hP : 1 ≤ P) (hm : Within binary64 k q m)
    (hp : Within binary64 l P p) :
    Within binary64 (k + n * (l + 2)) (q * P ^ n) (roundedProduct n m p) := by
  induction n using Nat.evenOddRec generalizing k l q P m p with
  | h0 => simpa [roundedProduct_zero] using hm
  | h_even n ih =>
    have hcount : k + 2 * n * (l + 2) = k + n * (l + l + 2 + 2) := by ring
    have hpower : q * P ^ (2 * n) = q * (P * P) ^ n := by ring
    rw [roundedProduct_even, hcount, hpower]
    exact ih hq (one_le_mul_of_one_le_of_one_le hP hP) hm
      ((hp.mul hP hP hp).stored extended_wider)
  | h_odd n ih =>
    have hcount : k + (2 * n + 1) * (l + 2) = k + l + 2 + n * (l + l + 2 + 2) := by ring
    have hpower : q * P ^ (2 * n + 1) = q * P * (P * P) ^ n := by ring
    rw [roundedProduct_odd, hcount, hpower]
    exact ih (one_le_mul_of_one_le_of_one_le hq hP) (one_le_mul_of_one_le_of_one_le hP hP)
      ((hm.mul hq hP hp).stored extended_wider) ((hp.mul hP hP hp).stored extended_wider)

theorem le_kept_mul (hm : 1 ≤ m) (hp : 2 ≤ p) : m ≤ kept (m * p) := by
  have hone := one_le_mul_of_one_le_of_one_le hm (by linarith : 1 ≤ p)
  have hstep := (within_exact (F := binary64) hone).stored extended_wider
  have hle : m < (1 - margin) * (m * p) := by
    rw [margin]
    nlinarith
  exact (hstep.gt (roundings_le (by norm_num)) (by linarith) hle).le

theorem le_roundedProduct (hm : 1 ≤ m) (hp : 2 ≤ p) : m ≤ roundedProduct n m p := by
  induction n using Nat.evenOddRec generalizing m p with
  | h0 => rw [roundedProduct_zero]
  | h_even n ih =>
    rw [roundedProduct_even]
    exact ih hm (hp.trans (le_kept_mul (by linarith) hp))
  | h_odd n ih =>
    have hle := le_kept_mul hm hp
    rw [roundedProduct_odd]
    exact hle.trans (ih (hm.trans hle) (hp.trans (le_kept_mul (by linarith) hp)))

theorem le_extend (n : ℕ) (ds : Chars) : n * 10 ^ ds.length ≤ extend n ds := by
  induction ds generalizing n with
  | nil => exact (Nat.mul_one n).le
  | cons c ds ih =>
    have hle := ih (n * 10 + (c.toNat - 48))
    rw [extend_cons, List.length_cons]
    calc n * 10 ^ (ds.length + 1) = n * 10 * 10 ^ ds.length := by ring
      _ ≤ (n * 10 + (c.toNat - 48)) * 10 ^ ds.length := Nat.mul_le_mul_right _ (by omega)
      _ ≤ extend (n * 10 + (c.toNat - 48)) ds := hle

theorem power_le_extend {j : ℕ} (hn : 1 ≤ n) (hj : j ≤ ds.length) :
    (10 : ℚ) ^ j ≤ (extend n ds : ℕ) := by
  have hle : 10 ^ j ≤ extend n ds := calc
    10 ^ j ≤ 10 ^ ds.length := Nat.pow_le_pow_right (by norm_num) hj
    _ ≤ n * 10 ^ ds.length := Nat.le_mul_of_pos_left _ hn
    _ ≤ extend n ds := le_extend n ds
  exact_mod_cast hle

theorem largest_lt_power : binary64.largest < (1 - margin) * 10 ^ 309 := by
  have hpower : (10 : ℚ) ^ 309 = (10 ^ 103) ^ 3 := (pow_mul 10 103 3)
  rw [hpower, largest_eq, margin]
  norm_num

theorem margin_bounds : 0 < margin ∧ margin < 1 := by
  norm_num [margin]

theorem rounded_within (hn : 1 ≤ n) (hm : Within binary64 2 n m) (hlength : ds.length ≤ 310)
    (he : e ≤ 1024) : ∃ k ≤ 4096, Within binary64 k (extend n ds * 10 ^ e.toNat)
      (roundedProduct e.toNat (roundedMantissa m ds) 10) := by
  have hone : (1 : ℚ) ≤ (extend n ds : ℕ) := by
    simpa using power_le_extend (j := 0) hn (Nat.zero_le ds.length)
  refine ⟨2 + 3 * ds.length + e.toNat * (0 + 2), by omega, ?_⟩
  exact roundedProduct_within hone (by norm_num) (roundedMantissa_within hn hm ds) ten_within

theorem long_over (hn : 1 ≤ n) (hm : Within binary64 2 n m) (hlong : 310 < ds.length) :
    binary64.largest < roundedMantissa m ds := by
  have htake : (ds.take 310).length = 310 := List.length_take_of_le hlong.le
  have hpower := power_le_extend (j := 309) hn (by omega : 309 ≤ (ds.take 310).length)
  have hwithin := roundedMantissa_within hn hm (ds.take 310)
  have hmargin := margin_bounds.2
  have hlarge : binary64.largest < (1 - margin) * (extend n (ds.take 310) : ℕ) :=
    largest_lt_power.trans_le (mul_le_mul_of_nonneg_left hpower (by linarith))
  have hover := hwithin.gt (roundings_le (by omega)) (Nat.cast_nonneg _) hlarge
  have hsplit : roundedMantissa m ds =
      roundedMantissa (roundedMantissa m (ds.take 310)) (ds.drop 310) := by
    conv_lhs => rw [← List.take_append_drop 310 ds]
    exact List.foldl_append
  rw [hsplit]
  exact hover.trans_le (le_roundedMantissa hwithin.2.2 _)

theorem fits_bounds (ds : Chars) (he : e ≤ 1024) :
    (digitsValue ds * 10 ^ e.toNat ≤ (1 - margin) * binary64.largest → Fits ds e) ∧
      (Fits ds e →
        e < -511 ∨ (1 - margin) * (digitsValue ds * 10 ^ e.toNat) ≤ binary64.largest) := by
  obtain ⟨hmargin, hmargin'⟩ := margin_bounds
  rw [digitsValue_eq]
  obtain ⟨hvalue, hzero⟩ | ⟨n, t, m, hn, hm, hvalue, hrounded⟩ := roundedMantissa_leading ds
  · have hle : rounded ds e ≤ binary64.largest := by
      rw [rounded, hzero, roundedProduct_of_zero]
      exact largest_nonneg
    refine ⟨fun _ => .inr hle, fun _ => .inr ?_⟩
    rw [hvalue, Nat.cast_zero, zero_mul, mul_zero]
    exact largest_nonneg
  · have hpower : (1 : ℚ) ≤ 10 ^ e.toNat := one_le_pow₀ (by norm_num)
    rw [Fits, rounded, hrounded, hvalue]
    constructor
    · intro hle
      have hlength : t.length ≤ 310 := by
        by_contra hlong
        have hlarge := power_le_extend (j := 309) hn (by omega : 309 ≤ t.length)
        have hmantissa := (le_mul_of_one_le_right (Nat.cast_nonneg (extend n t)) hpower).trans hle
        have hbelow : (1 - margin) * binary64.largest ≤ binary64.largest :=
          mul_le_of_le_one_left largest_nonneg (by linarith)
        have hless : (1 - margin) * (10 : ℚ) ^ 309 ≤ 10 ^ 309 :=
          mul_le_of_le_one_left (by positivity) (by linarith)
        exact absurd (hlarge.trans (hmantissa.trans hbelow))
          (not_le.mpr (largest_lt_power.trans_le hless))
      obtain ⟨k, hk, hwithin⟩ := rounded_within hn hm hlength he
      exact .inr (hwithin.lt (roundings_le hk) largest_nonneg hle)
    · rintro (hdeep | hle)
      · exact .inl hdeep
      · right
        by_contra hlarge
        obtain hlength | hlong := le_or_gt t.length 310
        · obtain ⟨k, hk, hwithin⟩ := rounded_within hn hm hlength he
          have hnonneg : 0 ≤ ((extend n t : ℕ) : ℚ) * 10 ^ e.toNat := by positivity
          exact hle.not_gt (hwithin.gt (roundings_le hk) hnonneg (not_le.mp hlarge))
        · have hone := hm.2.2.trans (le_roundedMantissa hm.2.2 t)
          have hproduct := le_roundedProduct (n := e.toNat) hone (by norm_num : (2 : ℚ) ≤ 10)
          exact hle.not_gt ((long_over hn hm hlong).trans_le hproduct)

end Distance

/-- An infinity is returned for a number beyond the largest double only, with its sign. -/
def InfinityOnly (d : Decimal) : Prop :=
  ∀ behind errno sign, (strtod (d.text ++ 0 :: behind) errno).number = .inf sign →
    binary64.largest < |value d| ∧ (sign = true ↔ value d < 0)

/-- The exponent of the mantissa as the int that the code computes. -/
def shift (d : Decimal) : ℤ := int32 (exponent d)

/-- The number is too large, or the exponent is in range and the rounded number is a double or
divided by 10^512. -/
def Justified (d : Decimal) : Prop :=
  if DBL_MIN_EXP ≤ shift d ∧ shift d ≤ DBL_MAX_EXP then
    binary64.largest < |value d| ∨ Fits (digits d) (shift d)
  else binary64.largest < value d

theorem strtod_number (d : Decimal) (behind : Chars) (errno : ℕ) :
    (strtod (d.text ++ 0 :: behind) errno).number =
      if DBL_MIN_EXP ≤ shift d ∧ shift d ≤ DBL_MAX_EXP then
        if negative d.sign then (result (digits d) (shift d)).neg else result (digits d) (shift d)
      else HUGE_VAL := by
  have hdigits : digits d ≠ [] := fun hnil => d.digit (List.map_eq_nil_iff.mp hnil)
  obtain ⟨hparts, -, -⟩ := parts_digits d
  rw [strtod_parts]
  simp only [parts_exponent, Parts.number, hparts, parts_neg, if_neg hdigits]
  by_cases hin : DBL_MIN_EXP ≤ shift d ∧ shift d ≤ DBL_MAX_EXP
  · have hnot : ¬(int32 (exponent d) < DBL_MIN_EXP ∨ DBL_MAX_EXP < int32 (exponent d)) := by
      rintro (hlow | hhigh)
      · exact absurd hin.1 (not_le.mpr hlow)
      · exact absurd hin.2 (not_le.mpr hhigh)
    rw [if_pos hin, if_neg hnot]
    by_cases hneg : negative d.sign = true
    · rw [if_pos hneg, if_pos hneg]
      exact scale_neg ..
    · rw [if_neg hneg, if_neg hneg]
      rfl
  · have hout : int32 (exponent d) < DBL_MIN_EXP ∨ DBL_MAX_EXP < int32 (exponent d) := by
      by_contra hnot
      obtain ⟨hlow, hhigh⟩ := not_or.mp hnot
      exact hin ⟨not_lt.mp hlow, not_lt.mp hhigh⟩
    rw [if_neg hin, if_pos hout]

theorem value_sign {d : Decimal} (h : binary64.largest < |value d|) :
    negative d.sign = true ↔ value d < 0 := by
  have hpos : 0 < |value d| := largest_nonneg.trans_lt h
  have hnonneg : (0 : ℚ) ≤ significand d * 10 ^ exponent d := by positivity
  unfold value at hpos ⊢
  by_cases hneg : negative d.sign = true
  · rw [if_pos hneg] at hpos ⊢
    rw [abs_neg, abs_of_nonneg hnonneg] at hpos
    simp [hneg, hpos]
  · rw [if_neg hneg]
    simp [hneg, hnonneg]

theorem infinity_out {d : Decimal} (h : ¬(DBL_MIN_EXP ≤ shift d ∧ shift d ≤ DBL_MAX_EXP)) :
    InfinityOnly d ↔ binary64.largest < value d := by
  have hnumber : ∀ behind errno,
      (strtod (d.text ++ 0 :: behind) errno).number = .inf false := fun behind errno => by
    rw [strtod_number, if_neg h, HUGE_VAL]
  constructor
  · intro hp
    obtain ⟨hlarge, hsign⟩ := hp [] 0 false (hnumber [] 0)
    have hnonneg : 0 ≤ value d := not_lt.mp fun hneg => Bool.false_ne_true (hsign.mpr hneg)
    rwa [abs_of_nonneg hnonneg] at hlarge
  · intro hlarge behind errno sign hinf
    have hpos : 0 ≤ value d := largest_nonneg.trans hlarge.le
    rw [hnumber behind errno] at hinf
    obtain rfl : false = sign := Number.inf.inj hinf
    exact ⟨by rwa [abs_of_nonneg hpos], by simp [hpos]⟩

theorem infinity_in {d : Decimal} (h : DBL_MIN_EXP ≤ shift d ∧ shift d ≤ DBL_MAX_EXP) :
    InfinityOnly d ↔ binary64.largest < |value d| ∨ Fits (digits d) (shift d) := by
  have hcases := result_cases (digits d) h.1
  constructor
  · intro hp
    by_contra hnot
    obtain ⟨hsmall, hover⟩ := not_or.mp hnot
    have hinf := (hcases.resolve_left fun hfits => hover hfits.1).2
    have hnumber : (strtod (d.text ++ 0 :: []) 0).number = .inf (negative d.sign) := by
      rw [strtod_number, if_pos h, hinf]
      cases negative d.sign with
      | true => rfl
      | false => rfl
    exact hsmall (hp [] 0 _ hnumber).1
  · intro hor behind errno sign hnumber
    rw [strtod_number, if_pos h] at hnumber
    obtain ⟨-, hno⟩ | ⟨hover, hinf⟩ := hcases
    · -- without an infinity nothing is claimed
      cases hresult : result (digits d) (shift d) with
      | nan => cases hneg : negative d.sign <;> simp [hresult, hneg, Number.neg] at hnumber
      | finite q => cases hneg : negative d.sign <;> simp [hresult, hneg, Number.neg] at hnumber
      | inf t => exact absurd hresult (hno t)
    · have hsign : sign = negative d.sign := by
        rw [hinf] at hnumber
        cases hneg : negative d.sign with
        | true =>
          rw [hneg, if_pos rfl] at hnumber
          exact (Number.inf.inj hnumber).symm
        | false =>
          rw [hneg, if_neg Bool.false_ne_true] at hnumber
          exact (Number.inf.inj hnumber).symm
      have hlarge := hor.resolve_right hover
      exact ⟨hlarge, hsign ▸ value_sign hlarge⟩

/-- An infinity is returned as it should if and only if the number is too large or its digits,
rounded one by one and scaled, do not leave the range; where the exponent is out of range, the
number has to be too large and positive. -/
theorem strtod_infinity_iff (d : Decimal) : InfinityOnly d ↔ Justified d := by
  unfold Justified
  by_cases h : DBL_MIN_EXP ≤ shift d ∧ shift d ≤ DBL_MAX_EXP
  · rw [if_pos h, infinity_in h]
  · rw [if_neg h, infinity_out h]

def outOfRange (sign : Sign) (digit : Digit) (direction : Sign) : Decimal :=
  ⟨[], sign, [digit], none, some ⟨false, direction, ⟨50, rfl⟩, [⟨48, rfl⟩, ⟨48, rfl⟩, ⟨48, rfl⟩]⟩,
    List.cons_ne_nil _ _⟩

/-- "0e2000", "1e-2000" and "-1e2000". -/
theorem strtod_small_overflows :
    ¬InfinityOnly (outOfRange .none ⟨48, rfl⟩ .none) ∧
      ¬InfinityOnly (outOfRange .none ⟨49, rfl⟩ .minus) ∧
      ¬InfinityOnly (outOfRange .minus ⟨49, rfl⟩ .none) := by
  refine ⟨?_, ?_, ?_⟩
  · rw [infinity_out (by decide), not_lt]
    have hvalue : value (outOfRange .none ⟨48, rfl⟩ .none) = ((0 : ℕ) : ℚ) * 10 ^ (2000 : ℤ) := rfl
    rw [hvalue, Nat.cast_zero, zero_mul]
    exact largest_nonneg
  · rw [infinity_out (by decide), not_lt]
    have hvalue : value (outOfRange .none ⟨49, rfl⟩ .minus) =
        ((1 : ℕ) : ℚ) * 10 ^ (-2000 : ℤ) := rfl
    rw [hvalue, Nat.cast_one, one_mul]
    calc (10 : ℚ) ^ (-2000 : ℤ) ≤ 1 := zpow_le_one_of_nonpos₀ (by norm_num) (by norm_num)
      _ ≤ 10 := by norm_num
      _ ≤ binary64.largest := ten_tracks.2.2
  · rw [infinity_out (by decide), not_lt]
    have hvalue : value (outOfRange .minus ⟨49, rfl⟩ .none) =
        -(((1 : ℕ) : ℚ) * 10 ^ (2000 : ℤ)) := rfl
    rw [hvalue]
    exact (neg_nonpos.mpr (by positivity)).trans largest_nonneg

end Jiauliyan.StrtodRange
