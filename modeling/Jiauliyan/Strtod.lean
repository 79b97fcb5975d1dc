import Jiauliyan.FloatingPoint
import Jiauliyan.FormatArguments
import Jiauliyan.StrtoulRange

namespace Jiauliyan.Strtod

open Jiauliyan.CString Jiauliyan.StringCompare Jiauliyan.Format Jiauliyan.FloatingPoint
open Jiauliyan.FormatArguments (Digit)
open Jiauliyan.Strtoul (ERANGE isspace)
open Jiauliyan.StrtoulRange (unspaced unsigned headD_append unsigned_le)

def DBL_MIN_EXP : ℤ := -1021

def DBL_MAX_EXP : ℤ := 1024

def HUGE_VAL : Number := .inf false

def skipSpace (p : Chars) : Chars := p.dropWhile fun c => isspace (schar c)

def readSign (p : Chars) : Bool × Chars :=
  if p.headD 0 = 45 then (true, p.tail)
  else if p.headD 0 = 43 then (false, p.tail)
  else (false, p)

/-- A loop over the digits of the mantissa, with the number and the count of digits so far. The
number is computed in a register and stored. The counters do not come back to zero: no string has
2^32 digits. -/
def readDigits : Number → ℕ → Chars → Number × ℕ × Chars
  | number, n, [] => (number, n, [])
  | number, n, c :: p =>
    if isdigit c then
      let digit : ℚ := (c.toNat - 48 : ℕ)
      readDigits (binary64.store (extended.add (extended.mul number (.finite 10)) (.finite digit)))
        (n + 1) p
    else (number, n, c :: p)

def readExponent : ℤ → Chars → ℤ × Chars
  | n, [] => (n, [])
  | n, c :: p =>
    if isdigit c then readExponent (int32 (n * 10 + (c.toNat - 48 : ℕ))) p else (n, c :: p)

def scale (negative : Bool) (n : ℕ) (number p10 : Number) : Number :=
  if n = 0 then number
  else
    scale negative (n / 2)
      (if n % 2 = 1 then
        binary64.store (if negative then extended.div number p10 else extended.mul number p10)
      else number)
      (binary64.store (extended.mul p10 p10))
termination_by n

/-- The value returned, the offset stored through `endptr` if one is, and `errno`. -/
structure Result where
  number : Number
  endptr : Option ℕ
  errno : ℕ

/-- The mantissa: the number, the counts of its digits and decimals, and what follows. -/
def readMantissa (p : Chars) : Number × ℕ × ℕ × Chars :=
  let (number, whole, p) := readDigits (.finite 0) 0 p
  if p.headD 0 = 46 then
    let (number, digits, p) := readDigits number whole p.tail
    (number, digits, digits - whole, p)
  else (number, whole, 0, p)

def addExponent (exponent : ℤ) (p : Chars) : ℤ × Chars :=
  if p.headD 0 = 101 ∨ p.headD 0 = 69 then
    let (negative, p) := readSign p.tail
    let (n, p) := readExponent 0 p
    (int32 (if negative then exponent - n else exponent + n), p)
  else (exponent, p)

def strtod (str : Chars) (errno : ℕ) : Result :=
  let (negative, p) := readSign (skipSpace str)
  let (number, digits, decimals, p) := readMantissa p
  if digits = 0 then ⟨.finite 0, none, ERANGE⟩
  else
    let number := if negative then number.neg else number
    let (exponent, p) := addExponent (int32 (0 - decimals)) p
    if exponent < DBL_MIN_EXP ∨ DBL_MAX_EXP < exponent then ⟨HUGE_VAL, none, ERANGE⟩
    else
      let number := scale (exponent < 0) exponent.natAbs number (.finite 10)
      ⟨number, some (str.length - p.length), if number.eq HUGE_VAL then ERANGE else errno⟩

inductive Sign
  | none
  | plus
  | minus

def Sign.text : Sign → Chars
  | .none => []
  | .plus => [43]
  | .minus => [45]

abbrev Space := { c : UInt8 // isspace c.toNat = true }

structure Exponent where
  upper : Bool
  sign : Sign
  first : Digit
  more : List Digit

def Exponent.text (e : Exponent) : Chars :=
  (if e.upper then 69 else 101) :: (e.sign.text ++ e.first.1 :: e.more.map (·.1))

/-- A numeral as `strtod` reads it, which has a digit before or behind its point. -/
structure Decimal where
  spaces : List Space
  sign : Sign
  whole : List Digit
  fraction : Option (List Digit)
  exponent : Option Exponent
  digit : whole ++ fraction.getD [] ≠ []

def fractionText : Option (List Digit) → Chars
  | none => []
  | some ds => 46 :: ds.map (·.1)

def exponentText : Option Exponent → Chars
  | none => []
  | some e => e.text

def Decimal.text (d : Decimal) : Chars :=
  d.spaces.map (·.1) ++ (d.sign.text ++
    (d.whole.map (·.1) ++ (fractionText d.fraction ++ exponentText d.exponent)))

/-- The end of the longest numeral that the string starts with, or its start if there is none. -/
structure Ends (s : Chars) (k : ℕ) : Prop where
  within : k ≤ s.length
  longest : ∀ d : Decimal, d.text <+: s → d.text.length ≤ k
  numeral : (∃ d : Decimal, d.text = s.take k) ∨ k = 0

/-- The sign, the digits before and behind the point, and what follows them. -/
structure Parts where
  neg : Bool
  whole : Chars
  fraction : Chars
  rest : Chars

def parts (s : Chars) : Parts :=
  let u := unsigned (unspaced s)
  let v := u.dropWhile isdigit
  let pointed : Bool := v.head? = some 46
  ⟨(unspaced s).head? = some 45, u.takeWhile isdigit,
    if pointed then v.tail.takeWhile isdigit else [],
    if pointed then v.tail.dropWhile isdigit else v⟩

def digitsValue (ds : Chars) : ℕ := Numeral.value 10 (ds.map fun c => c.toNat - 48)

def Marked (w : Chars) : Prop := w.head? = some 101 ∨ w.head? = some 69

instance (w : Chars) : Decidable (Marked w) :=
  inferInstanceAs (Decidable (w.head? = some 101 ∨ w.head? = some 69))

def exponentDigits (w : Chars) : Chars := (unsigned w.tail).takeWhile isdigit

/-- The exponent that is written. -/
def written (w : Chars) : ℤ :=
  if Marked w then
    if w.tail.head? = some 45 then -digitsValue (exponentDigits w)
    else digitsValue (exponentDigits w)
  else 0

def Parts.exponent (p : Parts) : ℤ := written p.rest - p.fraction.length

/-- An `e` without a digit behind it. -/
def Dangling (w : Chars) : Prop := Marked w ∧ exponentDigits w = []

instance (w : Chars) : Decidable (Dangling w) :=
  inferInstanceAs (Decidable (Marked w ∧ exponentDigits w = []))

def taken (w : Chars) : Chars := if Marked w then (unsigned w.tail).dropWhile isdigit else w

/-- What follows the longest numeral. -/
def finish (w : Chars) : Chars := if Dangling w then w else taken w

def horner (number : Number) (ds : Chars) : Number :=
  ds.foldl (fun number c => binary64.store (extended.add (extended.mul number (.finite 10))
    (.finite ((c.toNat - 48 : ℕ) : ℚ)))) number

def Parts.number (p : Parts) : Number :=
  let number := horner (.finite 0) (p.whole ++ p.fraction)
  if p.neg then number.neg else number

variable {s : Chars}

theorem dropWhile_terminated {f : UInt8 → Bool} (h : f 0 = false) (s behind : Chars) :
    (s ++ 0 :: behind).dropWhile f = s.dropWhile f ++ 0 :: behind := by
  induction s with
  | nil => rw [List.nil_append, List.dropWhile_cons_of_neg (by simp [h])]; rfl
  | cons c s ih =>
    by_cases hc : f c = true
    · rw [List.cons_append, List.dropWhile_cons_of_pos hc, List.dropWhile_cons_of_pos hc, ih]
    · rw [List.cons_append, List.dropWhile_cons_of_neg hc, List.dropWhile_cons_of_neg hc]
      rfl

theorem isspace_schar (c : UInt8) : isspace (schar c) = isspace c.toNat := by
  have hc := c.toNat_lt
  rw [Bool.eq_iff_iff]
  unfold schar
  split_ifs
  · rfl
  · simp only [isspace, Bool.or_eq_true, decide_eq_true_eq]
    omega

theorem skipSpace_eq (s behind : Chars) :
    skipSpace (s ++ 0 :: behind) = unspaced s ++ 0 :: behind := by
  have hfun : (fun c : UInt8 => isspace (schar c)) = fun c : UInt8 => isspace c.toNat :=
    funext isspace_schar
  rw [skipSpace, hfun]
  exact dropWhile_terminated rfl s behind

theorem tail_terminated {t : Chars} {c : UInt8} (h : t.head? = some c) (behind : Chars) :
    (t ++ 0 :: behind).tail = t.tail ++ 0 :: behind := by
  cases t with
  | nil => cases h
  | cons x t => rfl

theorem readSign_eq (t behind : Chars) :
    readSign (t ++ 0 :: behind) = (decide (t.head? = some 45), unsigned t ++ 0 :: behind) := by
  simp only [readSign, unsigned, headD_append t behind 45 (by decide),
    headD_append t behind 43 (by decide)]
  by_cases hm : t.head? = some 45
  · simp [hm, tail_terminated hm]
  · by_cases hp : t.head? = some 43
    · simp [hp, tail_terminated hp]
    · simp [hm, hp]

theorem readDigits_eq (number : Number) (n : ℕ) (t behind : Chars) :
    readDigits number n (t ++ 0 :: behind) =
      (horner number (t.takeWhile isdigit), n + (t.takeWhile isdigit).length,
        t.dropWhile isdigit ++ 0 :: behind) := by
  induction t generalizing number n with
  | nil => rfl
  | cons c t ih =>
    rw [List.cons_append, readDigits]
    by_cases hc : isdigit c = true
    · rw [if_pos hc, ih, List.takeWhile_cons_of_pos hc, List.dropWhile_cons_of_pos hc,
        List.length_cons, Nat.add_assoc, Nat.add_comm 1]
      rfl
    · rw [if_neg hc, List.takeWhile_cons_of_neg hc, List.dropWhile_cons_of_neg hc]
      rfl

theorem readExponent_eq (n : ℕ) (t behind : Chars) :
    readExponent (int32 n) (t ++ 0 :: behind) =
      (int32 ((t.takeWhile isdigit).foldl (fun n c => n * 10 + (c.toNat - 48)) n : ℕ),
        t.dropWhile isdigit ++ 0 :: behind) := by
  induction t generalizing n with
  | nil => rfl
  | cons c t ih =>
    rw [List.cons_append, readExponent]
    by_cases hc : isdigit c = true
    · have hstep : int32 (int32 n * 10 + (c.toNat - 48 : ℕ)) =
          int32 ((n * 10 + (c.toNat - 48) : ℕ) : ℤ) := by
        push_cast
        rw [int32, int32, int32, Int.add_bmod, Int.bmod_mul_bmod, ← Int.add_bmod]
      rw [if_pos hc, hstep, ih, List.takeWhile_cons_of_pos hc, List.dropWhile_cons_of_pos hc]
      rfl
    · rw [if_neg hc, List.takeWhile_cons_of_neg hc, List.dropWhile_cons_of_neg hc]
      rfl

theorem addExponent_eq (w behind : Chars) (e : ℤ) :
    addExponent (int32 e) (w ++ 0 :: behind) =
      (int32 (e + written w), taken w ++ 0 :: behind) := by
  have htest : ((w ++ 0 :: behind).headD 0 = 101 ∨ (w ++ 0 :: behind).headD 0 = 69) ↔ Marked w :=
    or_congr (headD_append w behind 101 (by decide)) (headD_append w behind 69 (by decide))
  rw [addExponent]
  by_cases hm : Marked w
  · have htail : (w ++ 0 :: behind).tail = w.tail ++ 0 :: behind := by
      obtain h | h := hm
      · exact tail_terminated h behind
      · exact tail_terminated h behind
    have hzero : (0 : ℤ) = int32 (0 : ℕ) := rfl
    have hvalue : (exponentDigits w).foldl (fun n c => n * 10 + (c.toNat - 48)) 0 =
        digitsValue (exponentDigits w) := by
      rw [digitsValue, Numeral.value, List.foldl_map]
    rw [if_pos (htest.mpr hm), htail, readSign_eq, hzero]
    simp only [readExponent_eq]
    rw [← exponentDigits, hvalue, written, taken, if_pos hm, if_pos hm]
    by_cases hneg : w.tail.head? = some 45
    · simp only [hneg, decide_true, if_true]
      rw [int32, int32, int32, ← Int.sub_bmod, Int.sub_eq_add_neg]
      rfl
    · simp only [hneg, decide_false, if_false, Bool.false_eq_true]
      rw [int32, int32, int32, ← Int.add_bmod]
      rfl
  · rw [if_neg fun h => hm (htest.mp h), written, taken, if_neg hm, if_neg hm, Int.add_zero]

theorem readMantissa_eq (s behind : Chars) :
    readMantissa (unsigned (unspaced s) ++ 0 :: behind) =
      (horner (.finite 0) ((parts s).whole ++ (parts s).fraction),
        ((parts s).whole ++ (parts s).fraction).length, (parts s).fraction.length,
        (parts s).rest ++ 0 :: behind) := by
  have hpoint := headD_append ((unsigned (unspaced s)).dropWhile isdigit) behind 46 (by decide)
  simp only [readMantissa, readDigits_eq, hpoint, Nat.zero_add, parts]
  by_cases hp : ((unsigned (unspaced s)).dropWhile isdigit).head? = some 46
  · simp only [hp, if_true, tail_terminated hp, readDigits_eq, decide_true, horner,
      List.foldl_append, List.length_append, Nat.add_sub_cancel_left]
  · simp only [hp, if_false, decide_false, Bool.false_eq_true, List.append_nil, List.length_nil]

theorem strtod_parts (s behind : Chars) (errno : ℕ) :
    strtod (s ++ 0 :: behind) errno =
      let p := parts s
      let exponent := int32 p.exponent
      if p.whole ++ p.fraction = [] then ⟨.finite 0, none, ERANGE⟩
      else if exponent < DBL_MIN_EXP ∨ DBL_MAX_EXP < exponent then ⟨HUGE_VAL, none, ERANGE⟩
      else
        let number := scale (exponent < 0) exponent.natAbs p.number (.finite 10)
        ⟨number, some (s.length - (taken p.rest).length),
          if number.eq HUGE_VAL then ERANGE else errno⟩ := by
  have hexponent : (0 : ℤ) - (parts s).fraction.length + written (parts s).rest =
      (parts s).exponent := by
    rw [Parts.exponent]
    omega
  have hneg : decide ((unspaced s).head? = some 45) = (parts s).neg := rfl
  have hlength : (s ++ 0 :: behind).length - (taken (parts s).rest ++ 0 :: behind).length =
      s.length - (taken (parts s).rest).length := by
    simp only [List.length_append, List.length_cons]
    omega
  rw [strtod, skipSpace_eq, readSign_eq]
  simp only [readMantissa_eq, addExponent_eq, hexponent, hneg, hlength]
  by_cases hnil : (parts s).whole ++ (parts s).fraction = []
  · rw [if_pos (List.length_eq_zero_iff.mpr hnil), if_pos hnil]
  · rw [if_neg fun h => hnil (List.length_eq_zero_iff.mp h), if_neg hnil]
    rfl

variable {y : Chars}

theorem drop_digits (ds : List Digit) (t : Chars) :
    (ds.map (·.1) ++ t).dropWhile isdigit = t.dropWhile isdigit := by
  induction ds with
  | nil => rfl
  | cons d ds ih => rw [List.map_cons, List.cons_append, List.dropWhile_cons_of_pos d.2, ih]

theorem take_digits (ds : List Digit) (t : Chars) :
    (ds.map (·.1) ++ t).takeWhile isdigit = ds.map (·.1) ++ t.takeWhile isdigit := by
  induction ds with
  | nil => rfl
  | cons d ds ih =>
    rw [List.map_cons, List.cons_append, List.takeWhile_cons_of_pos d.2, ih, List.cons_append]

theorem drop_spaces (sp : List Space) (t : Chars) :
    unspaced (sp.map (·.1) ++ t) = unspaced t := by
  induction sp with
  | nil => rfl
  | cons c sp ih =>
    have hdrop : unspaced (c.1 :: (sp.map (·.1) ++ t)) = unspaced (sp.map (·.1) ++ t) :=
      List.dropWhile_cons_of_pos c.2
    rw [List.map_cons, List.cons_append, hdrop, ih]

/-- The digits, the point and the exponent of a numeral. -/
def Decimal.body (d : Decimal) : Chars :=
  d.whole.map (·.1) ++ (fractionText d.fraction ++ exponentText d.exponent)

theorem digit_or_point {c : UInt8} (h : isdigit c = true ∨ c = 46) :
    isspace c.toNat = false ∧ c ≠ 45 ∧ c ≠ 43 := by
  obtain h | rfl := h
  · obtain ⟨hlo, hhi⟩ := (FormatArguments.isdigit_iff c).mp h
    refine ⟨?_, ?_, ?_⟩
    · simp only [isspace, Bool.or_eq_false_iff, decide_eq_false_iff_not]
      omega
    · rintro rfl
      exact absurd hlo (by decide)
    · rintro rfl
      exact absurd hlo (by decide)
  · decide

theorem body_starts (d : Decimal) : ∃ c t, d.body = c :: t ∧ (isdigit c = true ∨ c = 46) := by
  obtain ⟨-, -, whole, fraction, exponent, hdigit⟩ := d
  cases whole with
  | cons d ds => exact ⟨_, _, rfl, .inl d.2⟩
  | nil =>
    cases fraction with
    | none => exact absurd rfl hdigit
    | some ds => exact ⟨_, _, rfl, .inr rfl⟩

theorem text_signed (d : Decimal) (y : Chars) :
    unspaced (d.text ++ y) = d.sign.text ++ (d.body ++ y) := by
  have htext : d.text ++ y = d.spaces.map (·.1) ++ (d.sign.text ++ (d.body ++ y)) := by
    simp only [Decimal.text, Decimal.body, List.append_assoc]
  obtain ⟨c, t, hc, hstart⟩ := body_starts d
  have hkeep : unspaced (c :: (t ++ y)) = c :: (t ++ y) :=
    List.dropWhile_cons_of_neg (by simp [(digit_or_point hstart).1])
  rw [htext, drop_spaces, hc, List.cons_append]
  cases d.sign with
  | none => exact hkeep
  | plus => exact List.dropWhile_cons_of_neg (by decide)
  | minus => exact List.dropWhile_cons_of_neg (by decide)

theorem unsigned_text (g : Sign) {c : UInt8} (h : isdigit c = true ∨ c = 46) (t : Chars) :
    unsigned (g.text ++ c :: t) = c :: t := by
  obtain ⟨-, hminus, hplus⟩ := digit_or_point h
  have hkeep : unsigned (c :: t) = c :: t := if_neg (by simp [hminus, hplus])
  cases g with
  | none => exact hkeep
  | plus => rfl
  | minus => rfl

theorem text_body (d : Decimal) (y : Chars) : unsigned (unspaced (d.text ++ y)) = d.body ++ y := by
  obtain ⟨c, t, hc, hstart⟩ := body_starts d
  rw [text_signed, hc, List.cons_append]
  exact unsigned_text d.sign hstart (t ++ y)

theorem marked_text (e : Exponent) (y : Chars) :
    Marked (e.text ++ y) ∧ (e.text ++ y).takeWhile isdigit = [] ∧
      (e.text ++ y).dropWhile isdigit = e.text ++ y ∧ (e.text ++ y).head? ≠ some 46 := by
  rw [Exponent.text, List.cons_append]
  cases e.upper with
  | true =>
    exact ⟨.inr rfl, List.takeWhile_cons_of_neg (by decide),
      List.dropWhile_cons_of_neg (by decide), by simp⟩
  | false =>
    exact ⟨.inl rfl, List.takeWhile_cons_of_neg (by decide),
      List.dropWhile_cons_of_neg (by decide), by simp⟩

theorem exponent_digits (e : Exponent) (y : Chars) :
    exponentDigits (e.text ++ y) = (e.first :: e.more).map (·.1) ++ y.takeWhile isdigit ∧
      (unsigned (e.text ++ y).tail).dropWhile isdigit = y.dropWhile isdigit := by
  have htail : (e.text ++ y).tail = e.sign.text ++ (e.first.1 :: (e.more.map (·.1) ++ y)) := by
    rw [Exponent.text, List.cons_append, List.tail_cons, List.append_assoc]
    rfl
  have hunsigned : unsigned (e.text ++ y).tail = (e.first :: e.more).map (·.1) ++ y := by
    rw [htail]
    exact unsigned_text e.sign (.inl e.first.2) _
  rw [exponentDigits, hunsigned]
  exact ⟨take_digits _ y, drop_digits _ y⟩

theorem digits_length_le (t : Chars) : (t.dropWhile isdigit).length ≤ t.length :=
  (List.dropWhile_suffix _).length_le

theorem taken_le (w : Chars) : (taken w).length ≤ w.length := by
  rw [taken]
  split_ifs
  · have h1 := digits_length_le (unsigned w.tail)
    have h2 := unsigned_le w.tail
    rw [List.length_tail] at h2
    omega
  · exact le_rfl

theorem finish_le (w : Chars) : (finish w).length ≤ w.length := by
  rw [finish]
  split_ifs
  · exact le_rfl
  · exact taken_le w

theorem body_append (d : Decimal) (y : Chars) : d.body ++ y = d.whole.map (·.1) ++
    (fractionText d.fraction ++ (exponentText d.exponent ++ y)) := by
  simp only [Decimal.body, List.append_assoc]

theorem parts_pointed {d : Decimal} {ds : List Digit} (h : d.fraction = some ds) (y : Chars) :
    (parts (d.text ++ y)).whole = d.whole.map (·.1) ∧
      (parts (d.text ++ y)).fraction =
        ds.map (·.1) ++ (exponentText d.exponent ++ y).takeWhile isdigit ∧
      (parts (d.text ++ y)).rest = (exponentText d.exponent ++ y).dropWhile isdigit := by
  have hpoint : isdigit 46 = false := by decide
  have htake : (d.body ++ y).takeWhile isdigit = d.whole.map (·.1) := by
    rw [body_append, take_digits, h]
    exact List.append_nil _
  have hdrop : (d.body ++ y).dropWhile isdigit =
      46 :: (ds.map (·.1) ++ (exponentText d.exponent ++ y)) := by
    rw [body_append, drop_digits, h]
    rfl
  simp only [parts, text_body, htake, hdrop, List.head?_cons, decide_true, if_true, List.tail_cons,
    take_digits, drop_digits, and_self]

theorem parts_plain {d : Decimal} (h : d.fraction = none) (y : Chars) :
    (parts (d.text ++ y)).whole =
        d.whole.map (·.1) ++ (exponentText d.exponent ++ y).takeWhile isdigit ∧
      (((exponentText d.exponent ++ y).dropWhile isdigit).head? ≠ some 46 →
        (parts (d.text ++ y)).fraction = [] ∧
          (parts (d.text ++ y)).rest = (exponentText d.exponent ++ y).dropWhile isdigit) ∧
      (parts (d.text ++ y)).rest.length ≤ (exponentText d.exponent ++ y).length := by
  have htake : (d.body ++ y).takeWhile isdigit =
      d.whole.map (·.1) ++ (exponentText d.exponent ++ y).takeWhile isdigit := by
    rw [body_append, take_digits, h]
    rfl
  have hdrop : (d.body ++ y).dropWhile isdigit =
      (exponentText d.exponent ++ y).dropWhile isdigit := by
    rw [body_append, drop_digits, h]
    rfl
  simp only [parts, text_body, htake, hdrop]
  refine ⟨trivial, fun hp => by simp [hp], ?_⟩
  have hv := digits_length_le (exponentText d.exponent ++ y)
  split_ifs
  · have hv' := digits_length_le ((exponentText d.exponent ++ y).dropWhile isdigit).tail
    rw [List.length_tail] at hv'
    omega
  · exact hv

theorem rest_exponent {d : Decimal} {e : Exponent} (h : d.exponent = some e) (y : Chars) :
    (parts (d.text ++ y)).rest = e.text ++ y ∧
      (parts (d.text ++ y)).whole ++ (parts (d.text ++ y)).fraction =
        d.whole.map (·.1) ++ (d.fraction.getD []).map (·.1) := by
  obtain ⟨-, htake, hdrop, hhead⟩ := marked_text e y
  cases hf : d.fraction with
  | none =>
    obtain ⟨hwhole, hrest, -⟩ := parts_plain hf y
    rw [h, exponentText, hdrop] at hrest
    obtain ⟨hfraction, hrest⟩ := hrest hhead
    rw [hwhole, hfraction, hrest, h, exponentText, htake]
    exact ⟨rfl, by simp⟩
  | some ds =>
    obtain ⟨hwhole, hfraction, hrest⟩ := parts_pointed hf y
    rw [hwhole, hfraction, hrest, h, exponentText, htake, hdrop]
    exact ⟨rfl, by simp⟩

/-- Behind a numeral that the string starts with the parser has a mantissa, and leaves no more
than what follows the numeral. -/
theorem parts_text (d : Decimal) (y : Chars) :
    (parts (d.text ++ y)).whole ++ (parts (d.text ++ y)).fraction ≠ [] ∧
      (finish (parts (d.text ++ y)).rest).length ≤ y.length := by
  have hdigit := d.digit
  have hdigits : d.whole.map (·.1) ++ (d.fraction.getD []).map (·.1) ≠ [] := by
    rw [← List.map_append]
    exact fun hnil => hdigit (List.map_eq_nil_iff.mp hnil)
  cases he : d.exponent with
  | some e =>
    obtain ⟨hrest, hmantissa⟩ := rest_exponent he y
    obtain ⟨hmarked, -⟩ := marked_text e y
    obtain ⟨hfirst, hbehind⟩ := exponent_digits e y
    have hkeep : ¬Dangling (e.text ++ y) := by
      rintro ⟨-, hnil⟩
      rw [hfirst] at hnil
      cases hnil
    rw [hmantissa, hrest, finish, if_neg hkeep, taken, if_pos hmarked, hbehind]
    exact ⟨hdigits, digits_length_le y⟩
  | none =>
    have hle := finish_le (parts (d.text ++ y)).rest
    cases hf : d.fraction with
    | none =>
      obtain ⟨hwhole, -, hrest⟩ := parts_plain hf y
      rw [he, exponentText, List.nil_append] at hrest
      refine ⟨?_, hle.trans hrest⟩
      rw [hf, Option.getD_none, List.map_nil, List.append_nil] at hdigits
      rw [hwhole]
      exact List.append_ne_nil_of_left_ne_nil (List.append_ne_nil_of_left_ne_nil hdigits _) _
    | some ds =>
      obtain ⟨hwhole, hfraction, hrest⟩ := parts_pointed hf y
      rw [he, exponentText, List.nil_append] at hrest
      refine ⟨?_, hle.trans (hrest ▸ digits_length_le y)⟩
      rw [hf, Option.getD_some] at hdigits
      rw [hwhole, hfraction, ← List.append_assoc]
      exact List.append_ne_nil_of_left_ne_nil hdigits _

theorem passed (f : UInt8 → Bool) (t : Chars) :
    ∃ l : List { c : UInt8 // f c = true }, l.map (·.1) = t.takeWhile f := by
  induction t with
  | nil => exact ⟨[], rfl⟩
  | cons c t ih =>
    obtain ⟨l, hl⟩ := ih
    by_cases hc : f c = true
    · refine ⟨⟨c, hc⟩ :: l, ?_⟩
      rw [List.map_cons, hl, List.takeWhile_cons_of_pos hc]
    · exact ⟨[], (List.takeWhile_cons_of_neg hc).symm⟩

theorem sign_of (t : Chars) : ∃ g : Sign, t = g.text ++ unsigned t := by
  by_cases hm : t.head? = some 45
  · obtain ⟨t', rfl⟩ := List.head?_eq_some_iff.mp hm
    exact ⟨.minus, rfl⟩
  · by_cases hp : t.head? = some 43
    · obtain ⟨t', rfl⟩ := List.head?_eq_some_iff.mp hp
      exact ⟨.plus, rfl⟩
    · exact ⟨.none, (if_neg (by simp [hm, hp])).symm⟩

theorem exponent_of {w : Chars} (hm : Marked w) (hd : ¬Dangling w) :
    ∃ e : Exponent, w = e.text ++ taken w := by
  have hdigits : exponentDigits w ≠ [] := fun hnil => hd ⟨hm, hnil⟩
  obtain ⟨l, hl⟩ := passed isdigit (unsigned w.tail)
  obtain ⟨g, hg⟩ := sign_of w.tail
  have hbehind : unsigned w.tail = l.map (·.1) ++ taken w := by
    rw [taken, if_pos hm, hl, List.takeWhile_append_dropWhile]
  cases l with
  | nil => exact absurd hl.symm hdigits
  | cons first more =>
    have hsplit : w.tail = g.text ++ (first.1 :: more.map (·.1)) ++ taken w := by
      rw [hg, hbehind, List.append_assoc]
      rfl
    obtain hlower | hupper := hm
    · obtain ⟨w', rfl⟩ := List.head?_eq_some_iff.mp hlower
      exact ⟨⟨false, g, first, more⟩, congrArg (101 :: ·) hsplit⟩
    · obtain ⟨w', rfl⟩ := List.head?_eq_some_iff.mp hupper
      exact ⟨⟨true, g, first, more⟩, congrArg (69 :: ·) hsplit⟩

theorem finish_of (w : Chars) : ∃ e : Option Exponent, w = exponentText e ++ finish w := by
  by_cases hd : Dangling w
  · exact ⟨none, (if_pos hd).symm⟩
  · by_cases hm : Marked w
    · obtain ⟨e, he⟩ := exponent_of hm hd
      exact ⟨some e, by rw [finish, if_neg hd]; exact he⟩
    · exact ⟨none, by rw [finish, if_neg hd, taken, if_neg hm]; rfl⟩

theorem numeral_of (h : (parts s).whole ++ (parts s).fraction ≠ []) :
    ∃ d : Decimal, d.text ++ finish (parts s).rest = s := by
  obtain ⟨spaces, hspaces⟩ := passed (fun c => isspace c.toNat) s
  obtain ⟨g, hg⟩ := sign_of (unspaced s)
  obtain ⟨whole, hwhole⟩ := passed isdigit (unsigned (unspaced s))
  obtain ⟨e, he⟩ := finish_of (parts s).rest
  have hstart : s = spaces.map (·.1) ++ (g.text ++ unsigned (unspaced s)) := by
    rw [← hg, hspaces]
    exact (List.takeWhile_append_dropWhile ..).symm
  have hdigits : unsigned (unspaced s) =
      whole.map (·.1) ++ (unsigned (unspaced s)).dropWhile isdigit := by
    rw [hwhole, List.takeWhile_append_dropWhile]
  have hfraction : ∃ ds : Option (List Digit), (parts s).fraction = (ds.getD []).map (·.1) ∧
      (unsigned (unspaced s)).dropWhile isdigit = fractionText ds ++ (parts s).rest := by
    by_cases hp : ((unsigned (unspaced s)).dropWhile isdigit).head? = some 46
    · obtain ⟨v, hv⟩ := List.head?_eq_some_iff.mp hp
      obtain ⟨ds, hds⟩ := passed isdigit v
      refine ⟨some ds, ?_, ?_⟩
      · simp [parts, hv, hds]
      · simp only [parts, hv, List.head?_cons, decide_true, if_true, List.tail_cons, fractionText,
          hds, List.cons_append, List.takeWhile_append_dropWhile]
    · exact ⟨none, by simp [parts, hp], by simp [parts, hp, fractionText]⟩
  obtain ⟨ds, hds, hbehind⟩ := hfraction
  have hdigit : whole ++ ds.getD [] ≠ [] := by
    intro hnil
    apply h
    have hw : (parts s).whole = whole.map (·.1) := hwhole.symm
    rw [hw, hds, ← List.map_append, hnil]
    rfl
  refine ⟨⟨spaces, g, whole, ds, e, hdigit⟩, ?_⟩
  simp only [Decimal.text, List.append_assoc]
  rw [← he, ← hbehind, ← hdigits, ← hstart]

theorem ends_iff (k : ℕ) : Ends s k ↔
    k = if (parts s).whole ++ (parts s).fraction = [] then 0
      else s.length - (finish (parts s).rest).length := by
  have hlongest : ∀ d : Decimal, d.text <+: s →
      (parts s).whole ++ (parts s).fraction ≠ [] ∧
        d.text.length ≤ s.length - (finish (parts s).rest).length := by
    rintro d ⟨y, rfl⟩
    obtain ⟨hmantissa, hle⟩ := parts_text d y
    refine ⟨hmantissa, ?_⟩
    rw [List.length_append]
    omega
  by_cases hnil : (parts s).whole ++ (parts s).fraction = []
  · rw [if_pos hnil]
    constructor
    · rintro ⟨-, -, ⟨d, hd⟩ | rfl⟩
      · exact absurd hnil (hlongest d (hd ▸ List.take_prefix k s)).1
      · rfl
    · rintro rfl
      exact ⟨Nat.zero_le _, fun d hd => absurd hnil (hlongest d hd).1, .inr rfl⟩
  · obtain ⟨d, hd⟩ := numeral_of hnil
    have hlength : d.text.length = s.length - (finish (parts s).rest).length := by
      have hsum := congrArg List.length hd
      rw [List.length_append] at hsum
      omega
    have hfront : d.text <+: s := ⟨_, hd⟩
    rw [if_neg hnil, ← hlength]
    constructor
    · rintro ⟨hin, hlong, hnum⟩
      refine le_antisymm ?_ (hlong d hfront)
      obtain ⟨d', hd'⟩ | rfl := hnum
      · have hle := (hlongest d' (hd' ▸ List.take_prefix k s)).2
        rw [hd', List.length_take, min_eq_left hin] at hle
        omega
      · exact Nat.zero_le _
    · rintro rfl
      refine ⟨hfront.length_le, ?_, .inl ⟨d, List.prefix_iff_eq_take.mp hfront⟩⟩
      intro d' hd'
      rw [hlength]
      exact (hlongest d' hd').2

/-- The end pointer is set, to the end of the longest numeral. -/
def Reports (s behind : Chars) : Prop :=
  ∀ errno, ∃ k, (strtod (s ++ 0 :: behind) errno).endptr = some k ∧ Ends s k

/-- The exponent of the mantissa read as an integer, as an int, is in the range of the exponents
of a double. -/
def InRange (p : Parts) : Prop :=
  DBL_MIN_EXP ≤ int32 p.exponent ∧ int32 p.exponent ≤ DBL_MAX_EXP

instance (p : Parts) : Decidable (InRange p) :=
  inferInstanceAs (Decidable (DBL_MIN_EXP ≤ int32 p.exponent ∧ int32 p.exponent ≤ DBL_MAX_EXP))

theorem endptr_eq (s behind : Chars) (errno : ℕ) :
    (strtod (s ++ 0 :: behind) errno).endptr =
      if (parts s).whole ++ (parts s).fraction ≠ [] ∧ InRange (parts s) then
        some (s.length - (taken (parts s).rest).length)
      else none := by
  rw [strtod_parts]
  by_cases hnil : (parts s).whole ++ (parts s).fraction = []
  · simp only [hnil, if_true, ne_eq, not_true_eq_false, false_and, if_false]
  · by_cases hrange : InRange (parts s)
    · have hin : ¬(int32 (parts s).exponent < DBL_MIN_EXP ∨
          DBL_MAX_EXP < int32 (parts s).exponent) := by
        rintro (hlow | hhigh)
        · exact absurd hrange.1 (not_le.mpr hlow)
        · exact absurd hrange.2 (not_le.mpr hhigh)
      have hset : (parts s).whole ++ (parts s).fraction ≠ [] ∧ InRange (parts s) := ⟨hnil, hrange⟩
      rw [if_pos hset]
      simp only [hnil, if_neg hin, if_false]
    · have hout : int32 (parts s).exponent < DBL_MIN_EXP ∨
          DBL_MAX_EXP < int32 (parts s).exponent := by
        by_contra hin
        obtain ⟨hlow, hhigh⟩ := not_or.mp hin
        exact hrange ⟨not_lt.mp hlow, not_lt.mp hhigh⟩
      simp only [hnil, if_pos hout, if_false, hrange, and_false]

theorem taken_lt {w : Chars} (hm : Marked w) : (taken w).length < w.length := by
  have hcons : 0 < w.length := by
    cases w with
    | nil => simp [Marked] at hm
    | cons c w => exact Nat.succ_pos _
  have h1 := digits_length_le (unsigned w.tail)
  have h2 := unsigned_le w.tail
  rw [List.length_tail] at h2
  rw [taken, if_pos hm]
  omega

theorem rest_le (s : Chars) : (parts s).rest.length ≤ s.length := by
  have hspaces : (unspaced s).length ≤ s.length := (List.dropWhile_suffix _).length_le
  have hsign := unsigned_le (unspaced s)
  have hwhole := digits_length_le (unsigned (unspaced s))
  have hfraction := digits_length_le ((unsigned (unspaced s)).dropWhile isdigit).tail
  rw [List.length_tail] at hfraction
  simp only [parts]
  split_ifs <;> omega

theorem dangling_misses {k : ℕ} (h : Dangling (parts s).rest)
    (hk : k = s.length - (taken (parts s).rest).length)
    (hmantissa : (parts s).whole ++ (parts s).fraction ≠ []) : ¬Ends s k := by
  have htaken := taken_lt h.1
  have hrest := rest_le s
  rw [ends_iff, if_neg hmantissa, finish, if_pos h]
  omega

/-- The end pointer is right for the strings that start with a numeral, have no `e` behind it
that belongs to none, and an exponent in range. The other strings return early or lose the `e`. -/
theorem strtod_reports_iff (s behind : Chars) :
    Reports s behind ↔ (parts s).whole ++ (parts s).fraction ≠ [] ∧
      ¬Dangling (parts s).rest ∧ InRange (parts s) := by
  constructor
  · intro h
    obtain ⟨k, hk, hends⟩ := h 0
    rw [endptr_eq] at hk
    split_ifs at hk with hset
    obtain ⟨hmantissa, hrange⟩ := hset
    refine ⟨hmantissa, fun hd => ?_, hrange⟩
    exact dangling_misses hd (Option.some.inj hk).symm hmantissa hends
  · rintro ⟨hmantissa, hd, hrange⟩ errno
    refine ⟨_, by rw [endptr_eq, if_pos ⟨hmantissa, hrange⟩], ?_⟩
    rw [ends_iff, if_neg hmantissa, finish, if_neg hd]

/-- "x" has no digit, "1e2000" is out of range, and "1e" is not followed by an exponent. -/
theorem strtod_end_missed :
    ¬Reports [120] [] ∧ ¬Reports [49, 101, 50, 48, 48, 48] [] ∧ ¬Reports [49, 101] [] := by
  refine ⟨fun h => ?_, fun h => ?_, fun h => ?_⟩
  · obtain ⟨k, hk, -⟩ := h 0
    rw [endptr_eq, if_neg (by decide)] at hk
    cases hk
  · obtain ⟨k, hk, -⟩ := h 0
    rw [endptr_eq, if_neg (by decide)] at hk
    cases hk
  · obtain ⟨k, hk, hends⟩ := h 0
    rw [endptr_eq, if_pos (by decide)] at hk
    exact dangling_misses (by decide) (Option.some.inj hk).symm (by decide) hends

end Jiauliyan.Strtod
