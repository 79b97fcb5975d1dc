import Jiauliyan.FloatingPoint
import Jiauliyan.FormatUint

namespace Jiauliyan.FormatDouble

open Jiauliyan.CString Jiauliyan.StringCompare Jiauliyan.FloatingPoint
open Jiauliyan.Format (Flags radix)
open Jiauliyan.PutUint Jiauliyan.FormatUint Jiauliyan.Numeral

/-- What a conversion to an integer yields where the number does not fit, and the memory that the
strings are made in. -/
structure Machine where
  convert : Number → UInt32
  convert64 : Number → UInt64
  stack : ℤ → UInt8
  fresh : ℕ → ℕ → UInt8

section Source

variable (M : Machine)

def trunc (q : ℚ) : ℤ := if q < 0 then ⌈q⌉ else ⌊q⌋

def toInt (x : Number) : ℤ :=
  let outside := i32 (M.convert x).toNat
  match x with
  | .finite q => if -2147483648 ≤ trunc q ∧ trunc q < 2147483648 then trunc q else outside
  | _ => outside

def toInt64 (x : Number) : ℤ :=
  let outside := (M.convert64 x).toBitVec.toInt
  match x with
  | .finite q =>
    if -9223372036854775808 ≤ trunc q ∧ trunc q < 9223372036854775808 then trunc q else outside
  | _ => outside

/-- `(long double) n`. -/
def ofInt (n : ℤ) : Number := extended.round n

def toDouble : Number → Number := binary64.store

def isnan (x : Number) : Bool := !x.eq x

def isinf (x : Number) : Bool := x.eq (.inf false) || x.eq (.inf true)

def fabs (x : Number) : Number := if x.lt (.finite 0) then x.neg else x

def M_LN10 : Number := binary64.round (230258509299404568402 / 10 ^ 20)

/-- For `__builtin_logl` the compiler has no code of its own: it is a call of `logl`. The calls
nest no deeper than the fuel. -/
def logl : ℕ → Number → Option Number
  | 0, _ => none
  | fuel + 1, x => logl fuel x

def log10l (fuel : ℕ) (x : Number) : Option Number :=
  (logl fuel x).map fun l => extended.div l M_LN10

def expl : ℕ → Number → Option Number
  | 0, _ => none
  | fuel + 1, x => expl fuel x

def powl (fuel : ℕ) (b e : Number) : Option Number :=
  (logl fuel b).bind fun l => expl fuel (extended.mul e l)

def modfl (x : Number) : Number × Number :=
  let a := fabs (toDouble x)
  if (Number.finite 4503599627370496).lt a || a.eq (.finite 4503599627370496) then (.finite 0, x)
  else if a.lt (.finite 1) then (x, .finite 0)
  else (extended.sub x (ofInt (toInt64 M x)), ofInt (toInt64 M x))

def floorl (x : Number) : Number :=
  let x := (modfl M x).2
  if x.lt (.finite 0) then extended.sub x (.finite 1) else x

def fracLoop (fl : Flags) : ℕ → Number → Chars
  | 0, _ => []
  | k + 1, value =>
    let value := extended.mul value (.finite 10)
    let c := UInt8.ofNat ((toInt M value + 48) % 256).toNat
    let value := extended.sub value (floorl M value)
    if value.eq (.finite 0) && !(fl.alt && fl.mexp) then [c] else c :: fracLoop fl k value

def formatDoubleFrac (value : Number) (fl : Flags) (precision : ℤ) : Chars :=
  let value := if value.lt (.finite 0) then value.neg else value
  let value := if (Number.finite 1).lt value then extended.sub value (floorl M value) else value
  content (fracLoop M fl precision.toNat value)

def formatDoubleInt (fuel : ℕ) (value : Number) (fl : Flags) : Option Chars :=
  (log10l fuel value).bind fun l =>
    let expt := toInt M (extended.add l (.finite 1))
    (powl fuel (.finite 10) (ofInt expt)).map fun p =>
      let value := extended.div value (ofInt (toInt M p))
      let temp := formatDoubleFrac M value { fl with alt := true, mexp := true } expt
      if value.lt (.finite 0) then strvcat M.fresh [[45], temp]
      else if fl.sign then strvcat M.fresh [[43], temp]
      else temp

def infText (value : Number) (fl : Flags) : Chars :=
  if fl.upper then
    if value.lt (.finite 0) then [45, 73, 78, 70] else if fl.sign then [43, 73, 78, 70]
    else [73, 78, 70]
  else
    if value.lt (.finite 0) then [45, 105, 110, 102] else if fl.sign then [43, 105, 110, 102]
    else [105, 110, 102]

/-- The calls nest no deeper than the fuel. -/
def formatDouble : ℕ → Number → Flags → ℤ → Option Chars
  | 0, _, _, _ => none
  | fuel + 1, value, fl, precision =>
    if isnan value then some (strdup M.fresh (if fl.upper then [78, 65, 78] else [110, 97, 110]))
    else if isinf value then some (strdup M.fresh (infText value fl))
    else if fl.exp || (fl.mexp && (Number.finite 1000000000).lt value) then
      (log10l fuel value).bind fun i =>
        (powl fuel (.finite 10) (floorl M i)).bind fun p =>
          (formatDouble fuel (extended.div value p) { fl with exp := false } precision).map
            fun intPart =>
              strvcat M.fresh [intPart, if fl.upper then [69] else [101],
                formatInt M.stack M.fresh (toInt M i) { fl with sign := true }]
    else
      let (value, i) := modfl M value
      let intPart :=
        -- the fraction is compared
        if (Number.finite 2000000000).lt value then formatDoubleInt M fuel i fl
        else some (formatInt M.stack M.fresh (toInt M i) fl)
      let decPart := formatDoubleFrac M value fl precision
      intPart.map fun intPart =>
        if i.eq (.finite 0) && value.lt (.finite 0) then
          if !value.eq (.finite 0) || fl.alt then strvcat M.fresh [[45], intPart, [46], decPart]
          else strvcat M.fresh [[45], intPart]
        else
          if !value.eq (.finite 0) || fl.alt then strvcat M.fresh [intPart, [46], decPart]
          else strdup M.fresh intPart

def streamPutdouble (fuel : ℕ) (value : Number) (precision : ℤ) (fl : Flags) :
    Option (Chars × ℕ) :=
  (formatDouble M fuel value fl precision).map fun string => (content string, strlen string)

def pattern (bytes : List UInt8) : ℕ := bytes.foldr (fun b n => b.toNat + 256 * n) 0

def ofPattern64 (n : ℕ) : Number :=
  let negative := decide (n / 9223372036854775808 % 2 = 1)
  let e : ℕ := n / 4503599627370496 % 2048
  let m : ℕ := n % 4503599627370496
  if e = 2047 then if m = 0 then .inf negative else .nan
  else
    let q : ℚ := if e = 0 then m * 2 ^ (-1074 : ℤ) else (m + 4503599627370496) * 2 ^ (e - 1075 : ℤ)
    .finite (if negative then -q else q)

def ofPattern80 (n : ℕ) : Number :=
  let negative := decide (n / 604462909807314587353088 % 2 = 1)
  let e : ℕ := n / 18446744073709551616 % 32768
  let m : ℕ := n % 18446744073709551616
  if e = 32767 then if m = 9223372036854775808 then .inf negative else .nan
  else if e ≠ 0 ∧ m < 9223372036854775808 then .nan
  else
    let q : ℚ := m * 2 ^ (max e 1 - 16446 : ℤ)
    .finite (if negative then -q else q)

def number (bytes : List UInt8) : Number :=
  if bytes.length = 12 then ofPattern80 (pattern (bytes.take 10)) else ofPattern64 (pattern bytes)

/-- The world in which `__format_double` builds the strings. -/
def world (fuel : ℕ) (w : Format.World) : Format.World :=
  { w with
    formatDouble := fun bytes precision fl =>
      formatDouble M fuel (number bytes) fl (i32 precision) }

theorem field_double (w : Format.World) (fuel width precision : ℕ) (fl : Flags)
    (bytes : List UInt8) :
    Format.field (world M fuel w) ⟨fl, width, precision, .double bytes⟩ =
      (streamPutdouble M fuel (number bytes) (i32 precision) fl).map Prod.fst := by
  rw [streamPutdouble, Option.map_map]
  rfl

end Source

theorem logl_none (fuel : ℕ) (x : Number) : logl fuel x = none := by
  induction fuel with
  | zero => rfl
  | succ fuel ih => exact ih

/-- The number is finite, and the flags want its logarithm. -/
def Exponential (value : Number) (fl : Flags) : Prop :=
  ∃ q, value = .finite q ∧ (fl.exp = true ∨ (fl.mexp = true ∧ 1000000000 < q))

theorem half_le_rounded {F : FloatingPoint.Format} {q r : ℚ} (hq : 1 ≤ q)
    (hr : F.round q = .finite r) : q / 2 ≤ r := by
  rw [round_pos (by linarith), FloatingPoint.Format.magnitude] at hr
  split_ifs at hr
  cases hr
  have hnear := (near_error (F := F) hq).1
  have hunit := unit_le F
  refine le_trans ?_ hnear
  nlinarith

theorem abs_lt_of_rounded {q d b : ℚ} (hr : binary64.round q = .finite d) (hb : 1 ≤ b)
    (hd : |d| < b) : |q| < 2 * b := by
  by_cases hpos : 0 ≤ q
  · rw [abs_of_nonneg hpos]
    by_contra hge
    have hhalf := half_le_rounded (by linarith) hr
    linarith [le_abs_self d]
  · rw [abs_of_neg (not_le.mp hpos)]
    by_contra hge
    have hneg : binary64.round (-q) = .finite (-d) := by
      rw [round_neg, hr]
      rfl
    have hhalf := half_le_rounded (by linarith) hneg
    linarith [neg_le_abs d]

theorem round_le_one (F : FloatingPoint.Format) {p : ℚ} (hp : |p| ≤ 1) :
    ∃ r, F.round p = .finite r ∧ r ≤ 1 := by
  have hone : (1 : ℚ) ≤ F.largest :=
    (one_le_zpow₀ (by norm_num) (by have := F.wide; omega)).trans (pow_top F).1
  obtain ⟨hlow, hhigh⟩ := abs_le.mp hp
  by_cases hneg : p < 0
  · rw [FloatingPoint.Format.round, if_pos hneg, magnitude_finite (by linarith)]
    have hnear := near_nonneg (F := F) (by linarith : 0 ≤ -p)
    exact ⟨_, rfl, (neg_nonpos.mpr hnear).trans (by norm_num)⟩
  · rw [round_pos (not_lt.mp hneg), magnitude_finite (hhigh.trans hone)]
    exact ⟨_, rfl, rounded_le_one hhigh⟩

theorem sub_trunc (q : ℚ) : |q - trunc q| ≤ 1 := by
  unfold trunc
  rw [abs_le]
  split_ifs
  · have hle := Int.le_ceil q
    have hlt := Int.ceil_lt_add_one q
    constructor <;> linarith
  · have hle := Int.floor_le q
    have hlt := Int.lt_floor_add_one q
    constructor <;> linarith

theorem trunc_abs (q : ℚ) : |(trunc q : ℚ)| ≤ |q| := by
  unfold trunc
  split_ifs with hneg
  · have hle := Int.le_ceil q
    have hceil : (⌈q⌉ : ℚ) ≤ 0 := by exact_mod_cast Int.ceil_le.mpr (by exact_mod_cast hneg.le)
    rw [abs_of_neg hneg, abs_of_nonpos hceil]
    linarith
  · have hle := Int.floor_le q
    have hfloor : (0 : ℚ) ≤ ⌊q⌋ := by exact_mod_cast Int.floor_nonneg.mpr (not_lt.mp hneg)
    rw [abs_of_nonneg (not_lt.mp hneg), abs_of_nonneg hfloor]
    exact hle

theorem fabs_finite (d : ℚ) : fabs (.finite d) = .finite |d| := by
  unfold fabs
  by_cases hneg : d < 0
  · simp [Number.lt, Number.neg, hneg, abs_of_neg hneg]
  · simp [Number.lt, hneg, abs_of_nonneg (not_lt.mp hneg)]

theorem round_ne_nan (F : FloatingPoint.Format) (q : ℚ) : F.round q ≠ .nan := by
  have hmag : ∀ p, F.magnitude p ≠ .nan := fun p => by
    rw [FloatingPoint.Format.magnitude]
    split_ifs <;> exact Number.noConfusion
  rw [FloatingPoint.Format.round]
  split_ifs with hneg
  · have hp := hmag (-q)
    cases hm : F.magnitude (-q) with
    | nan => exact absurd hm hp
    | inf s => exact Number.noConfusion
    | finite r => exact Number.noConfusion
  · exact hmag q

theorem modfl_fraction (M : Machine) (q : ℚ) :
    ∃ r, (modfl M (.finite q)).1 = .finite r ∧ r ≤ 2 := by
  have hzero : ∃ r, Number.finite 0 = .finite r ∧ r ≤ 2 := ⟨0, rfl, by norm_num⟩
  have hround : toDouble (.finite q) = binary64.round q := rfl
  cases hr : binary64.round q with
  | nan => exact absurd hr (round_ne_nan binary64 q)
  | inf s =>
    have ha : fabs (toDouble (.finite q)) = .inf false := by
      rw [hround, hr]
      cases s <;> rfl
    simp [modfl, ha, Number.lt]
  | finite d =>
    have ha : fabs (toDouble (.finite q)) = .finite |d| := by rw [hround, hr, fabs_finite]
    rw [modfl]
    simp only [ha]
    by_cases hlarge : ((Number.finite 4503599627370496).lt (.finite |d|) ||
        (Number.finite |d|).eq (.finite 4503599627370496)) = true
    · rw [if_pos hlarge]
      exact hzero
    rw [if_neg hlarge]
    have hd : |d| < 4503599627370496 := by
      simp [Number.lt, Number.eq] at hlarge
      exact lt_of_le_of_ne hlarge.1 hlarge.2
    by_cases hsmall : (Number.finite |d|).lt (.finite 1) = true
    · rw [if_pos hsmall]
      have hlt : |d| < 1 := by simpa [Number.lt] using hsmall
      have hq := abs_lt_of_rounded hr le_rfl hlt
      exact ⟨q, rfl, by linarith [le_abs_self q]⟩
    · rw [if_neg hsmall]
      have hq := abs_lt_of_rounded hr (by norm_num) hd
      have ht : |(trunc q : ℚ)| < 9007199254740992 := (trunc_abs q).trans_lt (by linarith)
      have ht' : |trunc q| < 9007199254740992 := by exact_mod_cast ht
      obtain ⟨hlow, hhigh⟩ := abs_lt.mp ht'
      have hint : toInt64 M (.finite q) = trunc q := if_pos ⟨by omega, by omega⟩
      have hof : ofInt (trunc q) = .finite (trunc q) :=
        round_int (ht'.trans (by decide)) (by decide)
      obtain ⟨r, hsub, hle⟩ := round_le_one extended (sub_trunc q)
      refine ⟨r, ?_, by linarith⟩
      rw [hint, hof, FloatingPoint.Format.sub, Number.neg, FloatingPoint.Format.add,
        ← sub_eq_add_neg]
      exact hsub

theorem formatDouble_none_iff (M : Machine) (fuel : ℕ) (value : Number) (fl : Flags)
    (precision : ℤ) :
    formatDouble M (fuel + 1) value fl precision = none ↔ Exponential value fl := by
  rw [formatDouble]
  cases value with
  | nan =>
    have hnan : isnan .nan = true := rfl
    rw [if_pos hnan]
    exact iff_of_false (Option.some_ne_none _) fun ⟨q, hq, _⟩ => by cases hq
  | inf s =>
    have hnan : isnan (.inf s) = false := by cases s <;> rfl
    have hinf : isinf (.inf s) = true := by cases s <;> rfl
    rw [hnan, if_neg Bool.false_ne_true, if_pos hinf]
    exact iff_of_false (Option.some_ne_none _) fun ⟨q, hq, _⟩ => by cases hq
  | finite q =>
    have hnan : isnan (.finite q) = false := by simp [isnan, Number.eq]
    have hinf : isinf (.finite q) = false := by simp [isinf, Number.eq]
    have hexp : (fl.exp || (fl.mexp && (Number.finite 1000000000).lt (.finite q))) = true ↔
        Exponential (.finite q) fl := by
      simp [Exponential, Number.lt]
    rw [hnan, if_neg Bool.false_ne_true, hinf, if_neg Bool.false_ne_true, ← hexp]
    by_cases hlog : (fl.exp || (fl.mexp && (Number.finite 1000000000).lt (.finite q))) = true
    · rw [if_pos hlog]
      exact iff_of_true (by rw [log10l, logl_none, Option.map_none, Option.bind_none]) hlog
    · rw [if_neg hlog]
      obtain ⟨r, hr, hle⟩ := modfl_fraction M q
      have hsmall : (Number.finite 2000000000).lt (.finite r) = false := by
        simp [Number.lt]
        linarith
      refine iff_of_false ?_ hlog
      simp only [hr, hsmall, Bool.false_eq_true, if_false, Option.map_some]
      exact Option.some_ne_none _

def decimalText (n : ℤ) : Chars := (if n < 0 then [45] else []) ++ numeralText false .dec n.natAbs

/-- An integer that a double holds, and flags that ask for neither a sign nor an exponent. -/
structure Plain (n : ℤ) (fl : Flags) : Prop where
  small : |n| < 2 ^ 52
  alt : fl.alt = false
  exp : fl.exp = false
  sign : fl.sign = false
  mexp : fl.mexp = true → n ≤ 1000000000

/-- The decimal numeral is put, whatever a conversion yields that is not defined. -/
def Prints (n : ℤ) (precision : ℤ) (fl : Flags) : Prop :=
  ∀ M, ∃ enough, ∀ fuel, enough ≤ fuel →
    streamPutdouble M fuel (.finite n) precision fl = some (decimalText n, (decimalText n).length)

/-- The numeral in the base of the flags is the decimal one. -/
def Coincides (fl : Flags) (n : ℕ) : Prop :=
  radixOf fl = .dec ∨ n < min (radixOf fl).base 10

variable {n : ℤ} {fl : Flags}

theorem trunc_int (n : ℤ) : trunc n = n := by
  unfold trunc
  split_ifs
  · exact Int.ceil_intCast n
  · exact Int.floor_intCast n

theorem toDouble_int (hn : |n| < 2 ^ 52) : toDouble (.finite n) = .finite n := by
  have hlt : |n| < 2 ^ binary64.precision := hn.trans (by decide)
  exact round_int hlt (by decide)

theorem ofInt_eq (hn : |n| < 2 ^ 52) : ofInt n = .finite n := by
  have hlt : |n| < 2 ^ extended.precision := hn.trans (by decide)
  exact round_int hlt (by decide)

theorem modfl_int (M : Machine) (hn : |n| < 2 ^ 52) :
    modfl M (.finite n) = (.finite 0, .finite n) := by
  have hfabs : fabs (toDouble (.finite n)) = .finite |(n : ℚ)| := by
    rw [toDouble_int hn, fabs_finite]
  have hlt : |(n : ℚ)| < 4503599627370496 := by
    have hcast : ((|n| : ℤ) : ℚ) < ((2 ^ 52 : ℤ) : ℚ) := by exact_mod_cast hn
    rw [Int.cast_abs] at hcast
    norm_num at hcast
    exact hcast
  have hge : ((Number.finite 4503599627370496).lt (.finite |(n : ℚ)|) ||
      (Number.finite |(n : ℚ)|).eq (.finite 4503599627370496)) = false := by
    simp [Number.lt, Number.eq, hlt.le, hlt.ne]
  rw [modfl]
  simp only [hfabs, hge, Bool.false_eq_true, if_false]
  by_cases h0 : n = 0
  · subst h0
    simp [Number.lt]
  · have hone : 1 ≤ |n| := Int.one_le_abs h0
    have hone' : ¬|(n : ℚ)| < 1 := by
      rw [not_lt]
      exact_mod_cast hone
    have hbounds := abs_lt.mp hn
    have hint : toInt64 M (.finite n) = n := by
      rw [toInt64]
      simp only [trunc_int]
      exact if_pos ⟨by omega, by omega⟩
    have hlow : (Number.finite |(n : ℚ)|).lt (.finite 1) = false := by simp [Number.lt, hone']
    have hsub : extended.sub (.finite n) (.finite n) = .finite 0 := by
      rw [Format.sub, Number.neg, Format.add, add_neg_cancel, round_zero]
    rw [hlow, if_neg Bool.false_ne_true, hint, ofInt_eq hn, hsub]

theorem formatDouble_int (M : Machine) (fuel : ℕ) (precision : ℤ) (h : Plain n fl) :
    formatDouble M (fuel + 1) (.finite n) fl precision =
      some (content (formatInt M.stack M.fresh (toInt M (.finite n)) fl)) := by
  have hnan : isnan (.finite n) = false := by simp [isnan, Number.eq]
  have hinf : isinf (.finite n) = false := by simp [isinf, Number.eq]
  have hexp : (fl.exp || (fl.mexp && (Number.finite 1000000000).lt (.finite n))) = false := by
    rw [h.exp, Bool.false_or, Bool.and_eq_false_iff]
    cases hm : fl.mexp with
    | false => exact .inl rfl
    | true =>
      have hle : (n : ℚ) ≤ 1000000000 := by exact_mod_cast h.mexp hm
      exact .inr (by simp [Number.lt, hle])
  have hlarge : (Number.finite 2000000000).lt (.finite 0) = false := by simp [Number.lt]
  have hzero : (Number.finite 0).lt (.finite 0) = false := by simp [Number.lt]
  have heq : (Number.finite 0).eq (.finite 0) = true := by simp [Number.eq]
  rw [formatDouble, hnan, if_neg Bool.false_ne_true, hinf, if_neg Bool.false_ne_true, hexp,
    if_neg Bool.false_ne_true, modfl_int M h.small]
  simp only [hlarge, hzero, heq, h.alt, Bool.and_false, Bool.not_true, Bool.or_self,
    Bool.false_eq_true, if_false, strdup_eq, Option.map_some]

theorem formatUint_radix (stack : ℤ → UInt8) (fresh : ℕ → ℕ → UInt8) (value : ℕ)
    (halt : fl.alt = false) :
    formatUint stack fresh value fl = formatUint stack fresh value ((radixOf fl).set fl) := by
  have hset : ((radixOf fl).set fl).alt = false := by
    cases radixOf fl <;> exact halt
  have hsign : ((radixOf fl).set fl).sign = fl.sign := by
    cases radixOf fl <;> rfl
  have hradix : radix fl = radix ((radixOf fl).set fl) :=
    (radix_of fl).trans (radix_set (radixOf fl) fl).symm
  have hsigned : signed stack value fl = signed stack value ((radixOf fl).set fl) := by
    simp only [signed, hradix, upper_set, hsign]
  simp only [formatUint, hsigned, halt, hset, Bool.false_and, Bool.false_eq_true, if_false]

theorem formatText_plain (r : Radix) (halt : fl.alt = false) (hsign : fl.sign = false)
    (value : ℕ) : formatText r fl value = numeralText fl.upper r value := by
  have halt' : altText r fl = [] := by
    simp only [altText, halt, Bool.false_eq_true, if_false]
  rw [formatText, halt', hsign, signText, if_neg Bool.false_ne_true, List.append_nil, ite_self,
    List.nil_append]

def signedText (fl : Flags) (n : ℤ) : Chars :=
  (if n < 0 then [45] else []) ++ numeralText fl.upper (radixOf fl) n.natAbs

theorem formatInt_plain (stack : ℤ → UInt8) (fresh : ℕ → ℕ → UInt8) (halt : fl.alt = false)
    (hsign : fl.sign = false) (hlow : -2147483648 ≤ n) (hhigh : n < 2147483648) :
    formatInt stack fresh n fl = signedText fl n := by
  have hn : i32 (n % 4294967296).toNat = n := by
    have hu : Memory.u32 (n % 4294967296).toNat = (n % 4294967296).toNat :=
      Memory.u32_eq (by omega)
    rw [i32, hu]
    split_ifs <;> omega
  have htext := formatInt_eq stack fresh (radixOf fl) fl (n % 4294967296).toNat
  rw [hn, formatText_plain _ halt hsign] at htext
  rw [signedText, ← htext, formatInt, formatInt]
  simp only [← formatUint_radix stack fresh _ halt]

theorem digit_inj (upper : Bool) :
    ∀ d < 16, ∀ e < 10, (digits upper).getD d 0 = (digits false).getD e 0 ↔ d = e := by
  cases upper <;> decide

theorem digits_inj (upper : Bool) {ds es : List ℕ} (hds : ∀ d ∈ ds, d < 16)
    (hes : ∀ e ∈ es, e < 10) :
    ds.map ((digits upper).getD · 0) = es.map ((digits false).getD · 0) ↔ ds = es := by
  induction ds generalizing es with
  | nil => cases es <;> simp
  | cons d ds ih =>
    cases es with
    | nil => simp
    | cons e es =>
      rw [List.forall_mem_cons] at hds hes
      rw [List.map_cons, List.map_cons, List.cons.injEq, List.cons.injEq,
        digit_inj upper d hds.1 e hes.1, ih hds.2 hes.2]

theorem numeralText_iff (fl : Flags) (value : ℕ) :
    numeralText fl.upper (radixOf fl) value = numeralText false .dec value ↔
      Coincides fl value := by
  have hb := base_bounds (radixOf fl)
  have hd : ∀ d ∈ numeral (radixOf fl).base value, d < 16 := fun d hd =>
    (digit_lt hb.1 value d hd).trans_le hb.2
  have he : ∀ e ∈ numeral Radix.dec.base value, e < 10 := digit_lt (by decide) value
  rw [numeralText, numeralText, digits_inj fl.upper hd he, Coincides]
  cases radixOf fl with
  | dec => simp
  | oct =>
    rw [Radix.base, Radix.base, numeral_eq_iff (by decide) (by decide)]
    simp
  | hex =>
    rw [Radix.base, Radix.base, eq_comm, numeral_eq_iff (by decide) (by decide)]
    simp

theorem zero_notMem_int (fl : Flags) (n : ℤ) : 0 ∉ signedText fl n := by
  have hn := zero_notMem_numeral fl.upper (radixOf fl) n.natAbs
  unfold signedText
  split_ifs <;> simp [hn]

theorem streamPutdouble_int (M : Machine) (fuel : ℕ) (precision : ℤ) {v : ℤ} (h : Plain n fl)
    (hv : toInt M (.finite n) = v) (hlow : -2147483648 ≤ v) (hhigh : v < 2147483648) :
    streamPutdouble M (fuel + 1) (.finite n) precision fl =
      some (signedText fl v, (signedText fl v).length) := by
  have hint : formatInt M.stack M.fresh v fl = signedText fl v :=
    formatInt_plain M.stack M.fresh h.alt h.sign hlow hhigh
  have hz := content_of_notMem (zero_notMem_int fl v)
  rw [streamPutdouble, formatDouble_int M fuel precision h, hv, hint, hz, Option.map_some, hz,
    strlen_eq, hz]

theorem toInt_fits (M : Machine) (hlow : -2147483648 ≤ n) (hhigh : n < 2147483648) :
    toInt M (.finite n) = n := by
  simp only [toInt, trunc_int]
  exact if_pos ⟨hlow, hhigh⟩

theorem decimalText_zero (h : decimalText n = [48]) : n = 0 := by
  unfold decimalText at h
  split_ifs at h with hneg
  · exact absurd (List.cons.inj h).1 (by decide)
  · have hzero : numeralText false .dec n.natAbs = numeralText false .dec 0 := by
      rw [numeralText_zero, ← h, List.nil_append]
    have hdigits : ∀ m, ∀ d ∈ numeral Radix.dec.base m, d < 10 := digit_lt (by decide)
    have heq := (digits_inj false (fun d hd => (hdigits _ d hd).trans (by decide))
      (hdigits 0)).mp hzero
    have hvalue := value_numeral (by decide : 1 < Radix.dec.base) n.natAbs
    rw [heq, value_numeral (by decide)] at hvalue
    omega

theorem Prints.text {precision : ℤ} (h : Plain n fl) (hp : Prints n precision fl) (M : Machine)
    {v : ℤ} (hv : toInt M (.finite n) = v) (hlow : -2147483648 ≤ v) (hhigh : v < 2147483648) :
    signedText fl v = decimalText n := by
  obtain ⟨enough, hp⟩ := hp M
  have hput := hp (enough + 1) (Nat.le_succ enough)
  rw [streamPutdouble_int M enough precision h hv hlow hhigh] at hput
  exact (Prod.mk.inj (Option.some.inj hput)).1

theorem Prints.fits {precision : ℤ} (h : Plain n fl) (hp : Prints n precision fl) :
    -2147483648 ≤ n ∧ n < 2147483648 := by
  by_contra hout
  let M : Machine := ⟨fun _ => 0, fun _ => 0, fun _ => 0, fun _ _ => 0⟩
  have hzero : toInt M (.finite n) = 0 := by
    simp only [toInt, trunc_int]
    exact if_neg hout
  have htext := hp.text h M hzero (by decide) (by decide)
  have hn := decimalText_zero (htext.symm.trans (numeralText_zero fl.upper (radixOf fl)))
  exact hout (by omega)

/-- Integers beyond an `int` are not put: the test for the large ones reads the fraction. -/
theorem integer_prints_iff (h : Plain n fl) (precision : ℤ) :
    Prints n precision fl ↔
      (-2147483648 ≤ n ∧ n < 2147483648) ∧ Coincides fl n.natAbs := by
  have htext : signedText fl n = decimalText n ↔ Coincides fl n.natAbs := by
    rw [signedText, decimalText, List.append_cancel_left_eq, numeralText_iff]
  refine ⟨fun hp => ?_, ?_⟩
  · have hfits := hp.fits h
    let M : Machine := ⟨fun _ => 0, fun _ => 0, fun _ => 0, fun _ _ => 0⟩
    have hint := toInt_fits M hfits.1 hfits.2
    exact ⟨hfits, htext.mp (hp.text h M hint hfits.1 hfits.2)⟩
  · rintro ⟨hfits, hc⟩ M
    refine ⟨1, fun fuel hfuel => ?_⟩
    obtain ⟨fuel, rfl⟩ := Nat.exists_eq_add_of_le' hfuel
    have hint := toInt_fits M hfits.1 hfits.2
    rw [streamPutdouble_int M fuel precision h hint hfits.1 hfits.2, htext.mpr hc]

theorem prints_negative : Prints (-42) 6 Format.noFlags :=
  (integer_prints_iff ⟨by decide, rfl, rfl, rfl, fun _ => by decide⟩ 6).mpr
    ⟨⟨by decide, by decide⟩, .inl rfl⟩

theorem large_unprinted : ¬Prints 3000000000 6 Format.noFlags := by
  intro hp
  have hfits := hp.fits ⟨by decide, rfl, rfl, rfl, fun hm => absurd hm Bool.false_ne_true⟩
  exact absurd hfits.2 (by decide)

end Jiauliyan.FormatDouble
