import Mathlib.Data.Nat.Log
import Jiauliyan.FormatHeap
import Jiauliyan.Numeral

namespace Jiauliyan.PutUint

open Jiauliyan.Memory Jiauliyan.CString Jiauliyan.StringCompare Jiauliyan.Format
open Jiauliyan.FormatHeap Jiauliyan.Numeral

/-- The bases that the flags choose from. -/
inductive Radix
  | dec
  | oct
  | hex

def Radix.base : Radix → ℕ
  | .dec => 10
  | .oct => 8
  | .hex => 16

/-- Flags with the base replaced. -/
def Radix.set (r : Radix) (fl : Flags) : Flags :=
  match r with
  | .dec => { fl with octal := false, hex := false }
  | .oct => { fl with octal := true, hex := false }
  | .hex => { fl with octal := false, hex := true }

/-- The first value that `stream_putuint` does not put right: a power of the base
up to `INT_MAX`, or what the first power beyond it wraps to. -/
def Radix.limit : Radix → ℕ
  | .dec => 1410065408
  | .oct => 1073741824
  | .hex => 268435456

def digits (upper : Bool) : Chars := if upper then digitsUpper else digitsLower

def numeralText (upper : Bool) (r : Radix) (value : ℕ) : Chars :=
  (numeral r.base value).map fun d => (digits upper).getD d 0

def signText (sign : Bool) : Chars := if sign then [43] else []

def altText (r : Radix) (fl : Flags) : Chars :=
  if fl.alt then
    match r with
    | .dec => []
    | .oct => [48]
    | .hex => if fl.upper then [48, 88] else [48, 120]
  else []

/-- What a call of `stream_putuint` does: the bytes it puts, the length it returns
and the indices at which it reads the digit string. -/
structure Put where
  bytes : Chars
  len : ℕ
  lookups : List ℤ

def indices (value : ℕ) (base : ℤ) : ℕ → ℤ → Option (List ℤ)
  | 0, _ => some []
  | n + 1, divisor =>
    if divisor = 0 then none
    else
      (indices value base n (divisor.tdiv base)).map
        ((i32 (value / (divisor % 4294967296).toNat)).tmod base :: ·)

def prefixLen (fl : Flags) : ℕ :=
  (if fl.sign then 1 else 0) +
    if fl.alt then (if fl.octal then 1 else 0) + (if fl.hex then 2 else 0) else 0

def streamPutuint (w : World) (value : ℕ) (fl : Flags) : Option Put :=
  if value = 0 then some ⟨[48], 1, []⟩
  else
    let (i, divisor) := scale (i32 value) (radix fl) 16 0 1
    (indices value (radix fl) (i + 1) divisor).map fun ds =>
      ⟨digitPrefix fl ++ ds.map (digit w fl.upper), prefixLen fl + (i + 1), ds⟩

theorem putDigits_eq (w : World) (upper : Bool) (value : ℕ) (base : ℤ) (n : ℕ) (divisor : ℤ) :
    putDigits w upper value base n divisor =
      (indices value base n divisor).map (List.map (digit w upper)) := by
  induction n generalizing divisor with
  | zero => rfl
  | succ n ih =>
    by_cases hd : divisor = 0
    · rw [putDigits, indices, if_pos hd, if_pos hd]
      rfl
    · rw [putDigits, indices, if_neg hd, if_neg hd, ih, Option.map_map, Option.map_map]
      rfl

theorem streamPutuint_bytes (w : World) (value : ℕ) (fl : Flags) :
    (streamPutuint w value fl).map Put.bytes = putuint w value fl := by
  by_cases h : value = 0
  · rw [streamPutuint, putuint, if_pos h, if_pos h]
    rfl
  · rw [streamPutuint, putuint, if_neg h, if_neg h]
    simp only [putDigits_eq, Option.map_map]
    rfl

theorem prefixLen_eq (fl : Flags) : prefixLen fl = (digitPrefix fl).length := by
  unfold prefixLen digitPrefix
  split_ifs <;> rfl

theorem indices_length {value n : ℕ} {base divisor : ℤ} {ds : List ℤ}
    (h : indices value base n divisor = some ds) : ds.length = n := by
  have hp := putDigits_eq ⟨fun _ => [], fun _ _ => 0, fun _ _ _ => some []⟩ false value base n
    divisor
  rw [h, Option.map_some] at hp
  rw [← putDigits_length hp, List.length_map]

@[simp]
theorem radix_set (r : Radix) (fl : Flags) : radix (r.set fl) = r.base := by
  cases r <;> rfl

@[simp]
theorem upper_set (r : Radix) (fl : Flags) : (r.set fl).upper = fl.upper := by
  cases r <;> rfl

theorem digitPrefix_set (r : Radix) (fl : Flags) :
    digitPrefix (r.set fl) = signText fl.sign ++ altText r fl := by
  cases r <;> cases ha : fl.alt <;> simp [digitPrefix, Radix.set, signText, altText, ha]

theorem base_bounds (r : Radix) : 1 < r.base ∧ r.base ≤ 16 := by
  cases r <;> decide

theorem digit_natCast (w : World) (upper : Bool) (d : ℕ) :
    digit w upper d = (digits upper).getD d 0 := by
  rw [digit, if_pos (Int.natCast_nonneg d)]
  rfl

def power (base : ℕ) : ℕ → ℤ
  | 0 => 1
  | j + 1 => int32 (power base j * base)

theorem scale_power {value : ℤ} {base j k i : ℕ} (hij : i ≤ j) (hjk : j ≤ i + k)
    (hlow : ∀ t, i ≤ t → t < j → power base (t + 1) ≤ value)
    (hstop : j = i + k ∨ value < power base (j + 1)) :
    scale value base k i (power base i) = (j, power base j) := by
  induction k generalizing i with
  | zero =>
    obtain rfl : i = j := by omega
    rfl
  | succ k ih =>
    rw [scale]
    obtain rfl | hlt := Nat.eq_or_lt_of_le hij
    · exact if_pos (hstop.resolve_left (by omega))
    · have h := hlow i le_rfl hlt
      rw [power] at h
      rw [if_neg (by omega)]
      exact ih hlt (by omega) (fun t ht => hlow t (by omega)) (hstop.imp_left (by omega))

theorem scale_long {value : ℤ} {base n k i : ℕ} (hn : n ≤ i + k)
    (hlow : ∀ t, i ≤ t → t < n → power base (t + 1) ≤ value) :
    n ≤ (scale value base k i (power base i)).1 := by
  induction k generalizing i with
  | zero => exact hn
  | succ k ih =>
    rw [scale]
    split_ifs with hlt
    · by_contra hin
      have h := hlow i le_rfl (Nat.lt_of_not_le hin)
      rw [power] at h
      omega
    · exact ih (by omega) (fun t ht => hlow t (by omega))

def Radix.top : Radix → ℕ
  | .dec => 9
  | .oct => 9
  | .hex => 6

theorem limit_le (r : Radix) : r.limit ≤ r.base ^ (r.top + 1) ∧ r.limit < 2147483648 := by
  cases r <;> decide

theorem power_top (r : Radix) : ∀ j ≤ r.top, power r.base j = (r.base ^ j : ℕ) ∧
    (power r.base (j + 1) = (r.base ^ (j + 1) : ℕ) ∨ power r.base (j + 1) = r.limit) := by
  cases r <;> decide

theorem power_le_limit (r : Radix) : ∀ j < 15, power r.base (j + 1) ≤ r.limit := by
  cases r <;> decide

theorem log_le_top {r : Radix} {value : ℕ} (h0 : value ≠ 0) (h : value < r.limit) :
    Nat.log r.base value ≤ r.top := by
  have hlt := Nat.log_lt_of_lt_pow h0 (h.trans_le (limit_le r).1)
  omega

theorem scale_right {r : Radix} {value : ℕ} (h0 : value ≠ 0) (h : value < r.limit) :
    scale value r.base 16 0 1 =
      (Nat.log r.base value, ((r.base ^ Nat.log r.base value : ℕ) : ℤ)) := by
  have hb := (base_bounds r).1
  have htop := log_le_top h0 h
  have htop' : r.top ≤ 16 := by cases r <;> decide
  have hpow := power_top r _ htop
  have hlt := Nat.lt_pow_succ_log_self hb value
  rw [← hpow.1]
  refine scale_power (i := 0) (Nat.zero_le _) (by omega) (fun t _ ht => ?_) (.inr ?_)
  · rw [(power_top r (t + 1) (by omega)).1]
    exact_mod_cast (Nat.pow_le_pow_right (by omega) ht).trans (Nat.pow_log_le_self _ h0)
  · obtain he | he := hpow.2
    · rw [he]
      exact_mod_cast hlt
    · rw [he]
      exact_mod_cast h

theorem indices_lowest {value base k : ℕ} (hb : 1 < base) (hv : value < 2147483648)
    (hk : base ^ k < 2147483648) :
    indices value base (k + 1) (base ^ k : ℕ) =
      some ((lowest base value (k + 1)).map fun d : ℕ => (d : ℤ)) := by
  induction k with
  | zero =>
    have hone : (((base ^ 0 : ℕ) : ℤ) % 4294967296).toNat = 1 := rfl
    rw [indices, if_neg (by simp), hone, Nat.div_one, i32_nonneg hv, lowest, pow_zero, Nat.div_one]
    rfl
  | succ k ih =>
    have hpos : 0 < base ^ (k + 1) := Nat.pow_pos (by omega)
    have hk' : base ^ k < 2147483648 := (Nat.pow_lt_pow_succ hb).trans hk
    have hdiv : ((base ^ (k + 1) : ℕ) : ℤ).tdiv base = (base ^ k : ℕ) := by
      rw [← Int.ofNat_tdiv, pow_succ, Nat.mul_div_cancel _ (by omega)]
    have hmod : (((base ^ (k + 1) : ℕ) : ℤ) % 4294967296).toNat = base ^ (k + 1) := by omega
    have hq : i32 (value / base ^ (k + 1)) = (value / base ^ (k + 1) : ℕ) :=
      i32_nonneg ((Nat.div_le_self _ _).trans_lt hv)
    rw [indices, if_neg (by omega), hdiv, ih hk', hmod, hq]
    rfl

theorem indices_right {r : Radix} {value : ℕ} (h0 : value ≠ 0) (h : value < r.limit) :
    indices value r.base (Nat.log r.base value + 1) (r.base ^ Nat.log r.base value : ℕ) =
      some ((numeral r.base value).map fun d : ℕ => (d : ℤ)) := by
  have hb := (base_bounds r).1
  have hv := h.trans (limit_le r).2
  have hlog := Nat.pow_log_le_self r.base h0
  rw [numeral_eq_lowest hb hlog (Nat.lt_pow_succ_log_self hb value)]
  exact indices_lowest hb hv (hlog.trans_lt hv)

theorem numeralText_eq (w : World) (upper : Bool) (r : Radix) (value : ℕ) :
    ((numeral r.base value).map fun d : ℕ => (d : ℤ)).map (digit w upper) =
      numeralText upper r value := by
  rw [List.map_map]
  exact List.map_congr_left fun d _ => digit_natCast w upper d

def putText (r : Radix) (fl : Flags) (value : ℕ) : Chars :=
  (if value = 0 then [] else signText fl.sign ++ altText r fl) ++ numeralText fl.upper r value

theorem numeralText_zero (upper : Bool) (r : Radix) : numeralText upper r 0 = [48] := by
  cases upper <;> rfl

theorem streamPutuint_right (w : World) {r : Radix} (fl : Flags) {value : ℕ}
    (h0 : value ≠ 0) (h : value < r.limit) :
    streamPutuint w value (r.set fl) =
      some ⟨putText r fl value, (putText r fl value).length,
        (numeral r.base value).map fun d : ℕ => (d : ℤ)⟩ := by
  have hi : i32 value = value := i32_nonneg (h.trans (limit_le r).2)
  have hind := indices_right h0 h
  have hlen := indices_length hind
  rw [streamPutuint, if_neg h0, hi, radix_set, scale_right h0 h]
  simp only [hind, Option.map_some, upper_set, numeralText_eq, digitPrefix_set, prefixLen_eq,
    putText, if_neg h0, List.length_append, numeralText, List.length_map] at hlen ⊢
  rw [hlen]

theorem numeral_length_le {r : Radix} {value : ℕ} (hv : value < 4294967296) :
    (numeral r.base value).length ≤ 11 := by
  refine length_le (base_bounds r).1 (by decide) (hv.trans_le ?_)
  cases r <;> decide

theorem rounds_wrong {r : Radix} {value : ℕ} (hv : value < 4294967296) (h : r.limit ≤ value) :
    (scale (i32 value) r.base 16 0 1).1 + 1 ≠ (numeral r.base value).length := by
  obtain hlt | hge := Nat.lt_or_ge value 2147483648
  · have hlong : 15 ≤ (scale (value : ℤ) r.base 16 0 1).1 :=
      scale_long (i := 0) (by decide) fun t _ ht =>
        (power_le_limit r t ht).trans (by exact_mod_cast h)
    have hle := numeral_length_le (r := r) hv
    rw [i32_nonneg hlt]
    omega
  · have hneg : i32 value < 0 := by
      rw [i32, u32_eq hv, if_neg (by omega)]
      omega
    have hs := scale_negative hneg (r.set noFlags)
    have hb := base_bounds r
    have hone := one_lt_length (n := value) hb.1 (by omega)
    rw [radix_set] at hs
    rw [hs]
    omega

theorem lt_limit {w : World} {r : Radix} {fl : Flags} {value : ℕ} {out : Chars}
    (hv : value < 4294967296) (h : putuint w value (r.set fl) = some out)
    (hlen : out.length = (putText r fl value).length) : value < r.limit := by
  by_contra hlim
  have hge : r.limit ≤ value := by omega
  have h0 : value ≠ 0 := by
    have hpos : 0 < r.limit := by cases r <;> decide
    omega
  obtain ⟨ds, hds, rfl⟩ := putuint_digits h0 h
  rw [radix_set, upper_set] at hds
  simp only [putText, if_neg h0, digitPrefix_set, List.length_append, putDigits_length hds,
    numeralText, List.length_map] at hlen
  exact rounds_wrong hv hge (Nat.add_left_cancel hlen)

theorem putuint_right (w : World) {r : Radix} (fl : Flags) {value : ℕ} (h : value < r.limit) :
    putuint w value (r.set fl) = some (putText r fl value) := by
  by_cases h0 : value = 0
  · rw [putText, if_pos h0, h0, numeralText_zero]
    rfl
  · rw [← streamPutuint_bytes, streamPutuint_right w fl h0 h]
    rfl

/-- Without `FLAG_SIGN` the call divides by nothing that is zero, stays inside the digit
string, puts the prefix and the canonical numeral and returns the number of bytes. -/
def PutsNumeral (w : World) (v : UInt32) (r : Radix) (fl : Flags) : Prop :=
  ∃ p, streamPutuint w v.toNat (r.set { fl with sign := false }) = some p ∧
    (∀ i ∈ p.lookups, 0 ≤ i ∧ i < 16) ∧
    p.bytes = (if 0 < v.toNat then altText r fl else []) ++ numeralText fl.upper r v.toNat ∧
    p.len = p.bytes.length

theorem puts_numeral_iff (w : World) (v : UInt32) (r : Radix) (fl : Flags) :
    PutsNumeral w v r fl ↔ v.toNat < r.limit := by
  have hv : v.toNat < 4294967296 := v.toNat_lt
  have htext : putText r { fl with sign := false } v.toNat =
      (if 0 < v.toNat then altText r fl else []) ++ numeralText fl.upper r v.toNat := by
    by_cases h0 : v.toNat = 0
    · rw [putText, if_pos h0, if_neg (by omega)]
    · rw [putText, if_neg h0, if_pos (by omega)]
      rfl
  refine ⟨fun ⟨p, hp, _, hbytes, _⟩ => ?_, fun h => ?_⟩
  · have hput : putuint w v.toNat (r.set { fl with sign := false }) = some p.bytes := by
      rw [← streamPutuint_bytes, hp]
      rfl
    exact lt_limit hv hput (by rw [htext, hbytes])
  · by_cases h0 : v.toNat = 0
    · have hput : streamPutuint w v.toNat (r.set { fl with sign := false }) =
          some ⟨[48], 1, []⟩ := if_pos h0
      refine ⟨_, hput, fun i hi => absurd hi List.not_mem_nil, ?_, rfl⟩
      rw [h0, numeralText_zero]
      rfl
    · refine ⟨_, streamPutuint_right w _ h0 h, fun i hi => ?_, htext, rfl⟩
      obtain ⟨d, hd, rfl⟩ := List.mem_map.mp hi
      have hlt := digit_lt (base_bounds r).1 v.toNat d hd
      have hb := (base_bounds r).2
      omega

/-- Two to the 28 in hexadecimal divides by zero. -/
theorem hex_divides_by_zero : ∃ w v r fl, ¬PutsNumeral w v r fl := by
  refine ⟨⟨fun _ => [], fun _ _ => 0, fun _ _ _ => some []⟩, 268435456, .hex, noFlags, ?_⟩
  rintro ⟨p, hp, -⟩
  have hnone : streamPutuint ⟨fun _ => [], fun _ _ => 0, fun _ _ _ => some []⟩
      (268435456 : UInt32).toNat (Radix.hex.set noFlags) = none := by decide
  exact absurd (hp.symm.trans hnone) (by simp)

def radixOf (fl : Flags) : Radix := if fl.octal then .oct else if fl.hex then .hex else .dec

theorem radix_of (fl : Flags) : radix fl = (radixOf fl).base := by
  unfold radix radixOf
  split_ifs <;> rfl

/-- The divisor is zero before the last digit is put. -/
def DividesByZero (fl : Flags) (value : ℕ) : Prop :=
  (radixOf fl).limit ≤ value ∧ value < 2147483648

theorem power_le_divisor {value base n : ℕ} {divisor : ℤ} {ds : List ℤ}
    (h : indices value base (n + 1) divisor = some ds) : base ^ n ≤ divisor.natAbs := by
  induction n generalizing divisor ds with
  | zero =>
    rw [indices] at h
    split_ifs at h with h0
    exact Int.natAbs_pos.mpr h0
  | succ n ih =>
    rw [indices] at h
    split_ifs at h with h0
    obtain ⟨es, hes, -⟩ := Option.map_eq_some_iff.mp h
    have hle := ih hes
    rw [Int.natAbs_tdiv, Int.natAbs_natCast] at hle
    rw [pow_succ]
    exact (Nat.mul_le_mul_right base hle).trans (Nat.div_mul_le_self _ _)

theorem scale_divisor_le (value base : ℤ) (k i : ℕ) {divisor : ℤ}
    (h : divisor.natAbs ≤ 2147483648) :
    (scale value base k i divisor).2.natAbs ≤ 2147483648 := by
  induction k generalizing i divisor with
  | zero => exact h
  | succ k ih =>
    rw [scale]
    split_ifs
    · exact h
    · refine ih (i + 1) ?_
      have hlow := Int.le_bmod (x := divisor * base) (m := 4294967296) (by decide)
      have hhigh := Int.bmod_lt (x := divisor * base) (m := 4294967296) (by decide)
      rw [int32]
      omega

theorem indices_none {r : Radix} {value : ℕ} (hlow : r.limit ≤ value) :
    indices value r.base ((scale value r.base 16 0 1).1 + 1)
      (scale value r.base 16 0 1).2 = none := by
  have hrounds : 15 ≤ (scale (value : ℤ) r.base 16 0 1).1 :=
    scale_long (i := 0) (by decide) fun t _ ht =>
      (power_le_limit r t ht).trans (by exact_mod_cast hlow)
  have hone : (1 : ℤ).natAbs ≤ 2147483648 := by simp
  have hdivisor := scale_divisor_le value r.base 16 0 hone
  rw [Option.eq_none_iff_forall_ne_some]
  intro ds hind
  have hle := power_le_divisor hind
  have hbase : 8 ≤ r.base := by cases r <;> decide
  have hpow : 8 ^ 15 ≤ r.base ^ (scale (value : ℤ) r.base 16 0 1).1 :=
    (Nat.pow_le_pow_right (by decide) hrounds).trans (Nat.pow_le_pow_left hbase _)
  omega

theorem putuint_none (w : World) {value : ℕ} (h0 : value ≠ 0) (fl : Flags) :
    putuint w value fl = none ↔ indices value (radix fl)
      ((scale (i32 value) (radix fl) 16 0 1).1 + 1) (scale (i32 value) (radix fl) 16 0 1).2 =
        none := by
  have hput : putuint w value fl = (putDigits w fl.upper value (radix fl)
      ((scale (i32 value) (radix fl) 16 0 1).1 + 1)
      (scale (i32 value) (radix fl) 16 0 1).2).map (digitPrefix fl ++ ·) := by
    rw [putuint, if_neg h0]
  rw [hput, Option.map_eq_none_iff, putDigits_eq, Option.map_eq_none_iff]

theorem putuint_none_iff (w : World) {value : ℕ} (hv : value < 4294967296) (fl : Flags) :
    putuint w value fl = none ↔ DividesByZero fl value := by
  have hpos : 0 < (radixOf fl).limit := by cases radixOf fl <;> decide
  by_cases h0 : value = 0
  · rw [putuint, if_pos h0]
    exact iff_of_false (Option.some_ne_none _) fun hd => absurd hd.1 (by omega)
  rw [putuint_none w h0, radix_of]
  obtain hlow | hhigh := Nat.lt_or_ge value (radixOf fl).limit
  · have hi : i32 value = value := i32_nonneg (hlow.trans (limit_le _).2)
    rw [hi, scale_right h0 hlow, indices_right h0 hlow]
    exact iff_of_false (Option.some_ne_none _) fun hd => absurd hd.1 (by omega)
  obtain hlt | hge := Nat.lt_or_ge value 2147483648
  · rw [i32_nonneg hlt]
    exact iff_of_true (indices_none hhigh) ⟨hhigh, hlt⟩
  · have hneg : i32 value < 0 := by
      rw [i32, u32_eq hv, if_neg (by omega)]
      omega
    have hone : indices value (radix fl) 1 1 = some [(i32 value).tmod (radix fl)] := by
      rw [indices, if_neg one_ne_zero, indices]
      simp
    rw [← radix_of, scale_negative hneg, hone]
    exact iff_of_false (Option.some_ne_none _) fun hd => absurd hd.2 (by omega)

end Jiauliyan.PutUint
