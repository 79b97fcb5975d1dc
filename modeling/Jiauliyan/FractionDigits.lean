import Jiauliyan.ExactMath
import Jiauliyan.Tokens

namespace Jiauliyan.FractionDigits

open Jiauliyan.StringCompare Jiauliyan.ExactMath
open Jiauliyan.Format (Flags)
open Jiauliyan.FormatDouble (trunc)
open Jiauliyan.Tokens (store)

-- Every operation is exact, and a store outside of the buffer yields nothing.
def fracLoop (fl : Flags) (precision i : ℕ) (value : ℚ) (string : Chars) : Option (ℕ × Chars) :=
  if i < precision then
    let value := value * 10
    (store string i (UInt8.ofNat ((trunc value + 48) % 256).toNat)).bind fun string =>
      let value := value - floorl value
      if value = 0 ∧ ¬(fl.alt = true ∧ fl.mexp = true) then some (i + 1, string)
      else fracLoop fl precision (i + 1) value string
  else some (i, string)
termination_by precision - i

/-- `fresh` is what `malloc` leaves in the buffer. -/
def formatDoubleFrac (fresh : ℕ → UInt8) (value : ℚ) (fl : Flags) (precision : ℕ) : Option Chars :=
  let value := if value < 0 then -value else value
  let value := if 1 < value then value - floorl value else value
  let string := (List.range (precision + 1)).map fresh
  (fracLoop fl precision 0 value string).bind fun (i, string) => store string i 0

def decimal : List (Fin 10) → ℚ
  | [] => 0
  | d :: ds => (d.val + decimal ds) / 10

def digitChars (ds : List (Fin 10)) : Chars := ds.map fun d : Fin 10 => UInt8.ofNat (d.val + 48)

/-- The decimal expansion of `v`, cut off behind `p` digits or complete before. -/
structure Expansion (v : ℚ) (p : ℕ) (ds : List (Fin 10)) : Prop where
  short : ds.length ≤ p
  truncated : decimal ds = ⌊v * 10 ^ p⌋ / 10 ^ p
  complete : ds.length < p → decimal ds = v

section Expansions

variable {v : ℚ} {p : ℕ} {d : Fin 10} {ds : List (Fin 10)}

theorem Expansion.nil (h0 : 0 ≤ v) (h1 : v < 1) : Expansion v 0 [] where
  short := le_rfl
  truncated := by
    have hfloor : ⌊v⌋ = 0 := Int.floor_eq_zero_iff.mpr ⟨h0, h1⟩
    rw [pow_zero, mul_one, hfloor, Int.cast_zero, zero_div, decimal]
  complete h := absurd h (by decide)

theorem Expansion.last (hd : v * 10 = d.val) : Expansion v (p + 1) [d] where
  short := Nat.succ_le_succ (Nat.zero_le p)
  truncated := by
    have hint : v * 10 ^ (p + 1) = ((d.val * 10 ^ p : ℤ) : ℚ) := by
      rw [pow_succ', ← mul_assoc, hd]
      norm_num
    have hv : v = d.val / 10 := by linarith
    rw [hint, Int.floor_intCast, ← hint, mul_div_cancel_right₀ _ (by positivity), hv, decimal,
      decimal, add_zero]
  complete _ := by
    rw [decimal, decimal, add_zero, ← hd]
    linarith

theorem Expansion.cons {v' : ℚ} (hd : v * 10 = d.val + v') (h : Expansion v' p ds) :
    Expansion v (p + 1) (d :: ds) where
  short := Nat.succ_le_succ h.short
  truncated := by
    have hshift : v * 10 ^ (p + 1) = v' * 10 ^ p + ((d.val * 10 ^ p : ℤ) : ℚ) := by
      rw [pow_succ', ← mul_assoc, hd]
      push_cast
      ring
    have hpow : (10 : ℚ) ^ p ≠ 0 := by positivity
    rw [decimal, h.truncated, hshift, Int.floor_add_intCast, pow_succ]
    push_cast
    field_simp
    ring
  complete hlt := by
    rw [decimal, h.complete (Nat.lt_of_succ_lt_succ hlt), ← hd]
    linarith

end Expansions

section Loop

variable {fl : Flags} {precision i : ℕ} {value : ℚ} {string : Chars}

theorem store_eq {w : ℕ} (hw : w < string.length) (c : UInt8) :
    store string w c = some (string.set w c) := if_pos hw

theorem take_set {w : ℕ} (hw : w < string.length) (c : UInt8) :
    (string.set w c).take (w + 1) = string.take w ++ [c] := by
  rw [List.take_succ_eq_append_getElem (by rwa [List.length_set]), List.getElem_set_self,
    List.take_set_of_le le_rfl]

theorem digit_rest (h0 : 0 ≤ value) (h1 : value < 1) :
    ∃ d : Fin 10, trunc (value * 10) = d.val ∧ floorl (value * 10) = d.val ∧
      0 ≤ value * 10 - d.val ∧ value * 10 - d.val < 1 := by
  have hlow : 0 ≤ ⌊value * 10⌋ := Int.floor_nonneg.mpr (by linarith)
  have hhigh : ⌊value * 10⌋ < 10 := Int.floor_lt.mpr (by push_cast; linarith)
  obtain ⟨n, hn⟩ := Int.eq_ofNat_of_zero_le hlow
  have hcast : ((⌊value * 10⌋ : ℤ) : ℚ) = n := by rw [hn, Int.cast_natCast]
  have hle := Int.floor_le (value * 10)
  have hlt := Int.lt_floor_add_one (value * 10)
  refine ⟨⟨n, by omega⟩, ?_, ?_, by linarith, by linarith⟩
  · rw [trunc_nonneg (by linarith), hn]
  · rw [← hcast]
    exact floor_nonneg (by linarith) (by linarith)

theorem fracLoop_round {d : Fin 10} (hi : i < precision) (hlen : i < string.length)
    (htrunc : trunc (value * 10) = d.val) (hfloor : floorl (value * 10) = d.val) :
    fracLoop fl precision i value string =
      if value * 10 - d.val = 0 ∧ ¬(fl.alt = true ∧ fl.mexp = true) then
        some (i + 1, string.set i (UInt8.ofNat (d.val + 48)))
      else fracLoop fl precision (i + 1) (value * 10 - d.val)
        (string.set i (UInt8.ofNat (d.val + 48))) := by
  have hbyte : (((d.val : ℤ) + 48) % 256).toNat = d.val + 48 := by
    have hd := d.isLt
    omega
  rw [fracLoop, if_pos hi]
  simp only [htrunc, hbyte, store_eq hlen, Option.bind_some, hfloor]

theorem fracLoop_digits (hfl : ¬(fl.alt = true ∧ fl.mexp = true)) {k : ℕ} (hk : i + k = precision)
    (hlen : string.length = precision + 1) (h0 : 0 ≤ value) (h1 : value < 1) :
    ∃ ds string', fracLoop fl precision i value string = some (i + ds.length, string') ∧
      string'.length = precision + 1 ∧
      string'.take (i + ds.length) = string.take i ++ digitChars ds ∧ Expansion value k ds := by
  induction k generalizing i value string with
  | zero =>
    refine ⟨[], string, ?_, hlen, (List.append_nil _).symm, Expansion.nil h0 h1⟩
    rw [fracLoop, if_neg (by omega)]
    rfl
  | succ k ih =>
    obtain ⟨d, htrunc, hfloor, hrest, hrest'⟩ := digit_rest h0 h1
    have hi : i < string.length := by omega
    have hset : (string.set i (UInt8.ofNat (d.val + 48))).length = precision + 1 := by
      rw [List.length_set, hlen]
    rw [fracLoop_round (by omega) hi htrunc hfloor]
    by_cases hz : value * 10 - d.val = 0
    · refine ⟨[d], _, if_pos ⟨hz, hfl⟩, hset, take_set hi _, Expansion.last ?_⟩
      linarith
    · obtain ⟨ds, string', hloop, hlen', htake, hexp⟩ :=
        ih (show i + 1 + k = precision by omega) hset hrest hrest'
      have hcount : i + 1 + ds.length = i + (d :: ds).length := by
        rw [List.length_cons]
        omega
      refine ⟨d :: ds, string', ?_, hlen', ?_, hexp.cons (by ring)⟩
      · rw [if_neg fun h => hz h.1, hloop, hcount]
      · rw [← hcount, htake, take_set hi, List.append_assoc]
        rfl

end Loop

/-- The digits of a number below 1 are those of its expansion, in a buffer of their length and the
terminator's; the sign does not matter. -/
theorem frac_digits (fresh : ℕ → UInt8) (v : ℚ) (precision : ℕ) (fl : Flags) (h0 : 0 ≤ v)
    (h1 : v < 1) (hfl : ¬(fl.alt = true ∧ fl.mexp = true)) :
    (∃ string ds, formatDoubleFrac fresh v fl precision = some string ∧
      string.length = precision + 1 ∧ digitChars ds ++ [0] <+: string ∧
      Expansion v precision ds) ∧
    ∀ w : ℚ, w < 0 →
      formatDoubleFrac fresh w fl precision = formatDoubleFrac fresh (-w) fl precision := by
  constructor
  · have hlen : ((List.range (precision + 1)).map fresh).length = precision + 1 := by simp
    obtain ⟨ds, string', hloop, hlen', htake, hexp⟩ :=
      fracLoop_digits hfl (Nat.zero_add precision) hlen h0 h1
    rw [Nat.zero_add] at hloop htake
    have hi : ds.length < string'.length := by
      rw [hlen']
      exact Nat.lt_succ_of_le hexp.short
    refine ⟨string'.set ds.length 0, ds, ?_, by rw [List.length_set, hlen'], ?_, hexp⟩
    · have hpos : ¬v < 0 := not_lt.mpr h0
      have hone : ¬1 < v := not_lt.mpr h1.le
      simp only [formatDoubleFrac, hpos, hone, if_false, hloop, Option.bind_some, store_eq hi]
    · have hput := take_set hi 0
      rw [htake, List.take_zero, List.nil_append] at hput
      rw [← hput]
      exact List.take_prefix _ _
  · intro w hw
    have hneg : ¬-w < 0 := by linarith
    rw [formatDoubleFrac, formatDoubleFrac, if_pos hw, if_neg hneg]

theorem frac_digits_quarter : ∃ string ds,
    formatDoubleFrac (fun _ => 0xAA) (1 / 4) Format.noFlags 6 = some string ∧ string.length = 7 ∧
      digitChars ds ++ [0] <+: string ∧ Expansion (1 / 4) 6 ds :=
  (frac_digits (fun _ => 0xAA) (1 / 4) 6 Format.noFlags (by norm_num) (by norm_num)
    (by decide)).1

end Jiauliyan.FractionDigits
