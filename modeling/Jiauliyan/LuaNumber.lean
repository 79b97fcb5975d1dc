import Jiauliyan.Dkjson
import Jiauliyan.JsonText
import Jiauliyan.StrtodRange

namespace Jiauliyan.LuaNumber

open Jiauliyan.StringCompare (Chars)
open Jiauliyan.FloatingPoint
open Jiauliyan.Strtod
open Jiauliyan.StrtodRange (shift parts_digits parts_exponent)
open Jiauliyan.Strtoul (isspace strtoul)

/-- `uninit` is the end pointer where `strtod` does not set it. -/
def luaO_str2d (uninit : ℕ) (s : Chars) : Option Number :=
  let s := s ++ [0]
  let r := strtod s 0
  let endptr := r.endptr.getD uninit
  if endptr = 0 then none
  else
    let hex := s.getD endptr 0 = 120 ∨ s.getD endptr 0 = 88
    let n := strtoul s 16 0
    let result := if hex then binary64.round n.value else r.number
    let endptr := if hex then n.endptr else endptr
    if ((s.drop endptr).dropWhile fun c => isspace c.toNat).headD 0 = 0 then some result else none

/-- The numbers of Lua are doubles. How `tostring` writes them is left open. -/
def luaNumbers (uninit : ℕ) (tostring : Number → Chars) : Dkjson.Numbers Number where
  ofNat n := binary64.round n
  tonumber := luaO_str2d uninit
  tostring := tostring
  eq := Number.eq
  index
    | .finite q => if q.den = 1 ∧ 1 ≤ q.num then some q.num.toNat else none
    | _ => none

def digit (d : JsonText.Digit) : FormatArguments.Digit := ⟨d.char, by revert d; decide⟩

def sign : JsonText.Sign → Sign
  | .none => .none
  | .plus => .plus
  | .minus => .minus

def exponent (e : JsonText.Exponent) : Exponent :=
  ⟨e.upper, sign e.sign, digit e.first, e.more.map digit⟩

def fraction : List JsonText.Digit → Option (List FormatArguments.Digit)
  | [] => none
  | d :: ds => some ((d :: ds).map digit)

def decimal (n : JsonText.Number) : Decimal where
  spaces := []
  sign := if n.negative then .minus else .none
  whole := (n.first :: n.whole).map digit
  fraction := fraction n.fraction
  exponent := n.exponent.map exponent
  digit := List.cons_ne_nil _ _

theorem map_digit (ds : List JsonText.Digit) :
    (ds.map digit).map (·.1) = ds.map JsonText.Digit.char := by
  rw [List.map_map]
  rfl

theorem exponent_text (e : JsonText.Exponent) : (exponent e).text = e.text := by
  have hmore := map_digit (e.first :: e.more)
  rw [List.map_cons, List.map_cons] at hmore
  have hsign : (sign e.sign).text = e.sign.text := by cases e.sign <;> rfl
  rw [Exponent.text, JsonText.Exponent.text, exponent, hsign, hmore]

theorem decimal_text (n : JsonText.Number) : (decimal n).text = n.text := by
  have hsign : (decimal n).sign.text = if n.negative then [45] else [] := by
    show (if n.negative then Sign.minus else Sign.none).text = _
    cases n.negative <;> rfl
  have hwhole : (decimal n).whole.map (·.1) = (n.first :: n.whole).map JsonText.Digit.char :=
    map_digit _
  have hfraction : fractionText (decimal n).fraction = JsonText.fractionText n.fraction := by
    show fractionText (fraction n.fraction) = _
    cases n.fraction with
    | nil => rfl
    | cons d ds => exact congrArg (46 :: ·) (map_digit (d :: ds))
  have hexponent : exponentText (decimal n).exponent = JsonText.exponentText n.exponent := by
    show exponentText (n.exponent.map exponent) = _
    cases n.exponent with
    | none => rfl
    | some e => exact exponent_text e
  rw [Decimal.text, hsign, hwhole, hfraction, hexponent, JsonText.Number.text]
  rfl

/-- The exponent, less the number of decimals, is one that a double may have. -/
def InRange (n : JsonText.Number) : Prop :=
  DBL_MIN_EXP ≤ shift (decimal n) ∧ shift (decimal n) ≤ DBL_MAX_EXP

instance (n : JsonText.Number) : Decidable (InRange n) := inferInstanceAs (Decidable (_ ∧ _))

theorem taken_exponent (e : Option Exponent) : taken (exponentText e) = [] := by
  cases e with
  | none => rfl
  | some e =>
    obtain ⟨hmarked, -⟩ := marked_text e []
    obtain ⟨-, hbehind⟩ := exponent_digits e []
    rw [List.append_nil] at hmarked hbehind
    rw [exponentText, taken, if_pos hmarked, hbehind]
    rfl

theorem str2d_text {n : JsonText.Number} (h : InRange n) (uninit : ℕ) :
    luaO_str2d uninit n.text = some (strtod (n.text ++ [0]) 0).number := by
  obtain ⟨hdigits, -, hrest⟩ := parts_digits (decimal n)
  have hmantissa : (parts n.text).whole ++ (parts n.text).fraction ≠ [] := by
    rw [← decimal_text, hdigits]
    exact fun hnil => (decimal n).digit (List.map_eq_nil_iff.mp hnil)
  have hrange : Strtod.InRange (parts n.text) := by
    rw [Strtod.InRange, ← decimal_text, parts_exponent]
    exact h
  have hend : (strtod (n.text ++ [0]) 0).endptr = some n.text.length := by
    rw [endptr_eq, if_pos ⟨hmantissa, hrange⟩, ← decimal_text, hrest, taken_exponent]
    rfl
  have hlength : n.text.length ≠ 0 := by
    intro h0
    rw [List.length_eq_zero_iff.mp h0] at hmantissa
    exact hmantissa rfl
  have hzero : (n.text ++ [0]).getD n.text.length 0 = 0 := by
    rw [List.getD_append_right _ _ _ _ le_rfl, Nat.sub_self]
    rfl
  have hhex : ¬((n.text ++ [0]).getD n.text.length 0 = 120 ∨
      (n.text ++ [0]).getD n.text.length 0 = 88) := by
    rw [hzero]
    decide
  have hdrop : (n.text ++ [0]).drop n.text.length = [0] := List.drop_left
  simp only [luaO_str2d, hend, Option.getD_some, if_neg hlength, if_neg hhex, hdrop]
  rfl

theorem tonumber_text {n : JsonText.Number} (h : InRange n) (uninit : ℕ)
    (tostring : Number → Chars) :
    (luaNumbers uninit tostring).tonumber n.text = some (strtod (n.text ++ [0]) 0).number := by
  have hread : (luaNumbers uninit tostring).tonumber = luaO_str2d uninit := rfl
  rw [hread, str2d_text h]

end Jiauliyan.LuaNumber
