import Jiauliyan.Stripping
import Jiauliyan.Strtoul

namespace Jiauliyan.Trim

open Jiauliyan.CString Jiauliyan.StringCompare Jiauliyan.Stripping
open Jiauliyan.Strtoul (isspace)

/-- Lua keeps the length of a string in a `size_t`. -/
abbrev LuaString := { s : Chars // s.length < 4294967296 }

-- A pointer is an offset, which may be in front of the string. A read outside of the string
-- yields nothing.
def readAt (s : Chars) (p : ℤ) : Option UInt8 := if 0 ≤ p then s[p.toNat]? else none

/-- The conversion to `size_t`. -/
def sizeT (n : ℤ) : ℕ := (n % 4294967296).toNat

def space (c : UInt8) : Bool := isspace (schar c)

def skipFront (s : Chars) : ℕ → ℤ → Option (ℕ × ℤ)
  | 0, front => some (0, front)
  | size + 1, front =>
    (readAt s front).bind fun c =>
      if space c then skipFront s size (front + 1) else some (size + 1, front)

def skipEnd (s : Chars) : ℕ → ℤ → Option (ℕ × ℤ)
  | 0, last => some (0, last)
  | size + 1, last =>
    (readAt s last).bind fun c =>
      if space c then skipEnd s size (last - 1) else some (size + 1, last)

def luaPushlstring (s : Chars) (front : ℤ) : ℕ → Option Chars
  | 0 => some []
  | len + 1 =>
    (readAt s front).bind fun c => (luaPushlstring s (front + 1) len).map fun cs => c :: cs

/-- In the empty string the index of the last byte wraps, and the address with it. -/
def luaTrim (s : LuaString) : Option Chars :=
  (skipFront s.val s.val.length 0).bind fun (size, front) =>
    (skipEnd s.val size (s.val.length - 1)).bind fun (_, last) =>
      luaPushlstring s.val front (sizeT (sizeT (last - front) + 1))

section Loops

variable {pre mid post : Chars} {c : UInt8}

theorem readAt_append (pre post : Chars) (c : UInt8) :
    readAt (pre ++ c :: post) pre.length = some c := by
  rw [readAt, if_pos (by omega), Int.toNat_natCast, List.getElem?_append_right le_rfl, Nat.sub_self,
    List.getElem?_cons_zero]

theorem skipFront_eq (pre mid : Chars) :
    skipFront (pre ++ mid) mid.length pre.length =
      some ((mid.dropWhile space).length, (pre.length : ℤ) + (mid.takeWhile space).length) := by
  induction mid generalizing pre with
  | nil => rfl
  | cons c mid ih =>
    rw [List.length_cons, skipFront, readAt_append, Option.bind_some]
    by_cases hc : space c = true
    · have hnext := ih (pre ++ [c])
      rw [List.append_assoc, List.singleton_append, List.length_append, List.length_singleton,
        Int.natCast_add, Int.natCast_one] at hnext
      rw [if_pos hc, hnext, List.dropWhile_cons_of_pos hc, List.takeWhile_cons_of_pos hc,
        List.length_cons, Int.natCast_add, Int.natCast_one, add_assoc, add_comm (1 : ℤ)]
    · rw [if_neg hc, List.dropWhile_cons_of_neg hc, List.takeWhile_cons_of_neg hc, List.length_nil,
        Int.natCast_zero, add_zero, List.length_cons]

theorem skipEnd_eq (pre mid post : Chars) :
    skipEnd (pre ++ mid ++ post) mid.length (pre.length + mid.length - 1) =
      some ((mid.rdropWhile space).length,
        (pre.length : ℤ) + (mid.rdropWhile space).length - 1) := by
  induction mid using List.reverseRecOn generalizing post with
  | nil => rfl
  | append_singleton mid c ih =>
    have hlast : (pre.length : ℤ) + (mid ++ [c]).length - 1 = ((pre ++ mid).length : ℕ) := by
      simp only [List.length_append, List.length_singleton]
      omega
    have hread : readAt (pre ++ (mid ++ [c]) ++ post) ((pre ++ mid).length : ℕ) = some c := by
      have hsplit : pre ++ (mid ++ [c]) ++ post = (pre ++ mid) ++ c :: post := by simp
      rw [hsplit, readAt_append]
    have hsize : (mid ++ [c]).length = mid.length + 1 := by simp
    rw [hlast, hsize, skipEnd, hread, Option.bind_some]
    by_cases hc : space c = true
    · have hprev := ih (c :: post)
      have hsplit : pre ++ mid ++ c :: post = pre ++ (mid ++ [c]) ++ post := by simp
      rw [hsplit] at hprev
      rw [if_pos hc, List.rdropWhile_concat_pos _ _ _ hc, List.length_append, Int.natCast_add,
        hprev]
    · rw [if_neg hc, List.rdropWhile_concat_neg _ _ _ hc, hlast, hsize]

theorem luaPushlstring_eq (pre mid post : Chars) :
    luaPushlstring (pre ++ mid ++ post) pre.length mid.length = some mid := by
  induction mid generalizing pre with
  | nil => rfl
  | cons c mid ih =>
    have hnext := ih (pre ++ [c])
    rw [List.length_append, List.length_singleton, Int.natCast_add, Int.natCast_one,
      List.append_assoc pre, List.singleton_append] at hnext
    have hread : readAt (pre ++ c :: mid ++ post) pre.length = some c := by
      rw [List.append_assoc, List.cons_append, readAt_append]
    rw [List.length_cons, luaPushlstring, hread, Option.bind_some, hnext]
    rfl

theorem sizeT_span {a k : ℕ} (hk : k < 4294967296) :
    sizeT (sizeT ((a : ℤ) + k - 1 - a) + 1) = k := by
  unfold sizeT
  omega

end Loops

theorem luaTrim_eq (s : LuaString) : luaTrim s = some (strip space s.val) := by
  obtain ⟨s, hs⟩ := s
  have hsplit : s.takeWhile space ++ s.dropWhile space ++ [] = s := by
    rw [List.append_nil, List.takeWhile_append_dropWhile]
  have hfront := skipFront_eq [] s
  have hend := skipEnd_eq (s.takeWhile space) (s.dropWhile space) []
  have hpush := luaPushlstring_eq (s.takeWhile space) (strip space s)
    ((s.dropWhile space).rtakeWhile space)
  have hlen : ((s.takeWhile space).length : ℤ) + (s.dropWhile space).length = s.length := by
    rw [← Int.natCast_add, ← List.length_append, List.takeWhile_append_dropWhile]
  have hle : (strip space s).length < 4294967296 :=
    (strip_stripped space s).length_le.trans_lt hs
  rw [List.nil_append, List.length_nil, Int.natCast_zero, zero_add] at hfront
  rw [hsplit, hlen] at hend
  rw [strip, List.append_assoc, List.rdropWhile_append_rtakeWhile,
    List.takeWhile_append_dropWhile] at hpush
  rw [strip] at hle
  simp only [luaTrim, hfront, hend, Option.bind_some, sizeT_span hle, hpush, strip]

/-- What is pushed is the string without the spaces around it, and the same for any other spaces
around it, or none. -/
theorem trim_strips (s : LuaString) : ∃ t : LuaString,
    luaTrim s = some t.val ∧ Stripped space s.val t.val ∧ luaTrim t = some t.val ∧
      ∀ (u : LuaString) (w₁ w₂ : Chars), Blank space w₁ → Blank space w₂ →
        u.val = w₁ ++ s.val ++ w₂ → luaTrim u = luaTrim s := by
  have hs := strip_stripped space s.val
  refine ⟨⟨strip space s.val, hs.length_le.trans_lt s.property⟩, luaTrim_eq s, hs, ?_, ?_⟩
  · rw [luaTrim_eq]
    exact congrArg some hs.self.eq_strip.symm
  · intro u w₁ w₂ h₁ h₂ hu
    rw [luaTrim_eq, luaTrim_eq, hu, ← (hs.pad h₁ h₂).eq_strip]

end Jiauliyan.Trim
