import Jiauliyan.Sprintf
import Jiauliyan.StringSearch

namespace Jiauliyan.Concatenation

open Jiauliyan.StringCompare Jiauliyan.StringSearch
open Jiauliyan.Sprintf (store)

/-- The bytes from a string on, those behind its terminator included. -/
def memory (s : Terminated) (behind : ℕ → UInt8) (i : ℕ) : UInt8 :=
  if i < s.bytes.length then s.bytes.getD i 0 else behind i

/-- The bytes from `str1` on after the call. -/
def strncat (str1 : Terminated) (behind : ℕ → UInt8) (str2 : Terminated) (n i : ℕ) : UInt8 :=
  let len := strlen str1.bytes
  if i < len then memory str1 behind i
  else store (fun j => memory str1 behind (len + j)) (strncpy str2.bytes n) (i - len)

/-- The bytes from `str1` on are the old string, at most `n` bytes of `str2`, a terminator and what
was there before. -/
structure Appends (str1 : Terminated) (behind : ℕ → UInt8) (str2 : Terminated) (n : ℕ)
    (str' : ℕ → UInt8) : Prop where
  old : ∀ i < str1.chars.length, str' i = str1.chars.getD i 0
  copied : ∀ i < min n str2.chars.length,
    str' (str1.chars.length + i) = str2.chars.getD i 0
  terminator : str' (str1.chars.length + min n str2.chars.length) = 0
  frame : ∀ i, str1.chars.length + min n str2.chars.length < i → str' i = memory str1 behind i

variable (str1 str2 : Terminated) (behind : ℕ → UInt8) {n i : ℕ}

theorem strncpy_length (n : ℕ) : (strncpy str2.bytes n).length = n := by
  rw [Terminated.bytes, strncpy_eq str2.no_nul, List.length_append, List.length_take,
    List.length_replicate]
  omega

theorem strncpy_getD (hi : i < n) :
    (strncpy str2.bytes n).getD i 0 = str2.chars.getD i 0 := by
  rw [Terminated.bytes, strncpy_eq str2.no_nul]
  obtain hlt | hle := Nat.lt_or_ge i str2.chars.length
  · rw [List.getD_append _ _ _ _ (by rw [List.length_take]; omega), List.getD_eq_getElem?_getD,
      List.getElem?_take_of_lt hi, ← List.getD_eq_getElem?_getD]
  · rw [List.getD_append_right _ _ _ _ (by rw [List.length_take]; omega),
      List.getD_eq_default _ _ hle]
    simp

theorem strncat_low (hi : i < str1.chars.length) :
    strncat str1 behind str2 n i = str1.chars.getD i 0 := by
  have hlen : strlen str1.bytes = str1.chars.length := strlen_terminated str1.no_nul
  rw [strncat, hlen, if_pos hi, memory, Terminated.bytes,
    if_pos (by rw [List.length_append]; omega), List.getD_append _ _ _ _ hi]

theorem strncat_high : strncat str1 behind str2 n (str1.chars.length + i) =
    if i < n then str2.chars.getD i 0 else memory str1 behind (str1.chars.length + i) := by
  have hlen : strlen str1.bytes = str1.chars.length := strlen_terminated str1.no_nul
  rw [strncat, hlen, if_neg (by omega), Nat.add_sub_cancel_left, store, strncpy_length]
  split_ifs with hi
  · exact strncpy_getD str2 hi
  · rfl

/-- `strncat` appends a terminated prefix exactly if the byte that it leaves as the terminator is
one already, and the bytes that it fills up are zero already. -/
theorem strncat_iff : Appends str1 behind str2 n (strncat str1 behind str2 n) ↔
    (n ≤ str2.chars.length → memory str1 behind (str1.chars.length + n) = 0) ∧
      ∀ i, str2.chars.length < i → i < n → memory str1 behind (str1.chars.length + i) = 0 := by
  constructor
  · intro h
    refine ⟨fun hn => ?_, fun i hi hin => ?_⟩
    · have hterm := h.terminator
      rwa [min_eq_left hn, strncat_high, if_neg (lt_irrefl n)] at hterm
    · have hframe := h.frame (str1.chars.length + i) (by omega)
      rw [← hframe, strncat_high, if_pos hin, List.getD_eq_default _ _ hi.le]
  · rintro ⟨hterm, hfill⟩
    refine ⟨fun i hi => strncat_low _ _ _ hi, fun i hi => ?_, ?_, fun i hi => ?_⟩
    · rw [strncat_high, if_pos (by omega)]
    · rw [strncat_high]
      obtain hn | hn := le_or_gt n str2.chars.length
      · rw [min_eq_left hn, if_neg (lt_irrefl n), hterm hn]
      · rw [min_eq_right hn.le, if_pos hn, List.getD_eq_default _ _ le_rfl]
    · obtain ⟨k, rfl⟩ := Nat.exists_eq_add_of_le (show str1.chars.length ≤ i by omega)
      rw [strncat_high]
      split_ifs with hk
      · rw [hfill k (by omega) hk, List.getD_eq_default _ _ (by omega)]
      · rfl

/-- Neither a shorter prefix is terminated nor is the memory behind the string left alone. -/
theorem strncat_unterminated :
    ¬Appends ⟨[], by decide⟩ (fun _ => 255) ⟨[97, 98], by decide⟩ 1
        (strncat ⟨[], by decide⟩ (fun _ => 255) ⟨[97, 98], by decide⟩ 1) ∧
      ¬Appends ⟨[], by decide⟩ (fun _ => 255) ⟨[97], by decide⟩ 3
        (strncat ⟨[], by decide⟩ (fun _ => 255) ⟨[97], by decide⟩ 3) := by
  constructor
  · intro h
    exact absurd h.terminator (by decide)
  · intro h
    exact absurd (h.frame 2 (by decide)) (by decide)

end Jiauliyan.Concatenation
