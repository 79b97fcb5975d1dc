import Jiauliyan.FileOps

namespace Jiauliyan.Sprintf

open Jiauliyan.StringCompare Jiauliyan.Stdio Jiauliyan.Bytestreams Jiauliyan.Format
open Jiauliyan.FileOps

/-- The bytes that `stream_vformat` puts and the value that it returns, if it returns: the count
is added up and not used. -/
def streamVformat (a : Arguments) : Chars × Option ℤ :=
  (a.output.bytes, if a.output.fault then none else some 0)

/-- Memory from a pointer on, with bytes stored at its start. -/
def store (str : ℕ → UInt8) (bytes : Chars) (i : ℕ) : UInt8 :=
  if i < bytes.length then bytes.getD i 0 else str i

structure Printed where
  str : ℕ → UInt8
  bs : Bytestream
  ret : ℤ

/-- The memory that `malloc` has found is `found`, and `behind` lies behind the buffer. -/
def vsprintf (A : Allocator) (found : ℕ → UInt8) (behind : ℕ → Chars) (a : Arguments)
    (str : ℕ → UInt8) : Option Printed :=
  let (out, ret) := streamVformat a
  let bs := puts A (bytestreamCreate found 1024) out
  ret.map fun ret =>
    if 0 ≤ ret then
      let bs := (bytestreamPut A bs 0).2
      let data := (List.range bs.capacity).map bs.buf ++ behind bs.capacity
      ⟨store str (strncpy data bs.size), bs, ret⟩
    else ⟨str, bs, ret⟩

/-- The bytestream holds these bytes, and its buffer has room for them. -/
structure Holds (bs : Bytestream) (out : Chars) : Prop where
  size : bs.size = out.length
  pos : bs.pos = out.length
  fits : out.length ≤ bs.capacity
  buf : ∀ i < out.length, bs.buf i = out.getD i 0

variable {A : Allocator} {bs : Bytestream} {out : Chars}

theorem holds_create (found : ℕ → UInt8) (capacity : ℕ) :
    Holds (bytestreamCreate found capacity) [] :=
  ⟨rfl, rfl, Nat.zero_le _, fun _ hi => absurd hi (Nat.not_lt_zero _)⟩

theorem update_buf {buf : ℕ → UInt8} (hbuf : ∀ i < out.length, buf i = out.getD i 0) (c : UInt8) :
    ∀ i < (out ++ [c]).length, Function.update buf out.length c i = (out ++ [c]).getD i 0 := by
  intro i hi
  rw [List.length_append, List.length_singleton] at hi
  by_cases he : i = out.length
  · subst he
    simp
  · have hlt : i < out.length := by omega
    rw [Function.update_of_ne he, hbuf i hlt, List.getD_append _ _ _ _ hlt]

theorem Holds.put (h : Holds bs out) (c : UInt8) : Holds (bytestreamPut A bs c).2 (out ++ [c]) := by
  obtain ⟨hsize, hpos, hfits, hbuf⟩ := h
  have hlen : (out ++ [c]).length = out.length + 1 := by simp
  have hmax : max bs.size (bs.pos + 1) = out.length + 1 := by omega
  by_cases hfull : bs.capacity ≤ bs.pos
  · have hkept : ∀ i < out.length,
        A.realloc bs.buf bs.capacity (bs.capacity + BUFSIZ) i = out.getD i 0 := fun i hi => by
      rw [A.keeps _ _ _ _ (by omega) (by omega), hbuf i hi]
    rw [bytestreamPut_full A hfull, hmax, hpos]
    refine ⟨hlen.symm, hlen.symm, ?_, update_buf hkept c⟩
    have hgrowth : 1 ≤ BUFSIZ := by decide
    rw [hlen]
    exact Nat.add_le_add hfits hgrowth
  · rw [bytestreamPut_room A (Nat.not_le.mp hfull), hmax, hpos]
    refine ⟨hlen.symm, hlen.symm, ?_, update_buf hbuf c⟩
    have hroom : out.length + 1 ≤ bs.capacity := by omega
    rw [hlen]
    exact hroom

theorem Holds.puts (h : Holds bs out) (more : Chars) :
    Holds (puts A bs more) (out ++ more) := by
  induction more generalizing bs out with
  | nil => simpa [Format.puts] using h
  | cons c more ih =>
    have hnext := ih (h.put (A := A) c)
    rw [List.append_assoc, List.singleton_append] at hnext
    exact hnext

theorem Holds.data (h : Holds bs out) (behind : Chars) :
    ∃ t, (List.range bs.capacity).map bs.buf ++ behind = out ++ t := by
  obtain ⟨k, hk⟩ := Nat.exists_eq_add_of_le h.fits
  refine ⟨(List.range k).map (fun i => bs.buf (out.length + i)) ++ behind, ?_⟩
  rw [hk, List.range_add, List.map_append, List.map_map, List.append_assoc]
  congr 1
  apply List.ext_getElem (by simp)
  intro i hi hi'
  rw [List.getElem_map, List.getElem_range, h.buf i hi', List.getD_eq_getElem _ _ hi']

theorem strncpy_terminated (hz : 0 ∉ out) (t : Chars) :
    strncpy (out ++ 0 :: t) (out.length + 1) = out ++ [0] := by
  rw [strncpy_eq hz, List.take_of_length_le (Nat.le_succ _), Nat.add_sub_cancel_left]
  rfl

/-- The caller's memory holds the text and its terminator, and is otherwise as it was. -/
structure Stored (str str' : ℕ → UInt8) (text : Chars) : Prop where
  bytes : ∀ i < text.length, str' i = text.getD i 0
  terminator : str' text.length = 0
  frame : ∀ i, text.length < i → str' i = str i

theorem stored_text (str : ℕ → UInt8) (text : Chars) :
    Stored str (store str (text ++ [0])) text := by
  have hlen : (text ++ [0]).length = text.length + 1 := by simp
  refine ⟨fun i hi => ?_, ?_, fun i hi => if_neg (by omega)⟩
  · rw [store, if_pos (by omega), List.getD_append _ _ _ _ hi]
  · rw [store, if_pos (by omega)]
    simp

/-- The text and one terminator are stored, and the bytestream holds them, and every part of the
text while it is put. -/
theorem vsprintf_stores (A : Allocator) (found : ℕ → UInt8) (behind : ℕ → Chars) (a : Arguments)
    (str : ℕ → UInt8) {text : Chars} (hout : a.output = ⟨text, false⟩) (hz : 0 ∉ text) :
    (∀ part, part <+: text → Holds (puts A (bytestreamCreate found 1024) part) part) ∧
      ∃ p, vsprintf A found behind a str = some p ∧ Holds p.bs (text ++ [0]) ∧
        Stored str p.str text := by
  have hputs (part : Chars) : Holds (puts A (bytestreamCreate found 1024) part) part :=
    (holds_create found 1024).puts part
  refine ⟨fun part _ => hputs part, ?_⟩
  have hheld := (hputs text).put (A := A) 0
  obtain ⟨t, hdata⟩ := hheld.data (behind (bytestreamPut A
    (puts A (bytestreamCreate found 1024) text) 0).2.capacity)
  have hsize : (text ++ [0]).length = text.length + 1 := by simp
  have hret : (0 : ℤ) ≤ 0 := Int.le_refl 0
  refine ⟨⟨store str (text ++ [0]), _, 0⟩, ?_, hheld, stored_text str text⟩
  simp only [vsprintf, streamVformat, hout, Bool.false_eq_true, if_false, Option.map_some,
    if_pos hret, hdata, hheld.size, hsize, List.append_assoc, List.singleton_append,
    strncpy_terminated hz]

theorem vsprintf_hi : ∃ p, vsprintf ⟨⟨fun data _ _ => data⟩, fun _ _ _ _ _ _ => rfl⟩ (fun _ => 7)
      (fun _ => []) ⟨⟨fun _ => [], fun _ _ => 0, fun _ _ _ => some []⟩, fun _ => 0,
        ⟨fun _ _ _ => 0, fun _ _ => []⟩, fun _ _ => 0, [104, 105, 0], 0⟩ (fun _ => 9) = some p ∧
    Holds p.bs [104, 105, 0] ∧ Stored (fun _ => 9) p.str [104, 105] := by
  have hz : (0 : UInt8) ∉ [104, 105] := by decide
  exact (vsprintf_stores _ _ _ _ _ rfl hz).2

end Jiauliyan.Sprintf
