import Jiauliyan.FormatHeap

namespace Jiauliyan.FieldWidth

open Jiauliyan.StringCompare Jiauliyan.Bytestreams Jiauliyan.Format Jiauliyan.FormatHeap

/-- The second half of `stream_format_arg`: the bytes put on the output stream, and the count that
is returned. -/
def formatField (h : Heap) (n : ℕ) (block : ℕ → UInt8) (cv : Conversion) (out : Chars) :
    Chars × ℕ :=
  let bs := puts (h.allocator n) (bytestreamCreate block BUFSIZ) out
  (putField h n block cv out, if flen bs < cv.width then cv.width else flen bs)

def Numeric : Value → Prop
  | .int _ | .uint _ | .double _ => True
  | .string _ | .char _ => False

/-- The bytes of a text in its field: padded behind it, by zeros between its front and its digits,
or by spaces before it. -/
def LaidOut (cv : Conversion) (out emitted : Chars) : Prop :=
  (cv.flags.left = true ∧ ∃ pad : Chars,
    pad.length = cv.width - out.length ∧ emitted = out ++ pad) ∨
  (cv.flags.left = false ∧ cv.flags.zero = true ∧ Numeric cv.value ∧ ∃ front digits,
    out = front ++ digits ∧
      emitted = front ++ (List.replicate (cv.width - out.length) 48 ++ digits)) ∨
  (cv.flags.left = false ∧ ¬(cv.flags.zero = true ∧ Numeric cv.value) ∧
    emitted = List.replicate (cv.width - out.length) 32 ++ out)

/-- What a conversion with a width puts for a text, and what it returns. -/
structure Fielded (cv : Conversion) (out : Chars) (r : Chars × ℕ) : Prop where
  layout : LaidOut cv out r.1
  emitted : r.1.length = max cv.width out.length
  returned : r.2 = max cv.width out.length

section Field

variable (h : Heap) (n : ℕ) (block : ℕ → UInt8) (cv : Conversion) {out : Chars}

def textLength (out : Chars) : ℕ := if out.length = 0 then 4294967295 else out.length - 1

theorem flen_puts (out : Chars) :
    flen (puts (h.allocator n) (bytestreamCreate block BUFSIZ) out) = textLength out := by
  obtain ⟨capacity, added, -, -, -, hall⟩ := puts_written h n out
  obtain ⟨buf, hputs, -⟩ := hall block
  rw [hputs]
  rfl

theorem fstr_puts (hz : 0 ∉ out) :
    out.length ≤ (fstr h n (puts (h.allocator n) (bytestreamCreate block BUFSIZ) out)).length := by
  obtain ⟨capacity, added, hfit, -, hall⟩ := puts_range h n out
  obtain ⟨buf, hputs, hmap⟩ := hall block
  rw [hputs, fstr, hmap, range_written hfit, List.append_assoc, content_append hz,
    List.length_append]
  exact Nat.le_add_right ..

theorem justify_no_zero (flen : ℕ) {text : Chars} (hs : 0 ∉ text) : 0 ∉ justify cv flen text := by
  have hpad : 0 ∉ List.replicate (cv.width - flen)
      (if cv.flags.zero = true then (48 : UInt8) else 32) := by
    intro hmem
    have heq := List.eq_of_mem_replicate hmem
    split_ifs at heq <;> cases heq
  unfold justify
  by_cases hshort : flen < cv.width
  · rw [if_pos hshort]
    by_cases hleft : cv.flags.left = true
    · simp only [if_pos hleft, List.mem_append, not_or]
      exact ⟨hs, hpad⟩
    · simp only [if_neg hleft, List.mem_append, not_or]
      exact ⟨hpad, hs⟩
  · rw [if_neg hshort]
    exact hs

theorem putField_no_zero (out : Chars) : 0 ∉ putField h n block cv out :=
  justify_no_zero cv _ (content_no_zero _)

theorem putField_overfills (hz : 0 ∉ out) (h1 : 1 ≤ out.length) (hw : out.length ≤ cv.width) :
    cv.width < (putField h n block cv out).length := by
  have hlen : textLength out = out.length - 1 := if_neg (by omega)
  have hstr := fstr_puts h n block hz
  rw [putField, justify_length, flen_puts, hlen, justify, if_pos (by omega)]
  split_ifs <;>
  · simp only [List.nil_append, List.append_nil, List.length_replicate]
    omega

theorem count_right (hw : cv.width < 2147483648)
    (hcount : (formatField h n block cv out).2 = max cv.width out.length) :
    1 ≤ out.length ∧ out.length ≤ cv.width := by
  simp only [formatField, flen_puts, textLength] at hcount
  split_ifs at hcount <;> omega

theorem LaidOut.mem {cv : Conversion} {emitted : Chars} (hl : LaidOut cv out emitted) {c : UInt8}
    (hc : c ∈ out) : c ∈ emitted := by
  obtain ⟨-, pad, -, rfl⟩ | ⟨-, -, -, front, digits, rfl, rfl⟩ | ⟨-, -, rfl⟩ := hl
  · exact List.mem_append_left pad hc
  · obtain hf | hd := List.mem_append.mp hc
    · exact List.mem_append_left _ hf
    · exact List.mem_append_right _ (List.mem_append_right _ hd)
  · exact List.mem_append_right _ hc

/-- No text is right in its field: its length is taken one too small, as for a terminator that
is not there. -/
theorem field_width_never (out : Chars) (hw : cv.width < 2147483648) :
    ¬Fielded cv out (formatField h n block cv out) := by
  rintro ⟨hlayout, hemitted, hreturned⟩
  obtain ⟨hone, hfits⟩ := count_right h n block cv hw hreturned
  have hz : 0 ∉ out := fun hmem => putField_no_zero h n block cv out (hlayout.mem hmem)
  have hover := putField_overfills h n block cv hz hone hfits
  have hlen : (putField h n block cv out).length = max cv.width out.length := hemitted
  omega

end Field

theorem field_width_char : ¬Fielded ⟨noFlags, 5, 6, .char 97⟩ [97]
    (formatField ⟨fun _ _ _ => 0, fun _ _ => []⟩ 0 (fun _ => 0) ⟨noFlags, 5, 6, .char 97⟩ [97]) :=
  field_width_never _ _ _ _ [97] (by decide)

/-- "%3d" of 5 puts four bytes or more. -/
theorem field_width_overfilled : field ⟨fun _ => [], fun _ _ => 0, fun _ _ _ => some []⟩
      ⟨noFlags, 3, 6, .int 5⟩ = some [53] ∧
    ∀ h n block, ¬Fielded ⟨noFlags, 3, 6, .int 5⟩ [53]
      (formatField h n block ⟨noFlags, 3, 6, .int 5⟩ [53]) := by
  refine ⟨by decide, fun h n block hf => ?_⟩
  have hz : (0 : UInt8) ∉ [53] := by decide
  have hover := putField_overfills h n block ⟨noFlags, 3, 6, .int 5⟩ hz (by decide) (by decide)
  have hlen : (putField h n block ⟨noFlags, 3, 6, .int 5⟩ [53]).length = 3 := hf.emitted
  exact absurd hlen (Nat.ne_of_gt hover)

end Jiauliyan.FieldWidth
