import Jiauliyan.Format

namespace Jiauliyan.FormatHeap

open Jiauliyan.Memory Jiauliyan.CString Jiauliyan.StringCompare Jiauliyan.Stdio
open Jiauliyan.Bytestreams Jiauliyan.Format

/-- The first digit of the value is looked up in front of the digit string, where
a zero is found. -/
def Strays (w : World) (value : ℕ) (fl : Flags) : Prop :=
  (i32 value).tmod (radix fl) < 0 ∧ w.before fl.upper ((i32 value).tmod (radix fl)) = 0

/-- The conversions that are put, up to one that never is. -/
def formatted (w : World) : List Item → List Conversion
  | [] => []
  | .char _ :: items => formatted w items
  | .call _ none :: items => formatted w items
  | .call _ (some cv) :: items => if (field w cv).isSome then cv :: formatted w items else []

theorem digit_ne_zero (w : World) (upper : Bool) {i : ℤ} (h0 : 0 ≤ i) (h1 : i < 16) :
    digit w upper i ≠ 0 := by
  have hall : ∀ k < 16, digitsUpper.getD k 0 ≠ 0 ∧ digitsLower.getD k 0 ≠ 0 := by decide
  have hk := hall i.toNat (by omega)
  cases upper with
  | true => simpa [digit, h0] using hk.1
  | false => simpa [digit, h0] using hk.2

theorem radix_bounds (fl : Flags) : 0 < radix fl ∧ radix fl ≤ 16 := by
  unfold radix
  split_ifs <;> decide

theorem i32_nonneg {n : ℕ} (h : n < 2147483648) : i32 n = n := by
  have hu : u32 n = n := u32_eq (by omega)
  rw [i32, hu, if_pos h]

theorem putDigits_cons {w : World} {upper : Bool} {value n : ℕ} {base divisor : ℤ} {out : Chars}
    (h : putDigits w upper value base (n + 1) divisor = some out) :
    ∃ ds, putDigits w upper value base n (divisor.tdiv base) = some ds ∧
      out = digit w upper ((i32 (value / (divisor % 4294967296).toNat)).tmod base) :: ds := by
  rw [putDigits] at h
  by_cases hd : divisor = 0
  · rw [if_pos hd] at h
    cases h
  · rw [if_neg hd] at h
    obtain ⟨ds, hds, ht⟩ := Option.map_eq_some_iff.mp h
    exact ⟨ds, hds, ht.symm⟩

theorem putDigits_length {w : World} {upper : Bool} {value n : ℕ} {base divisor : ℤ} {out : Chars}
    (h : putDigits w upper value base n divisor = some out) : out.length = n := by
  induction n generalizing divisor out with
  | zero =>
    cases h
    rfl
  | succ n ih =>
    obtain ⟨ds, hds, rfl⟩ := putDigits_cons h
    rw [List.length_cons, ih hds]

theorem putDigits_ne_zero {w : World} {fl : Flags} {value n : ℕ} (hv : value < 2147483648)
    {divisor : ℤ} {out : Chars}
    (h : putDigits w fl.upper value (radix fl) n divisor = some out) : 0 ∉ out := by
  induction n generalizing divisor out with
  | zero =>
    cases h
    exact List.not_mem_nil
  | succ n ih =>
    obtain ⟨ds, hds, rfl⟩ := putDigits_cons h
    obtain ⟨hpos, hle⟩ := radix_bounds fl
    have hq : value / (divisor % 4294967296).toNat < 2147483648 :=
      (Nat.div_le_self _ _).trans_lt hv
    have h0 := Int.tmod_nonneg (radix fl)
      (Int.natCast_nonneg (value / (divisor % 4294967296).toNat))
    have h1 := Int.tmod_lt_of_pos ((value / (divisor % 4294967296).toNat : ℕ) : ℤ) hpos
    have hd := digit_ne_zero w fl.upper h0 (by omega)
    rw [i32_nonneg hq, List.mem_cons, not_or]
    exact ⟨hd.symm, ih hds⟩

theorem digitPrefix_ne_zero (fl : Flags) : 0 ∉ digitPrefix fl ∧ (digitPrefix fl).length ≤ 4 := by
  unfold digitPrefix
  split_ifs <;> decide

theorem putuint_digits {w : World} {value : ℕ} {fl : Flags} {out : Chars} (h0 : value ≠ 0)
    (h : putuint w value fl = some out) :
    ∃ ds, putDigits w fl.upper value (radix fl) ((scale (i32 value) (radix fl) 16 0 1).1 + 1)
      (scale (i32 value) (radix fl) 16 0 1).2 = some ds ∧ out = digitPrefix fl ++ ds := by
  rw [putuint, if_neg h0] at h
  obtain ⟨ds, hds, ht⟩ := Option.map_eq_some_iff.mp h
  exact ⟨ds, hds, ht.symm⟩

theorem scale_negative {value : ℤ} (hv : value < 0) (fl : Flags) :
    scale value (radix fl) 16 0 1 = (0, 1) := by
  have hr : int32 (1 * radix fl) = radix fl := by
    unfold radix
    split_ifs <;> decide
  have hlt : value < int32 (1 * radix fl) := by
    have hpos := (radix_bounds fl).1
    omega
  rw [scale, if_pos hlt]

theorem putuint_zero {w : World} {value : ℕ} (hv : value < 4294967296) {fl : Flags} {out : Chars}
    (h : putuint w value fl = some out) : 0 ∈ out ↔ Strays w value fl := by
  by_cases h0 : value = 0
  · subst h0
    cases h
    simp [Strays, i32_nonneg]
  obtain ⟨ds, hds, rfl⟩ := putuint_digits h0 h
  have hpre := (digitPrefix_ne_zero fl).1
  rw [List.mem_append, or_iff_right hpre]
  by_cases hlow : value < 2147483648
  · have hnn := Int.tmod_nonneg (radix fl) (Int.natCast_nonneg value)
    rw [← i32_nonneg hlow] at hnn
    exact iff_of_false (putDigits_ne_zero hlow hds) fun hs => absurd hs.1 (by omega)
  · have hneg : i32 value < 0 := by
      have hu : u32 value = value := u32_eq hv
      rw [i32, hu, if_neg hlow]
      omega
    rw [scale_negative hneg] at hds
    obtain ⟨es, hes, rfl⟩ := putDigits_cons hds
    cases hes
    have hone : value / ((1 : ℤ) % 4294967296).toNat = value := Nat.div_one value
    rw [hone, List.mem_singleton]
    by_cases hd : (i32 value).tmod (radix fl) < 0
    · rw [digit, if_neg (by omega), Strays]
      exact ⟨fun hz => ⟨hd, hz.symm⟩, fun hs => hs.2.symm⟩
    · obtain ⟨hpos, hle⟩ := radix_bounds fl
      have hlt := Int.tmod_lt_of_pos (i32 value) hpos
      have hd0 := digit_ne_zero w fl.upper (Int.not_lt.mp hd) (by omega)
      exact iff_of_false hd0.symm fun hs => hd hs.1

theorem i32_bounds (n : ℕ) : -2147483648 ≤ i32 n ∧ i32 n < 2147483648 := by
  have hu : u32 n < 4294967296 := Nat.mod_lt n (by decide)
  unfold i32
  split_ifs <;> omega

/-- A buffer after `out` was put, given what was found and what was added. -/
def written (out : Chars) (block added : ℕ → UInt8) (i : ℕ) : UInt8 :=
  if i < out.length then out.getD i 0 else if i < BUFSIZ then block i else added i

theorem puts_snoc (A : Realloc) (bs : Bytestream) (out : Chars) (c : UInt8) :
    puts A bs (out ++ [c]) = (bytestreamPut A (puts A bs out) c).2 := by
  simp [puts, List.foldl_append]

theorem written_snoc (out : Chars) (c : UInt8) (block added : ℕ → UInt8) :
    written (out ++ [c]) block added = Function.update (written out block added) out.length c := by
  funext i
  by_cases hi : i = out.length
  · subst hi
    simp [written]
  · rw [Function.update_of_ne hi, written, written, List.length_append]
    by_cases hlt : i < out.length
    · have hlt' : i < out.length + [c].length := by simp; omega
      rw [if_pos hlt, if_pos hlt', List.getD_append _ _ _ _ hlt]
    · have hlt' : ¬i < out.length + [c].length := by simp; omega
      rw [if_neg hlt, if_neg hlt']

/-- Only the memory that `malloc` found, and only as far as it was not written,
depends on `block`. -/
theorem puts_written (h : Heap) (n : ℕ) (out : Chars) :
    ∃ capacity added, out.length ≤ capacity ∧ BUFSIZ ≤ capacity ∧
      (out.length ≤ BUFSIZ → capacity = BUFSIZ) ∧ ∀ block, ∃ buf,
        puts (h.allocator n) (bytestreamCreate block BUFSIZ) out =
          ⟨buf, out.length, capacity, out.length⟩ ∧
        ∀ i < capacity, buf i = written out block added i := by
  induction out using List.reverseRecOn with
  | nil =>
    refine ⟨BUFSIZ, fun _ => 0, Nat.zero_le _, le_rfl, fun _ => rfl, fun block =>
      ⟨block, rfl, fun i hi => ?_⟩⟩
    have h0 : ¬i < ([] : Chars).length := Nat.not_lt_zero i
    rw [written, if_neg h0, if_pos hi]
  | append_singleton out c ih =>
    obtain ⟨capacity, added, hfit, hmin, hfresh, hall⟩ := ih
    have hlen : (out ++ [c]).length = out.length + 1 := by simp
    have hmax : max out.length (out.length + 1) = out.length + 1 := by omega
    rw [hlen]
    by_cases hfull : capacity ≤ out.length
    · -- what the grown buffer holds behind the old one is not from `block`
      refine ⟨capacity + BUFSIZ,
        fun i => if i < capacity then added i else h.grown n (capacity + BUFSIZ) i,
        by unfold BUFSIZ; omega, by omega, fun hle => by omega, fun block => ?_⟩
      obtain ⟨buf, hputs, hbuf⟩ := hall block
      refine ⟨_, by rw [puts_snoc, hputs, bytestreamPut_full _ hfull, hmax], fun i _ => ?_⟩
      rw [written_snoc]
      by_cases he : i = out.length
      · rw [he, Function.update_self, Function.update_self]
      rw [Function.update_of_ne he, Function.update_of_ne he]
      by_cases hi : i < capacity
      · have hadd : written out block (fun i => if i < capacity then added i
            else h.grown n (capacity + BUFSIZ) i) i = written out block added i := by
          simp only [written, if_pos hi]
        exact (if_pos hi).trans ((hbuf i hi).trans hadd.symm)
      · have hout : ¬i < out.length := by omega
        have hblock : ¬i < BUFSIZ := by omega
        rw [written, if_neg hout, if_neg hblock, if_neg hi]
        exact if_neg hi
    · refine ⟨capacity, added, by omega, hmin, fun hle => hfresh (by omega), fun block => ?_⟩
      obtain ⟨buf, hputs, hbuf⟩ := hall block
      refine ⟨Function.update buf out.length c, ?_, fun i hi => ?_⟩
      · rw [puts_snoc, hputs, bytestreamPut_room _ (Nat.not_le.mp hfull), hmax]
      · rw [written_snoc]
        by_cases he : i = out.length
        · rw [he, Function.update_self, Function.update_self]
        · rw [Function.update_of_ne he, Function.update_of_ne he, hbuf i hi]

theorem range_written {out : Chars} {capacity : ℕ} (h : out.length ≤ capacity)
    (block added : ℕ → UInt8) :
    (List.range capacity).map (written out block added) =
      out ++ (List.range (capacity - out.length)).map
        fun i => written out block added (out.length + i) := by
  obtain ⟨k, rfl⟩ := Nat.exists_eq_add_of_le h
  rw [Nat.add_sub_cancel_left, List.range_add, List.map_append, List.map_map]
  congr 1
  apply List.ext_getElem (by simp)
  intro i hi hi'
  rw [List.getElem_map, List.getElem_range, written, if_pos hi', List.getD_eq_getElem _ _ hi']

theorem puts_range (h : Heap) (n : ℕ) (out : Chars) :
    ∃ capacity added, out.length ≤ capacity ∧ (out.length ≤ BUFSIZ → capacity = BUFSIZ) ∧
      ∀ block, ∃ buf, puts (h.allocator n) (bytestreamCreate block BUFSIZ) out =
          ⟨buf, out.length, capacity, out.length⟩ ∧
        (List.range capacity).map buf = (List.range capacity).map (written out block added) := by
  obtain ⟨capacity, added, hfit, -, hfresh, hall⟩ := puts_written h n out
  refine ⟨capacity, added, hfit, hfresh, fun block => ?_⟩
  obtain ⟨buf, hputs, hbuf⟩ := hall block
  exact ⟨buf, hputs, List.map_congr_left fun i hi => hbuf i (List.mem_range.mp hi)⟩

theorem justify_length (cv : Conversion) (flen : ℕ) (s : Chars) :
    (justify cv flen s).length = (justify cv flen []).length + s.length := by
  unfold justify
  simp only
  split_ifs <;> simp [Nat.add_comm]

theorem putField_justify (h : Heap) (n : ℕ) (cv : Conversion) (out : Chars) :
    ∃ capacity added flen, out.length ≤ capacity ∧
      (out.length ≤ BUFSIZ → capacity = BUFSIZ) ∧ ∀ block, putField h n block cv out =
        justify cv flen (content
          ((List.range capacity).map (written out block added) ++ h.behind n capacity)) := by
  obtain ⟨capacity, added, hfit, hfresh, hall⟩ := puts_range h n out
  refine ⟨capacity, added, flen ⟨fun _ => 0, out.length, 0, 0⟩, hfit, hfresh, fun block => ?_⟩
  obtain ⟨buf, hputs, hmap⟩ := hall block
  rw [putField, hputs, ← hmap]
  rfl

end Jiauliyan.FormatHeap
