import Jiauliyan.FieldWidth
import Jiauliyan.PutUint
import Jiauliyan.Sprintf

namespace Jiauliyan.FormatReturn

open Jiauliyan.Memory Jiauliyan.CString Jiauliyan.StringCompare Jiauliyan.Bytestreams
open Jiauliyan.Format Jiauliyan.FormatHeap Jiauliyan.PutUint Jiauliyan.FieldWidth
open Jiauliyan.FileOps Jiauliyan.Sprintf

/-- An integer conversion that divides by zero. -/
def Overscaled (cv : Conversion) : Prop :=
  match cv.value with
  | .int v => DividesByZero cv.flags (i32 v.toNat).natAbs
  | .uint v => DividesByZero cv.flags v.toNat
  | _ => False

/-- A conversion that puts nothing, where `malloc` has found `found`: its text is empty and a
terminator stands there, or it is a NUL. -/
def Quiet (w : World) (found : UInt8) (cv : Conversion) : Prop :=
  match cv.value with
  | .string p => p ≠ 0 ∧ content (w.string p) = [] ∧ found = 0
  | .char c => c = 0 ∧ cv.width = 0
  | .int _ => False
  | .uint v => digitPrefix cv.flags = [] ∧ Strays w v.toNat cv.flags ∧ cv.width = 0
  | .double bytes =>
    (w.formatDouble bytes cv.precision cv.flags).map content = some [] ∧ found = 0

/-- There are conversions only, and all of them are quiet. -/
def Silent (w : World) (block : ℕ → ℕ → UInt8) : ℕ → List Item → Prop
  | _, [] => True
  | _, .char _ :: _ => False
  | n, .call _ none :: items => Silent w block n items
  | n, .call _ (some cv) :: items => Quiet w (block n 0) cv ∧ Silent w block (n + 1) items

def Unformatted (w : World) (cv : Conversion) : Prop :=
  match cv.value with
  | .double bytes => w.formatDouble bytes cv.precision cv.flags = none
  | _ => False

/-- The value returned is the number of bytes put, for `stream_vformat` and for its callers. -/
structure Counts (a : Arguments) : Prop where
  vformat : (streamVformat a).2 = some ((streamVformat a).1.length : ℤ)
  vfprintf : ∀ {σ : Type} (fn : Functions σ) (f : FILE σ) (st : StreamS σ), f.stream = some st →
    (∀ c data, (fn.put c data).isSome) → ∃ f', vfprintf fn a f = .ok (a.output.bytes.length, f')
  vsprintf : ∀ A found behind str,
    ∃ p, vsprintf A found behind a str = some p ∧ p.ret = a.output.bytes.length

theorem field_none_iff (w : World) (cv : Conversion) :
    field w cv = none ↔ Overscaled cv ∨ Unformatted w cv := by
  unfold field Overscaled Unformatted
  cases cv.value with
  | string p => simp
  | char c => simp
  | double bytes => simp
  | uint v =>
    simp only [or_false]
    exact putuint_none_iff w v.toNat_lt cv.flags
  | int v =>
    obtain ⟨hlo, hhi⟩ := i32_bounds v.toNat
    simp only [putint, or_false]
    by_cases hneg : i32 v.toNat < 0
    · have habs : (-i32 v.toNat % 4294967296).toNat = (i32 v.toNat).natAbs := by omega
      rw [if_pos hneg, Option.map_eq_none_iff, habs]
      exact putuint_none_iff w (by omega) cv.flags
    · have habs : (i32 v.toNat).toNat = (i32 v.toNat).natAbs := by omega
      rw [if_neg hneg, habs]
      exact putuint_none_iff w (by omega) cv.flags

section Field

variable (h : Heap) (n : ℕ) (block : ℕ → UInt8) {cv : Conversion} {out : Chars} {w : World}

theorem fstr_nil_iff (out : Chars) :
    fstr h n (puts (h.allocator n) (bytestreamCreate block BUFSIZ) out) = [] ↔
      (out ++ [block 0]).head? = some 0 := by
  obtain ⟨capacity, added, hfit, hmin, -, hall⟩ := puts_written h n out
  obtain ⟨buf, hputs, hbuf⟩ := hall block
  obtain ⟨k, hk⟩ : ∃ k, capacity = k + 1 := ⟨capacity - 1, by unfold BUFSIZ at hmin; omega⟩
  have hfirst : buf 0 = (out ++ [block 0]).headD 0 := by
    rw [hbuf 0 (by omega), FormatHeap.written]
    cases out with
    | nil => simp [BUFSIZ]
    | cons c out => simp
  have hhead : (out ++ [block 0]).head? = some (buf 0) := by
    rw [hfirst]
    cases out <;> rfl
  have hdata : fstr h n (puts (h.allocator n) (bytestreamCreate block BUFSIZ) out) =
      content (buf 0 :: ((List.range k).map (fun i => buf (i + 1)) ++ h.behind n capacity)) := by
    rw [hputs, fstr, hk, List.range_succ_eq_map, List.map_cons, List.map_map]
    rfl
  rw [hdata, hhead, Option.some.injEq]
  by_cases h0 : buf 0 = 0
  · simp [content, h0]
  · simp [content, h0]

theorem justify_nil_iff (flen : ℕ) (text : Chars) :
    justify cv flen text = [] ↔ cv.width ≤ flen ∧ text = [] := by
  unfold justify
  by_cases hshort : flen < cv.width
  · have hpad : cv.width - flen ≠ 0 := by omega
    rw [if_pos hshort]
    refine iff_of_false (fun hnil => ?_) fun hle => absurd hle.1 (by omega)
    by_cases hleft : cv.flags.left = true
    · simp only [if_pos hleft, List.append_eq_nil_iff, List.replicate_eq_nil_iff] at hnil
      exact hpad hnil.2
    · simp only [if_neg hleft, List.append_eq_nil_iff, List.replicate_eq_nil_iff] at hnil
      exact hpad hnil.1
  · rw [if_neg hshort]
    exact (and_iff_right (by omega)).symm

theorem putField_nil_iff (out : Chars) : putField h n block cv out = [] ↔
    cv.width ≤ textLength out ∧ (out ++ [block 0]).head? = some 0 := by
  rw [← fstr_nil_iff h n block, putField, flen_puts, justify_nil_iff]

theorem head_no_zero (hz : 0 ∉ out) (hne : out ≠ []) (c : UInt8) :
    (out ++ [c]).head? ≠ some 0 := by
  cases out with
  | nil => exact absurd rfl hne
  | cons d out =>
    intro h0
    exact hz (List.mem_cons.mpr (.inl (Option.some.inj h0).symm))

theorem content_quiet {text : Chars} (hw : cv.width < 4294967296) (c : UInt8) :
    (cv.width ≤ textLength (content text) ∧ (content text ++ [c]).head? = some 0) ↔
      content text = [] ∧ c = 0 := by
  by_cases hnil : content text = []
  · have hlen : textLength [] = 4294967295 := rfl
    rw [hnil, hlen]
    simp only [List.nil_append, List.head?_cons, Option.some.injEq, true_and]
    exact and_iff_right (by omega)
  · exact iff_of_false (fun hq => head_no_zero (content_no_zero text) hnil c hq.2)
      fun hq => hnil hq.1

theorem putuint_quiet {value : ℕ} (hv : value < 4294967296) {fl : Flags}
    (hout : putuint w value fl = some out) (c : UInt8) (width : ℕ) :
    (width ≤ textLength out ∧ (out ++ [c]).head? = some 0) ↔
      digitPrefix fl = [] ∧ Strays w value fl ∧ width = 0 := by
  have hzero := putuint_zero hv hout
  by_cases hs : Strays w value fl
  · have h0 : value ≠ 0 := by
      rintro rfl
      simp [Strays, i32_nonneg] at hs
    have hneg : i32 value < 0 := by
      by_contra hpos
      have hmod := Int.tmod_nonneg (radix fl) (not_lt.mp hpos)
      exact absurd hs.1 (not_lt.mpr hmod)
    obtain ⟨ds, hds, rfl⟩ := putuint_digits h0 hout
    rw [scale_negative hneg] at hds
    have hlen := putDigits_length hds
    obtain ⟨d, rfl⟩ := List.length_eq_one_iff.mp hlen
    have hpre := (digitPrefix_ne_zero fl).1
    have hd : d = 0 := by
      have hmem := hzero.mpr hs
      rw [List.mem_append, or_iff_right hpre, List.mem_singleton] at hmem
      exact hmem.symm
    subst hd
    cases hfront : digitPrefix fl with
    | nil =>
      have hone : textLength [0] = 0 := rfl
      rw [List.nil_append, hone, Nat.le_zero]
      simp [hs]
    | cons e es =>
      rw [hfront] at hpre
      refine iff_of_false (fun hq => hpre ?_) fun hq => absurd hq.1 (List.cons_ne_nil _ _)
      exact List.mem_cons.mpr (.inl (Option.some.inj hq.2).symm)
  · refine iff_of_false (fun hq => ?_) fun hq => hs hq.2.1
    have hz : 0 ∉ out := fun hmem => hs (hzero.mp hmem)
    refine head_no_zero hz (fun hnil => ?_) c hq.2
    subst hnil
    by_cases h0 : value = 0
    · rw [putuint, if_pos h0] at hout
      cases hout
    · obtain ⟨ds, hds, hds'⟩ := putuint_digits h0 hout
      have hlen := putDigits_length hds
      rw [(List.append_eq_nil_iff.mp hds'.symm).2] at hlen
      simp at hlen

theorem quiet_iff (hw : cv.width < 4294967296) (hout : field w cv = some out) :
    putField h n block cv out = [] ↔ Quiet w (block 0) cv := by
  rw [putField_nil_iff]
  unfold field at hout
  unfold Quiet
  cases hv : cv.value with
  | string p =>
    simp only [hv, Option.some.injEq] at hout ⊢
    subst hout
    rw [content_quiet hw]
    by_cases hp : p = 0
    · rw [if_pos hp]
      exact iff_of_false (fun hq => absurd hq.1 (by decide)) fun hq => hq.1 hp
    · rw [if_neg hp]
      simp [hp]
  | char c =>
    simp only [hv, Option.some.injEq] at hout ⊢
    subst hout
    have hone : textLength [c] = 0 := rfl
    rw [hone, Nat.le_zero, and_comm]
    simp
  | double bytes =>
    simp only [hv] at hout ⊢
    obtain ⟨string, hs, rfl⟩ := Option.map_eq_some_iff.mp hout
    rw [content_quiet hw, hs, Option.map_some, Option.some.injEq]
  | uint v =>
    simp only [hv] at hout ⊢
    exact putuint_quiet v.toNat_lt hout (block 0) cv.width
  | int v =>
    simp only [hv] at hout ⊢
    refine iff_of_false (fun hq => ?_) id
    obtain ⟨hlo, hhi⟩ := i32_bounds v.toNat
    by_cases hneg : i32 v.toNat < 0
    · rw [putint, if_pos hneg] at hout
      obtain ⟨ds, -, rfl⟩ := Option.map_eq_some_iff.mp hout
      have h45 : (45 : UInt8) = 0 := Option.some.inj hq.2
      exact absurd h45 (by decide)
    · rw [putint, if_neg hneg] at hout
      obtain ⟨-, hs, -⟩ := (putuint_quiet (by omega) hout (block 0) cv.width).mp hq
      have hi : i32 (i32 v.toNat).toNat = (i32 v.toNat).toNat := i32_nonneg (by omega)
      have hmod := Int.tmod_nonneg (radix cv.flags) (Int.natCast_nonneg (i32 v.toNat).toNat)
      rw [← hi] at hmod
      exact absurd hs.1 (not_lt.mpr hmod)

end Field

theorem atoi_lt (nptr : Chars) : atoi nptr < 4294967296 := by
  unfold atoi
  cases nptr.takeWhile isdigit using List.reverseRecOn with
  | nil => decide
  | append_singleton ds d =>
    rw [List.foldl_append]
    exact Nat.mod_lt _ (by decide)

theorem load32_lt (m : Mem) (a : ℕ) : load32 m a < 4294967296 := by
  have h0 := (m a).toNat_lt
  have h1 := (m (a + 1)).toNat_lt
  have h2 := (m (a + 2)).toNat_lt
  have h3 := (m (a + 3)).toNat_lt
  unfold load32
  omega

theorem readWidth_lt (m : Mem) (va : VaList) (fmt : Chars) :
    (readWidth m va fmt).1 < 4294967296 := by
  cases fmt with
  | nil => exact Nat.zero_lt_succ _
  | cons c fmt =>
    rw [readWidth]
    split_ifs
    · exact load32_lt m va.ap
    · exact atoi_lt _
    · exact Nat.zero_lt_succ _

theorem readArg_complete {m : Mem} {va va' : VaList} {fmt rest : Chars} {cv : Conversion}
    (h : readArg m va fmt = (va', some (cv, rest))) :
    ∃ fl t va₂ precision u length c kind fl',
      readFlags noFlags fmt = some (fl, t) ∧
      readPrecision m (readWidth m va t).2.1 (readWidth m va t).2.2 =
        (va₂, some (precision, u)) ∧
      readLength u = some (length, c :: rest) ∧ readType c fl = some (kind, fl') ∧
      cv = ⟨fl', (readWidth m va t).1, precision, (readValue m va₂ length kind).1⟩ ∧
      va' = (readValue m va₂ length kind).2 := by
  unfold readArg at h
  split at h
  · cases h
  · rename_i fl t hflags
    dsimp only at h
    split at h
    · cases h
    · rename_i va₂ precision u hprecision
      split at h
      · cases h
      · cases h
      · rename_i length c rest' hlength
        split at h
        · cases h
        · rename_i kind fl' htype
          cases h
          exact ⟨fl, t, va₂, precision, u, length, c, kind, fl', hflags, hprecision, hlength,
            htype, rfl, rfl⟩

theorem readArg_width {m : Mem} {va va' : VaList} {fmt rest : Chars} {cv : Conversion}
    (h : readArg m va fmt = (va', some (cv, rest))) : cv.width < 4294967296 := by
  obtain ⟨fl, t, va₂, precision, u, length, c, kind, fl', -, -, -, -, rfl, -⟩ :=
    readArg_complete h
  exact readWidth_lt m va t

theorem scan_width (m : Mem) (skip : ℕ) (fmt : Chars) (ap : ℕ) :
    ∀ va cv, .call va (some cv) ∈ scan m skip fmt ap → cv.width < 4294967296 := by
  induction fmt generalizing skip ap with
  | nil => cases skip <;> exact fun va cv hmem => absurd hmem List.not_mem_nil
  | cons c fmt ih =>
    intro va cv hmem
    cases skip with
    | succ skip => exact ih skip ap va cv hmem
    | zero =>
      rw [scan] at hmem
      split_ifs at hmem with h0 hp
      · exact absurd hmem List.not_mem_nil
      · obtain hmem | hmem := List.mem_cons.mp hmem
        · cases hmem
        · exact ih 0 ap va cv hmem
      · obtain ⟨⟨va', r⟩, hr⟩ : ∃ q, readArg m ⟨ap, []⟩ fmt = q := ⟨_, rfl⟩
        cases r with
        | none =>
          rw [hr] at hmem
          obtain hmem | hmem := List.mem_cons.mp hmem
          · cases hmem
          · exact ih 0 va'.ap va cv hmem
        | some r =>
          obtain ⟨cv', rest⟩ := r
          rw [hr] at hmem
          obtain hmem | hmem := List.mem_cons.mp hmem
          · cases hmem
            exact readArg_width hr
          · exact ih _ va'.ap va cv hmem

theorem Quiet.is_put {w : World} {found : UInt8} {cv : Conversion} (h : Quiet w found cv) :
    ¬(Overscaled cv ∨ Unformatted w cv) := by
  unfold Quiet at h
  unfold Overscaled Unformatted
  cases hv : cv.value with
  | string p => simp
  | char c => simp
  | double bytes =>
    simp only [hv] at h ⊢
    rw [false_or]
    intro hn
    rw [hn] at h
    cases h.1
  | int v =>
    simp only [hv] at h
  | uint v =>
    simp only [hv, or_false] at h ⊢
    intro hd
    have hmod := Int.tmod_nonneg (radix cv.flags) (Int.natCast_nonneg v.toNat)
    rw [← i32_nonneg hd.2] at hmod
    exact absurd h.2.1.1 (not_lt.mpr hmod)

theorem emit_nil_iff (w : World) (h : Heap) (block : ℕ → ℕ → UInt8) {items : List Item}
    (hw : ∀ va cv, .call va (some cv) ∈ items → cv.width < 4294967296) (n : ℕ) :
    emit w h block n items = ⟨[], false⟩ ↔ Silent w block n items := by
  induction items generalizing n with
  | nil => exact iff_of_true rfl trivial
  | cons item items ih =>
    have hrest := fun va cv hmem => hw va cv (List.mem_cons_of_mem item hmem)
    cases item with
    | char c => simp [emit, Silent, Output.after]
    | call va cv =>
      cases cv with
      | none => exact ih hrest n
      | some cv =>
        have hwidth := hw va cv List.mem_cons_self
        cases hf : field w cv with
        | none =>
          have hover := (field_none_iff w cv).mp hf
          simp only [emit, hf, Silent]
          refine iff_of_false (fun heq => ?_) fun hs => hs.1.is_put hover
          cases heq
        | some out =>
          have hquiet := quiet_iff h n (block n) hwidth hf
          have hnext := ih hrest (n + 1)
          simp only [emit, hf, Silent, ← hquiet, ← hnext, Output.after, Output.mk.injEq,
            List.append_eq_nil_iff]
          cases emit w h block (n + 1) items
          simp [and_assoc]

theorem counts_output (a : Arguments) : Counts a ↔ a.output = ⟨[], false⟩ := by
  constructor
  · intro hc
    have hret := hc.vformat
    rw [streamVformat] at hret
    generalize a.output = o at hret ⊢
    obtain ⟨bytes, fault⟩ := o
    cases fault with
    | true => cases hret
    | false =>
      have hzero : (bytes.length : ℤ) = 0 := (Option.some.inj hret).symm
      have hnil : bytes = [] := List.length_eq_zero_iff.mp (by exact_mod_cast hzero)
      rw [hnil]
  · intro hout
    have hcall : streamVformat a = ([], some 0) := by rw [streamVformat, hout]; rfl
    have hzero : ((a.output.bytes.length : ℕ) : ℤ) = 0 := by rw [hout]; rfl
    refine ⟨by rw [hcall]; rfl, fun fn f st hst _ => ?_, fun A found behind str => ?_⟩
    · refine ⟨{ f with stream := some st }, ?_⟩
      rw [hzero, FileOps.vfprintf, hst, hout]
      rfl
    · rw [hzero, Sprintf.vsprintf, hcall]
      exact ⟨_, rfl, rfl⟩

/-- The count is right exactly for formats that put nothing. -/
theorem vformat_counts_iff (a : Arguments) :
    Counts a ↔ Silent a.world a.block 0 (scan a.mem 0 a.format a.ap) := by
  rw [counts_output, Arguments.output, vformat_eq]
  exact emit_nil_iff a.world a.heap a.block (scan_width a.mem 0 a.format a.ap) 0

/-- "a" puts one byte, and 0 is returned. -/
theorem vformat_miscounts : ¬Counts ⟨⟨fun _ => [], fun _ _ => 0, fun _ _ _ => some []⟩, fun _ => 0,
    ⟨fun _ _ _ => 0, fun _ _ => []⟩, fun _ _ => 0, [97, 0], 0⟩ := by
  intro hc
  have hret := hc.vformat
  exact absurd hret (by decide)

end Jiauliyan.FormatReturn
