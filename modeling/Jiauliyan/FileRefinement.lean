import Mathlib.Data.List.Nodup
import Mathlib.Tactic.SplitIfs
import Jiauliyan.FileMap

namespace Jiauliyan.FileRefinement

open Jiauliyan.StringCompare Jiauliyan.Stdio Jiauliyan.FileMap

variable {A : Allocator} {created : List Chars} {fs : Filesystem} {contents : Contents}

structure Backs (e : FileEntry) (w : Writes) : Prop where
  room : e.size ≤ e.max
  data : ∀ k, lastWritten w k = if k < e.size then some (e.data k) else none

/-- The table holds the files of the map, each under its name, in the order in
which they were made. -/
structure Stored (created : List Chars) (fs : Filesystem) (contents : Contents) : Prop where
  allocated : fs.allocated = created.length
  root : ∀ i, fs.root i = if i < created.length then some i else none
  nodup : created.Nodup
  named : ∀ i (hi : i < created.length), content (fs.entries i).name = created[i]
  backed : ∀ i (hi : i < created.length),
    ∃ w, contents created[i] = some w ∧ Backs (fs.entries i) w
  absent : ∀ n, n ∉ created → contents n = none

/-- A `FILE` stands where its handle stands, in the entry of the handle's name. -/
structure Linked (created : List Chars) (contents : Contents) (f : File) (h : Handle) :
    Prop where
  hold : f.hold = EOF
  closed : f.stream = none ↔ h.closed = true
  opened : ∀ st, f.stream = some st → created[st.entry]? = some h.name ∧ st.pos = h.pos ∧
    ∃ w, contents h.name = some w ∧ ∀ k < h.pos, (lastWritten w k).isSome

structure Refines (created : List Chars) (fs : Filesystem) (s : Store) : Prop where
  stored : Stored created fs s.contents
  count : fs.files.length = s.handles.length
  linked : ∀ (i : ℕ) f h, fs.files[i]? = some f → s.handles[i]? = some h →
    Linked created s.contents f h

def Grows (contents contents' : Contents) : Prop :=
  ∀ n w, contents n = some w →
    ∃ w', contents' n = some w' ∧ ∀ k, (lastWritten w k).isSome → (lastWritten w' k).isSome

theorem Linked.grow {contents' : Contents} {f : File} {h : Handle}
    (hl : Linked created contents f h) (hg : Grows contents contents') :
    Linked created contents' f h := by
  refine ⟨hl.hold, hl.closed, fun st hst => ?_⟩
  obtain ⟨hname, hpos, w, hw, hk⟩ := hl.opened st hst
  obtain ⟨w', hw', hk'⟩ := hg _ _ hw
  exact ⟨hname, hpos, w', hw', fun k hlt => hk' k (hk k hlt)⟩

section Loops

variable {σ τ : Type*} {R : σ → τ → Prop}

theorem freadItem_sim {get : σ → ℤ × σ} {get' : τ → ℤ × τ}
    (hget : ∀ s t, R s t → (get s).1 = (get' t).1 ∧ R (get s).2 (get' t).2) (n : ℕ) (b : ℤ)
    {s : σ} {t : τ} (h : R s t) :
    (freadItem get n b s).1 = (freadItem get' n b t).1 ∧
      (freadItem get n b s).2.1 = (freadItem get' n b t).2.1 ∧
      R (freadItem get n b s).2.2 (freadItem get' n b t).2.2 := by
  induction n generalizing b s t with
  | zero => exact ⟨rfl, rfl, h⟩
  | succ n ih =>
    obtain ⟨hb, hR⟩ := hget s t h
    simp only [freadItem, hb]
    by_cases he : (get' t).1 = EOF
    · simp only [he, if_true]
      exact ⟨trivial, trivial, hR⟩
    · simp only [he, if_false]
      obtain ⟨h1, h2, h3⟩ := ih (get' t).1 hR
      exact ⟨h1, by rw [h2], h3⟩

theorem fread_sim {get : σ → ℤ × σ} {get' : τ → ℤ × τ}
    (hget : ∀ s t, R s t → (get s).1 = (get' t).1 ∧ R (get s).2 (get' t).2) (size n : ℕ) (b : ℤ)
    {s : σ} {t : τ} (h : R s t) :
    (fread get size n b s).1 = (fread get' size n b t).1 ∧
      (fread get size n b s).2.1 = (fread get' size n b t).2.1 ∧
      R (fread get size n b s).2.2 (fread get' size n b t).2.2 := by
  induction n generalizing b s t with
  | zero => exact ⟨rfl, rfl, h⟩
  | succ n ih =>
    obtain ⟨hb, hp, hR⟩ := freadItem_sim hget size b h
    simp only [fread, hb, hp]
    by_cases he : (freadItem get' size b t).1 = EOF
    · simp only [he, if_true]
      exact ⟨trivial, trivial, hR⟩
    · simp only [he, if_false]
      obtain ⟨h1, h2, h3⟩ := ih (freadItem get' size b t).1 hR
      exact ⟨by rw [h1], by rw [h2], h3⟩

theorem fwriteItem_sim {put : ℤ → σ → ℤ × σ} {put' : ℤ → τ → ℤ × τ}
    (hput : ∀ c s t, R s t → (put c s).1 = (put' c t).1 ∧ R (put c s).2 (put' c t).2)
    (p : ℕ → UInt8) (i k : ℕ) (b : ℤ) {s : σ} {t : τ} (h : R s t) :
    (fwriteItem put p i k b s).1 = (fwriteItem put' p i k b t).1 ∧
      R (fwriteItem put p i k b s).2 (fwriteItem put' p i k b t).2 := by
  induction k generalizing i b s t with
  | zero => exact ⟨rfl, h⟩
  | succ k ih =>
    obtain ⟨hb, hR⟩ := hput (p i).toNat s t h
    simp only [fwriteItem, hb]
    by_cases he : (put' (p i).toNat t).1 = EOF
    · simp only [he, if_true]
      exact ⟨trivial, hR⟩
    · simp only [he, if_false]
      exact ih (i + 1) _ hR

theorem fwrite_sim {put : ℤ → σ → ℤ × σ} {put' : ℤ → τ → ℤ × τ}
    (hput : ∀ c s t, R s t → (put c s).1 = (put' c t).1 ∧ R (put c s).2 (put' c t).2)
    (p : ℕ → UInt8) (size i n : ℕ) (b : ℤ) {s : σ} {t : τ} (h : R s t) :
    (fwrite put p size i n b s).1 = (fwrite put' p size i n b t).1 ∧
      R (fwrite put p size i n b s).2 (fwrite put' p size i n b t).2 := by
  induction n generalizing i b s t with
  | zero => exact ⟨rfl, h⟩
  | succ n ih =>
    obtain ⟨hb, hR⟩ := fwriteItem_sim hput p (i * size) size b h
    simp only [fwrite, hb]
    by_cases he : (fwriteItem put' p (i * size) size b t).1 = EOF
    · simp only [he, if_true]
      exact ⟨trivial, hR⟩
    · simp only [he, if_false]
      exact ih (i + 1) _ hR

end Loops

section Characters

theorem Stored.under {f : File} {h : Handle} {st : Stream} (hs : Stored created fs contents)
    (hl : Linked created contents f h) (hst : f.stream = some st) :
    ∃ w, ∃ hi : st.entry < created.length, created[st.entry] = h.name ∧
      contents h.name = some w ∧ Backs (fs.entries st.entry) w ∧ st.pos = h.pos ∧
      h.pos ≤ (fs.entries st.entry).size := by
  obtain ⟨hname, hpos, w, hw, hk⟩ := hl.opened st hst
  obtain ⟨hi, hget⟩ := List.getElem?_eq_some_iff.mp hname
  obtain ⟨w', hw', hback⟩ := hs.backed st.entry hi
  rw [hget, hw] at hw'
  cases hw'
  refine ⟨w, hi, hget, hw, hback, hpos, ?_⟩
  by_contra hlt
  have hsome := hk _ (Nat.lt_of_not_le hlt)
  rw [hback.data, if_neg (Nat.lt_irrefl _)] at hsome
  cases hsome

theorem closed_iff {f : File} {h : Handle} {st : Stream} (hl : Linked created contents f h)
    (hst : f.stream = some st) : h.closed = false := by
  cases hc : h.closed with
  | false => rfl
  | true =>
    rw [hl.closed.mpr hc] at hst
    cases hst

theorem fgetc_linked {f : File} {h : Handle} (hs : Stored created fs contents)
    (hl : Linked created contents f h) :
    (fgetc fs f).1 = (readByte contents h).1 ∧
      Linked created contents (fgetc fs f).2 (readByte contents h).2 := by
  cases hst : f.stream with
  | none =>
    have hc := hl.closed.mp hst
    simp only [fgetc, readByte, hst, hc, if_true]
    exact ⟨trivial, hl⟩
  | some st =>
    obtain ⟨w, hi, hname, hw, hback, hpos, hle⟩ := hs.under hl hst
    obtain ⟨hcreated, -, w', hw', hk⟩ := hl.opened st hst
    have hc := closed_iff hl hst
    simp only [fgetc, readByte, hst, hc, hl.hold, hw, fileEntryGet, hpos, ne_eq,
      not_true_eq_false, if_false, Option.bind_some, Bool.false_eq_true, hback.data]
    by_cases hend : (fs.entries st.entry).size ≤ h.pos
    · simp only [hend, Nat.not_lt_of_le hend, if_true, if_false]
      refine ⟨trivial, rfl, ?_, fun st' hst' => ?_⟩
      · simp [hc]
      · cases hst'
        exact ⟨hcreated, hpos, w', hw', hk⟩
    · have hlt : h.pos < (fs.entries st.entry).size := Nat.lt_of_not_le hend
      simp only [hend, hlt, if_true, if_false]
      refine ⟨trivial, rfl, ?_, fun st' hst' => ?_⟩
      · simp
      · cases hst'
        refine ⟨hcreated, rfl, w, hw, fun k hk => ?_⟩
        rw [hback.data, if_pos (Nat.lt_of_lt_of_le hk hlt)]
        rfl

theorem expand_backs {e : FileEntry} {w : Writes} {pos : ℕ} (hb : Backs e w) (hpos : pos ≤ e.size) :
    Backs (expand A pos e) w ∧ pos < (expand A pos e).max ∧ (expand A pos e).name = e.name ∧
      (expand A pos e).size = e.size := by
  have hroom := hb.room
  unfold expand
  by_cases hfull : e.max ≤ pos
  · rw [if_pos hfull]
    refine ⟨⟨by simp only; omega, fun k => ?_⟩, by simp only; omega, rfl, rfl⟩
    rw [hb.data k]
    by_cases hk : k < e.size
    · simp only [hk, if_true]
      rw [A.keeps e.data _ _ k (by omega) (by omega)]
    · simp only [hk, if_false]
  · rw [if_neg hfull]
    exact ⟨hb, Nat.lt_of_not_le hfull, rfl, rfl⟩

theorem Backs.put {e : FileEntry} {w : Writes} {pos : ℕ} (hb : Backs e w) (hpos : pos ≤ e.size)
    (hmax : pos < e.max) (c : UInt8) :
    Backs { e with
      size := if e.size < pos + 1 then pos + 1 else e.size
      data := Function.update e.data pos c } ((pos, c) :: w) := by
  have hroom := hb.room
  constructor
  · simp only
    split_ifs <;> omega
  · intro k
    rw [lastWritten_cons]
    by_cases hk : k = pos
    · subst hk
      have hlt : k < if e.size < k + 1 then k + 1 else e.size := by split_ifs <;> omega
      simp only [hlt, if_true, Function.update_self]
    · have hiff : (k < if e.size < pos + 1 then pos + 1 else e.size) ↔ k < e.size := by
        split_ifs <;> omega
      simp only [hk, hiff, if_false, Function.update_of_ne hk, hb.data]

theorem lastWritten_kept {w : Writes} (pos : ℕ) (c : UInt8) {k : ℕ}
    (h : (lastWritten w k).isSome) : (lastWritten ((pos, c) :: w) k).isSome := by
  rw [lastWritten_cons]
  split_ifs
  · rfl
  · exact h

theorem Stored.update {i : ℕ} {name : Chars} {e : FileEntry} {w : Writes}
    (hs : Stored created fs contents) (hi : i < created.length) (hname : created[i] = name)
    (hb : Backs e w) (hn : content e.name = created[i]) :
    Stored created { fs with entries := Function.update fs.entries i e }
      (Function.update contents name (some w)) := by
  subst hname
  refine ⟨hs.allocated, hs.root, hs.nodup, fun j hj => ?_, fun j hj => ?_, fun n hn' => ?_⟩
  · by_cases hji : j = i
    · subst hji
      simp only [Function.update_self, hn]
    · simp only [Function.update_of_ne hji]
      exact hs.named j hj
  · by_cases hji : j = i
    · subst hji
      simp only [Function.update_self]
      exact ⟨w, rfl, hb⟩
    · have hne : created[j] ≠ created[i] := fun heq => hji ((hs.nodup.getElem_inj_iff).mp heq)
      simp only [Function.update_of_ne hji, Function.update_of_ne hne]
      exact hs.backed j hj
  · have hne : n ≠ created[i] := fun heq => hn' (heq ▸ List.getElem_mem hi)
    rw [Function.update_of_ne hne]
    exact hs.absent n hn'

theorem fputc_linked (A : Allocator) (c : ℤ) {f : File} {h : Handle}
    (hs : Stored created fs contents) (hl : Linked created contents f h) :
    (fputc A c (fs, f)).1 = (writeByte c (contents, h)).1 ∧
      Stored created (fputc A c (fs, f)).2.1 (writeByte c (contents, h)).2.1 ∧
      Linked created (writeByte c (contents, h)).2.1 (fputc A c (fs, f)).2.2
        (writeByte c (contents, h)).2.2 ∧
      Grows contents (writeByte c (contents, h)).2.1 ∧
      (fputc A c (fs, f)).2.1.files = fs.files := by
  cases hst : f.stream with
  | none =>
    have hc := hl.closed.mp hst
    simp only [fputc, writeByte, hst, hc, if_true]
    exact ⟨trivial, hs, hl, fun n w hw => ⟨w, hw, fun _ hk => hk⟩, trivial⟩
  | some st =>
    obtain ⟨w, hi, hname, hw, hback, hpos, hle⟩ := hs.under hl hst
    obtain ⟨hcreated, -, w', hw', hk⟩ := hl.opened st hst
    rw [hw, Option.some.injEq] at hw'
    subst hw'
    have hc := closed_iff hl hst
    obtain ⟨hbig, hroom, hsame, hsize⟩ := expand_backs (A := A) hback hle
    have hput := hbig.put (hsize ▸ hle) hroom (byteOf c)
    have hstored := hs.update hi hname hput ((congrArg content hsame).trans (hs.named _ hi))
    simp only [fputc, writeByte, hst, hc, hw, fileEntryPut, hpos, Bool.false_eq_true, if_false,
      Option.map_some]
    refine ⟨trivial, hstored, ⟨hl.hold, ?_, fun st' hst' => ?_⟩, fun n old hn => ?_, trivial⟩
    · simp
    · cases hst'
      refine ⟨hcreated, rfl, _, Function.update_self .., fun k hlt => ?_⟩
      by_cases hkp : k = h.pos
      · rw [lastWritten_cons, if_pos hkp]
        rfl
      · exact lastWritten_kept _ _ (hk k (by simp only at hlt; omega))
    · by_cases hne : n = h.name
      · subst hne
        rw [hw] at hn
        cases hn
        exact ⟨_, Function.update_self .., fun k => lastWritten_kept _ _⟩
      · exact ⟨old, by rw [Function.update_of_ne hne]; exact hn, fun _ hsome => hsome⟩

theorem fclose_linked {f : File} {h : Handle} (hl : Linked created contents f h) :
    (fclose f).1 = (closeHandle h).1 ∧ Linked created contents (fclose f).2 (closeHandle h).2 := by
  cases hst : f.stream with
  | none =>
    have hc := hl.closed.mp hst
    simp only [fclose, closeHandle, hst, hc, if_true]
    exact ⟨trivial, hl⟩
  | some st =>
    have hc := closed_iff hl hst
    simp only [fclose, closeHandle, hst, hc, Bool.false_eq_true, if_false]
    exact ⟨trivial, hl.hold, by simp, fun st' hst' => nomatch hst'⟩

end Characters

section Opening

variable {name : Chars} {i : ℕ}

theorem matches_iff (hs : Stored created fs contents) (hz : 0 ∉ name) :
    (match fs.root i with
      | none => false
      | some p => strcmp (fs.entries p).name (name ++ [0]) == 0) = true ↔
      ∃ hi : i < created.length, name <+: created[i] := by
  rw [hs.root i]
  by_cases hi : i < created.length
  · simp only [hi, if_true, beq_iff_eq, exists_true_left]
    rw [strcmp_eq_zero, hs.named i hi, content_terminated hz]
  · simp [hi]

theorem findEntry_some (hs : Stored created fs contents) (hz : 0 ∉ name)
    (hu : Unshadowed created name) (hf : findEntry fs (name ++ [0]) = some i) :
    ∃ hi : i < created.length, created[i] = name := by
  obtain ⟨hp, -, hbefore⟩ := List.find?_range_eq_some.mp hf
  obtain ⟨hi, hpre⟩ := (matches_iff hs hz).mp hp
  refine ⟨hi, hu i hi hpre fun j hj hpre' => ?_⟩
  have hno := hbefore j hj
  rw [Bool.not_eq_true', Bool.eq_false_iff] at hno
  exact hno ((matches_iff hs hz).mpr ⟨hj.trans hi, hpre'⟩)

theorem findEntry_none (hs : Stored created fs contents) (hz : 0 ∉ name)
    (hlen : created.length ≤ 256) (hf : findEntry fs (name ++ [0]) = none)
    (hi : i < created.length) :
    ¬name <+: created[i] := by
  have hno := List.find?_range_eq_none.mp hf i (by omega)
  rw [Bool.not_eq_true', Bool.eq_false_iff] at hno
  exact fun hpre => hno ((matches_iff hs hz).mpr ⟨hi, hpre⟩)

theorem findSlot_eq (hs : Stored created fs contents) (hlen : created.length < 256) :
    findSlot fs = some created.length := by
  refine List.find?_range_eq_some.mpr ⟨?_, List.mem_range.mpr hlen, fun j hj => ?_⟩
  · simp [hs.root]
  · simp [hs.root, hj]

theorem createEntry_stored (hs : Stored created fs contents) (hz : 0 ∉ name)
    (hshort : name.length < 256) (hnew : name ∉ created) :
    Stored (created ++ [name]) (createEntry fs (name ++ [0]) created.length)
      (Function.update contents name (some [])) := by
  have hlen : (created ++ [name]).length = created.length + 1 := List.length_append
  refine ⟨?_, fun j => ?_, ?_, fun j hj => ?_, fun j hj => ?_, fun n hn => ?_⟩
  · rw [hlen, createEntry, hs.allocated]
  · simp only [createEntry, hs.allocated, hlen]
    by_cases hj : j = created.length
    · subst hj
      simp
    · rw [Function.update_of_ne hj, hs.root j]
      split_ifs <;> first | rfl | omega
  · rw [List.nodup_append]
    refine ⟨hs.nodup, List.nodup_singleton name, fun a ha b hb heq => ?_⟩
    rw [List.mem_singleton] at hb
    exact hnew (hb ▸ heq ▸ ha)
  · simp only [createEntry, hs.allocated]
    by_cases hjl : j < created.length
    · rw [Function.update_of_ne (by omega), List.getElem_append_left hjl]
      exact hs.named j hjl
    · have hend : j = created.length := by omega
      subst hend
      rw [Function.update_self, List.getElem_concat_length rfl]
      exact strncpy_short hz hshort
  · simp only [createEntry, hs.allocated]
    by_cases hjl : j < created.length
    · have hne : created[j] ≠ name := fun heq => hnew (heq ▸ List.getElem_mem hjl)
      rw [Function.update_of_ne (show j ≠ created.length by omega), List.getElem_append_left hjl,
        Function.update_of_ne hne]
      exact hs.backed j hjl
    · have hend : j = created.length := by omega
      subst hend
      rw [Function.update_self, List.getElem_concat_length rfl]
      exact ⟨[], Function.update_self .., Nat.le_refl _, fun k => (if_neg (Nat.not_lt_zero k)).symm⟩
  · rw [List.mem_append, List.mem_singleton, not_or] at hn
    rw [Function.update_of_ne hn.2]
    exact hs.absent n hn.1

theorem Stored.isSome_iff (hs : Stored created fs contents) :
    (contents name).isSome = true ↔ name ∈ created := by
  constructor
  · intro h
    by_contra hno
    rw [hs.absent name hno] at h
    cases h
  · intro hmem
    obtain ⟨j, hj, rfl⟩ := List.getElem_of_mem hmem
    obtain ⟨bytes, hb, -⟩ := hs.backed j hj
    rw [hb]
    rfl

theorem Stored.with_files (hs : Stored created fs contents) (files : List File) :
    Stored created { fs with files := files } contents :=
  ⟨hs.allocated, hs.root, hs.nodup, hs.named, hs.backed, hs.absent⟩

theorem Linked.create {f : File} {h : Handle} (hl : Linked created contents f h)
    (hnew : contents name = none) :
    Linked (created ++ [name]) (Function.update contents name (some [])) f h := by
  refine ⟨hl.hold, hl.closed, fun st hst => ?_⟩
  obtain ⟨hname, hpos, w, hw, hk⟩ := hl.opened st hst
  have hi := (List.getElem?_eq_some_iff.mp hname).1
  have hne : h.name ≠ name := by
    intro heq
    rw [heq, hnew] at hw
    cases hw
  refine ⟨?_, hpos, w, ?_, hk⟩
  · rw [List.getElem?_append_left hi]
    exact hname
  · rw [Function.update_of_ne hne]
    exact hw

theorem Refines.create {s : Store} (hr : Refines created fs s) (hz : 0 ∉ name)
    (hshort : name.length < 256) (hnew : name ∉ created) :
    Refines (created ++ [name]) (createEntry fs (name ++ [0]) created.length)
      { s with contents := Function.update s.contents name (some []) } :=
  ⟨createEntry_stored hr.stored hz hshort hnew, hr.count, fun j f h hf hh =>
    (hr.linked j f h hf hh).create (hr.stored.absent name hnew)⟩

theorem Refines.openEntry {s : Store} (hr : Refines created fs s) (hi : i < created.length) :
    Refines created { fs with files := fs.files ++ [createFile ⟨i, 0⟩] }
      { s with handles := s.handles ++ [⟨created[i], 0, false⟩] } := by
  refine ⟨hr.stored.with_files _, ?_, fun j f h hf hh => ?_⟩
  · simp only [List.length_append, hr.count, List.length_singleton]
  · by_cases hj : j < fs.files.length
    · have hj' : j < s.handles.length := hr.count ▸ hj
      simp only [List.getElem?_append_left hj] at hf
      simp only [List.getElem?_append_left hj'] at hh
      exact hr.linked j f h hf hh
    · have hfl := (List.getElem?_eq_some_iff.mp hf).1
      simp only [List.length_append, List.length_singleton] at hfl
      have hend : j = fs.files.length := by omega
      subst hend
      obtain ⟨w, hw, -⟩ := hr.stored.backed i hi
      simp only [List.getElem?_concat_length, Option.some.injEq] at hf
      simp only [hr.count, List.getElem?_concat_length, Option.some.injEq] at hh
      subst hf
      subst hh
      refine ⟨rfl, by simp [createFile], fun st hst => ?_⟩
      cases hst
      exact ⟨List.getElem?_eq_getElem hi, rfl, w, hw, fun k hk => absurd hk (Nat.not_lt_zero k)⟩

theorem fopen_found (hs : Stored created fs contents) (hz : 0 ∉ name)
    (hlen : created.length ≤ 256) (hu : Unshadowed created name) (hmem : name ∈ created)
    (mode : Chars) (fuel : ℕ) :
    ∃ p, ∃ hp : p < created.length, created[p] = name ∧
      fopen (name ++ [0]) mode (fuel + 1) fs =
        some (some fs.files.length, { fs with files := fs.files ++ [createFile ⟨p, 0⟩] }) := by
  cases hf : findEntry fs (name ++ [0]) with
  | none =>
    obtain ⟨j, hj, hget⟩ := List.getElem_of_mem hmem
    exact absurd (hget ▸ List.prefix_rfl) (findEntry_none hs hz hlen hf hj)
  | some p =>
    obtain ⟨hp, hget⟩ := findEntry_some hs hz hu hf
    have hroot : fs.root p = some p := by rw [hs.root p, if_pos hp]
    refine ⟨p, hp, hget, ?_⟩
    simp only [fopen, hf, hroot]

theorem strcmp_mode (mode : Chars) : strcmp (mode ++ [0]) [0x72, 0] = 0 ↔ ReadOnly mode := by
  rw [strcmp_eq_zero, show content [0x72, 0] = [0x72] from rfl, ReadOnly]
  cases mode with
  | nil =>
    constructor
    · intro h
      simp [content] at h
    · intro h
      cases h
  | cons c mode =>
    rw [List.head?_cons, Option.some.injEq]
    by_cases hc : c = 0
    · subst hc
      constructor
      · intro h
        simp [content] at h
      · intro h
        cases h
    · rw [content, List.cons_append, List.takeWhile_cons_of_pos (by simpa using hc),
        List.cons_prefix_cons]
      exact ⟨fun h => h.1.symm, fun h => ⟨h.symm, List.nil_prefix⟩⟩

theorem openName_found {s : Store} (h : (s.contents name).isSome = true) (mode : Chars) :
    openName name mode s =
      (some s.handles.length, { s with handles := s.handles ++ [⟨name, 0, false⟩] }) := by
  rw [openName, if_pos h]

theorem findEntry_new (hs : Stored created fs contents) (hz : 0 ∉ name)
    (hu : Unshadowed created name) (hnew : name ∉ created) :
    findEntry fs (name ++ [0]) = none := by
  cases hf : findEntry fs (name ++ [0]) with
  | none => rfl
  | some p =>
    obtain ⟨hp, hget⟩ := findEntry_some hs hz hu hf
    exact absurd (hget ▸ List.getElem_mem hp) hnew

theorem unshadowed_new (hs : Stored created fs contents) (hz : 0 ∉ name)
    (hlen : created.length ≤ 256) (hf : findEntry fs (name ++ [0]) = none) :
    Unshadowed (created ++ [name]) name := by
  intro j hj hpre _
  by_cases hjl : j < created.length
  · rw [List.getElem_append_left hjl] at hpre
    exact absurd hpre (findEntry_none hs hz hlen hf hjl)
  · rw [List.length_append, List.length_singleton] at hj
    exact List.getElem_concat_length (show j = created.length by omega) _

theorem fopen_refines {s : Store} (hr : Refines created fs s) (n : Name) (mode : Chars)
    (hu : Unshadowed created n.chars) (hlen : (afterOpen created n.chars mode).length ≤ 256) :
    ∃ fs', fopen n.ptr (mode ++ [0]) 257 fs = some ((openName n.chars mode s).1, fs') ∧
      Refines (afterOpen created n.chars mode) fs' (openName n.chars mode s).2 := by
  have hsome : (s.contents n.chars).isSome = true ↔ n.chars ∈ created := hr.stored.isSome_iff
  by_cases hmem : n.chars ∈ created
  · rw [afterOpen, if_pos (Or.inl hmem)] at hlen ⊢
    obtain ⟨p, hp, hget, hopen⟩ := fopen_found hr.stored n.no_nul hlen hu hmem (mode ++ [0]) 256
    have hr' := hr.openEntry hp
    rw [hget] at hr'
    rw [openName_found (hsome.mpr hmem), ← hr.count]
    exact ⟨_, hopen, hr'⟩
  · have hnone := findEntry_new hr.stored n.no_nul hu hmem
    by_cases hro : ReadOnly mode
    · rw [afterOpen, if_pos (Or.inr hro), openName, if_neg (mt hsome.mp hmem), if_pos hro]
      refine ⟨fs, ?_, hr⟩
      rw [fopen, Name.ptr, hnone]
      simp only [(strcmp_mode mode).mpr hro, ne_eq, not_true_eq_false, if_false]
    · rw [afterOpen, if_neg (not_or.mpr ⟨hmem, hro⟩)] at hlen ⊢
      have hlt : created.length < 256 := by
        rw [List.length_append, List.length_singleton] at hlen
        omega
      have hr' := hr.create n.no_nul n.short hmem
      have hmem' : n.chars ∈ created ++ [n.chars] := List.mem_append_right _ List.mem_cons_self
      have hu' := unshadowed_new hr.stored n.no_nul hlt.le hnone
      -- the call of itself finds the new file
      obtain ⟨p, hp, hget, hopen⟩ :=
        fopen_found hr'.stored n.no_nul hlen hu' hmem' (mode ++ [0]) 255
      have hfresh := hr'.openEntry hp
      rw [hget] at hfresh
      rw [openName, if_neg (mt hsome.mp hmem), if_neg hro, ← hr.count]
      refine ⟨_, ?_, hfresh⟩
      rw [fopen, Name.ptr, hnone]
      simp only [ne_eq, strcmp_mode, hro, not_false_eq_true, if_true, findSlot_eq hr.stored hlt]
      exact hopen

end Opening

section Calls

theorem Grows.refl (contents : Contents) : Grows contents contents :=
  fun _ w hw => ⟨w, hw, fun _ hk => hk⟩

theorem Grows.trans {contents' contents'' : Contents} (h : Grows contents contents')
    (h' : Grows contents' contents'') : Grows contents contents'' := by
  intro n w hw
  obtain ⟨w', hw', hk⟩ := h n w hw
  obtain ⟨w'', hw'', hk'⟩ := h' n w' hw'
  exact ⟨w'', hw'', fun k hsome => hk' k (hk k hsome)⟩

variable {s : Store} {i : ℕ}

theorem Refines.at (hr : Refines created fs s) (i : ℕ) :
    (fs.files[i]? = none ∧ s.handles[i]? = none) ∨
      ∃ f h, fs.files[i]? = some f ∧ s.handles[i]? = some h ∧ Linked created s.contents f h := by
  by_cases hi : i < fs.files.length
  · have hi' : i < s.handles.length := hr.count ▸ hi
    refine Or.inr ⟨fs.files[i], s.handles[i], List.getElem?_eq_getElem hi,
      List.getElem?_eq_getElem hi', ?_⟩
    exact hr.linked i _ _ (List.getElem?_eq_getElem hi) (List.getElem?_eq_getElem hi')
  · have hi' : ¬i < s.handles.length := hr.count ▸ hi
    exact Or.inl ⟨List.getElem?_eq_none (Nat.le_of_not_lt hi),
      List.getElem?_eq_none (Nat.le_of_not_lt hi')⟩

theorem Refines.set {fs' : Filesystem} {contents' : Contents} {f' : File}
    {h' : Handle} (hr : Refines created fs s) (hs : Stored created fs' contents')
    (hfiles : fs'.files = fs.files) (hg : Grows s.contents contents')
    (hl : Linked created contents' f' h') :
    Refines created (setFile i f' fs') (setHandle i h' { s with contents := contents' }) := by
  refine ⟨hs.with_files _, ?_, fun j g k hgj hkj => ?_⟩
  · simp only [setFile, setHandle, List.length_set, hfiles, hr.count]
  · simp only [setFile, setHandle, hfiles] at hgj hkj
    by_cases hij : i = j
    · subst hij
      have hg' := (List.getElem?_eq_some_iff.mp hgj).2
      have hk' := (List.getElem?_eq_some_iff.mp hkj).2
      rw [List.getElem_set_self] at hg' hk'
      rw [← hg', ← hk']
      exact hl
    · rw [List.getElem?_set_ne hij] at hgj hkj
      exact (hr.linked j g k hgj hkj).grow hg

/-- The files that exist after a call. -/
def after (created : List Chars) : Op → List Chars
  | .fopen name mode => afterOpen created name.chars mode
  | _ => created

/-- What is asked of an `fopen` where `created` are the files. -/
def Admits (created : List Chars) : Op → Prop
  | .fopen name mode =>
    Unshadowed created name.chars ∧ (afterOpen created name.chars mode).length ≤ 256
  | _ => True

theorem call_refines (A : Allocator) (hr : Refines created fs s) (op : Op)
    (hop : Admits created op) :
    (call A fs op = none ∧ perform s op = none) ∨
      ∃ r fs' s', call A fs op = some (r, fs') ∧ perform s op = some (r, s') ∧
        Refines (after created op) fs' s' := by
  cases op with
  | fopen name mode =>
    obtain ⟨fs', hopen, hr'⟩ := fopen_refines hr name mode hop.1 hop.2
    exact Or.inr ⟨_, fs', _, by rw [call, hopen]; rfl, rfl, hr'⟩
  | fputc c i =>
    obtain ⟨hf, hh⟩ | ⟨f, h, hf, hh, hl⟩ := hr.at i
    · exact Or.inl ⟨by rw [call, hf]; rfl, by rw [perform, hh]; rfl⟩
    · obtain ⟨hres, hs, hl', hg, hfiles⟩ := fputc_linked A c hr.stored hl
      refine Or.inr ⟨.int (writeByte c (s.contents, h)).1, _, _, ?_, by rw [perform, hh]; rfl,
        hr.set hs hfiles hg hl'⟩
      rw [call, hf, ← hres]
      rfl
  | fwrite p size nmemb b i =>
    obtain ⟨hf, hh⟩ | ⟨f, h, hf, hh, hl⟩ := hr.at i
    · exact Or.inl ⟨by rw [call, hf]; rfl, by rw [perform, hh]; rfl⟩
    · -- the bytes of the block are written one by one
      let R : Filesystem × File → (Contents) × Handle → Prop := fun x y =>
        Stored created x.1 y.1 ∧ x.1.files = fs.files ∧ Grows s.contents y.1 ∧
          Linked created y.1 x.2 y.2
      have hput : ∀ c x y, R x y → (fputc A c x).1 = (writeByte c y).1 ∧
          R (fputc A c x).2 (writeByte c y).2 := by
        rintro c ⟨fs₁, f₁⟩ ⟨contents₁, h₁⟩ ⟨hs, hfiles, hg, hl₁⟩
        obtain ⟨hres, hs', hl', hg', hfiles'⟩ := fputc_linked A c hs hl₁
        exact ⟨hres, hs', hfiles'.trans hfiles, hg.trans hg', hl'⟩
      have hstart : R (fs, f) (s.contents, h) := ⟨hr.stored, rfl, Grows.refl _, hl⟩
      obtain ⟨hres, hs, hfiles, hg, hl'⟩ := fwrite_sim hput p size 0 nmemb b hstart
      refine Or.inr ⟨.count (fwrite writeByte p size 0 nmemb b (s.contents, h)).1, _, _, ?_,
        by rw [perform, hh]; rfl, hr.set hs hfiles hg hl'⟩
      rw [call, hf, ← hres]
      rfl
  | fgetc i =>
    obtain ⟨hf, hh⟩ | ⟨f, h, hf, hh, hl⟩ := hr.at i
    · exact Or.inl ⟨by rw [call, hf]; rfl, by rw [perform, hh]; rfl⟩
    · obtain ⟨hres, hl'⟩ := fgetc_linked hr.stored hl
      refine Or.inr ⟨.int (readByte s.contents h).1, _, _, ?_, by rw [perform, hh]; rfl,
        hr.set hr.stored rfl (Grows.refl _) hl'⟩
      rw [call, hf, ← hres]
      rfl
  | fread size nmemb b i =>
    obtain ⟨hf, hh⟩ | ⟨f, h, hf, hh, hl⟩ := hr.at i
    · exact Or.inl ⟨by rw [call, hf]; rfl, by rw [perform, hh]; rfl⟩
    · obtain ⟨hn, hp, hl'⟩ :=
        fread_sim (fun _ _ h => fgetc_linked hr.stored h) size nmemb b hl
      refine Or.inr ⟨.block (fread (readByte s.contents) size nmemb b h).1
        (fread (readByte s.contents) size nmemb b h).2.1, _, _, ?_, by rw [perform, hh]; rfl,
        hr.set hr.stored rfl (Grows.refl _) hl'⟩
      rw [call, hf, ← hn, ← hp]
      rfl
  | fclose i =>
    obtain ⟨hf, hh⟩ | ⟨f, h, hf, hh, hl⟩ := hr.at i
    · exact Or.inl ⟨by rw [call, hf]; rfl, by rw [perform, hh]; rfl⟩
    · obtain ⟨hres, hl'⟩ := fclose_linked hl
      refine Or.inr ⟨.int (closeHandle h).1, _, _, ?_, by rw [perform, hh]; rfl,
        hr.set hr.stored rfl (Grows.refl _) hl'⟩
      rw [call, hf, ← hres]
      rfl

end Calls

end Jiauliyan.FileRefinement
