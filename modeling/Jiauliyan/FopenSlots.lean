import Mathlib.Data.Finset.Card
import Mathlib.Data.Finset.Range
import Jiauliyan.Stdio

namespace Jiauliyan.FopenSlots

open Jiauliyan.StringCompare Jiauliyan.Stdio

/-- A filesystem with any table of file entries in it. -/
structure AnyTable where
  fs : Filesystem
  below : ∀ i p, fs.root i = some p → p < fs.allocated

/-- `fopen` takes the entry for that of the file name. -/
def Found (fs : Filesystem) (filename : Chars) (p : ℕ) : Prop :=
  ∃ i < 256, fs.root i = some p ∧ strcmp (fs.entries p).name filename = 0

/-- The handle returned is that of a file on the entry `p`. -/
def Opened (fs : Filesystem) (r : Option ℕ) (p : ℕ) : Prop :=
  ∃ h f st, r = some h ∧ fs.files[h]? = some f ∧ f.stream = some st ∧ st.entry = p

/-- The call ends; it fills at most one slot and keeps the others with their entries; no two
entries are left that are found by the name; and the entry opened is opened again by the
next call with the name. -/
def OneSlot (fs : Filesystem) (filename mode : Chars) : Prop :=
  ∃ fuel r fs', fopen filename mode fuel fs = some (r, fs') ∧
    (∀ i < 256, ∀ j < 256, fs.root i = none → fs.root j = none → fs'.root i ≠ none →
      fs'.root j ≠ none → i = j) ∧
    (∀ i p, fs.root i = some p → fs'.root i = some p ∧ fs'.entries p = fs.entries p) ∧
    (∀ p q, Found fs' filename p → Found fs' filename q → p = q) ∧
    ∀ p, Opened fs' r p → ∀ mode', ∃ fuel' r' fs'',
      fopen filename mode' fuel' fs' = some (r', fs'') ∧ Opened fs'' r' p

/-- No two slots are empty. -/
def AlmostFull (fs : Filesystem) : Prop :=
  ∀ i < 256, ∀ j < 256, fs.root i = none → fs.root j = none → i = j

variable {fs fs' : Filesystem} {filename mode : Chars} {i p : ℕ}

theorem findEntry_some (h : findEntry fs filename = some i) :
    i < 256 ∧ ∃ p, fs.root i = some p ∧ strcmp (fs.entries p).name filename = 0 := by
  obtain ⟨hp, hi, -⟩ := List.find?_range_eq_some.mp h
  refine ⟨List.mem_range.mp hi, ?_⟩
  cases hr : fs.root i with
  | none => simp [hr] at hp
  | some p => exact ⟨p, rfl, by simpa [hr] using hp⟩

theorem findEntry_none_iff : findEntry fs filename = none ↔ ∀ p, ¬Found fs filename p := by
  rw [findEntry, List.find?_range_eq_none]
  constructor
  · rintro h p ⟨i, hi, hr, hs⟩
    have hno := h i hi
    simp [hr, hs] at hno
  · intro h i hi
    cases hr : fs.root i with
    | none => rfl
    | some p =>
      have hne : strcmp (fs.entries p).name filename ≠ 0 := fun hs => h p ⟨i, hi, hr, hs⟩
      simpa using hne

theorem findSlot_some (h : findSlot fs = some i) : i < 256 ∧ fs.root i = none := by
  obtain ⟨hp, hi, -⟩ := List.find?_range_eq_some.mp h
  exact ⟨List.mem_range.mp hi, Option.isNone_iff_eq_none.mp hp⟩

theorem findSlot_none (h : findSlot fs = none) : ∀ i < 256, fs.root i ≠ none := by
  intro i hi hr
  have hno := List.find?_range_eq_none.mp h i hi
  simp [hr] at hno

theorem content_strncpy (s : Chars) (n : ℕ) : content (strncpy s n) = (content s).take n := by
  induction n generalizing s with
  | zero => rfl
  | succ n ih =>
    cases s with
    | nil => simp [strncpy, content]
    | cons c s =>
      by_cases hc : c = 0
      · simp [strncpy, content, hc]
      · have hcons : ∀ t, content (c :: t) = c :: content t := fun t =>
          List.takeWhile_cons_of_pos (decide_eq_true hc)
        have hcopy : strncpy (c :: s) (n + 1) = c :: strncpy s n := if_neg hc
        rw [hcopy, hcons, hcons, ih, List.take_succ_cons]

theorem stored_iff (filename : Chars) :
    strcmp (strncpy filename 256) filename = 0 ↔ (content filename).length ≤ 256 := by
  rw [strcmp_eq_zero, content_strncpy]
  constructor
  · intro h
    exact h.length_le.trans (List.length_take_le 256 _)
  · intro h
    rw [List.take_of_length_le h]

section Create

variable (hbelow : ∀ i p, fs.root i = some p → p < fs.allocated) (hi : i < 256)
  (hempty : fs.root i = none)

include hbelow hempty in
theorem create_keeps (filename : Chars) {j q : ℕ} (hj : fs.root j = some q) :
    (createEntry fs filename i).root j = some q ∧
      (createEntry fs filename i).entries q = fs.entries q := by
  have hne : j ≠ i := by
    rintro rfl
    rw [hempty] at hj
    cases hj
  exact ⟨(Function.update_of_ne hne _ _).trans hj,
    Function.update_of_ne (Nat.ne_of_lt (hbelow j q hj)) _ _⟩

include hbelow in
theorem create_below : ∀ j q, (createEntry fs filename i).root j = some q →
    q < (createEntry fs filename i).allocated := by
  intro j q hj
  simp only [createEntry] at hj ⊢
  by_cases hji : j = i
  · rw [hji, Function.update_self] at hj
    cases hj
    exact Nat.lt_succ_self _
  · rw [Function.update_of_ne hji] at hj
    exact (hbelow j q hj).trans (Nat.lt_succ_self _)

theorem create_at (fs : Filesystem) (filename : Chars) (i : ℕ) :
    (createEntry fs filename i).root i = some fs.allocated ∧
    (createEntry fs filename i).entries fs.allocated = ⟨strncpy filename 256, fun _ => 0, 0, 0⟩ :=
  ⟨Function.update_self _ _ _, Function.update_self _ _ _⟩

include hbelow hi hempty in
theorem create_found_iff (filename : Chars) (q : ℕ) : Found (createEntry fs filename i) filename q ↔
    Found fs filename q ∨ q = fs.allocated ∧ (content filename).length ≤ 256 := by
  obtain ⟨hroot, hentry⟩ := create_at fs filename i
  constructor
  · rintro ⟨j, hj, hr, hs⟩
    by_cases hji : j = i
    · rw [hji, hroot] at hr
      cases hr
      rw [hentry, stored_iff] at hs
      exact .inr ⟨rfl, hs⟩
    · have hold : fs.root j = some q := (Function.update_of_ne hji _ _).symm.trans hr
      rw [(create_keeps hbelow hempty filename hold).2] at hs
      exact .inl ⟨j, hj, hold, hs⟩
  · rintro (⟨j, hj, hr, hs⟩ | ⟨rfl, hlen⟩)
    · obtain ⟨hr', he'⟩ := create_keeps hbelow hempty filename hr
      exact ⟨j, hj, hr', by rw [he']; exact hs⟩
    · refine ⟨i, hi, hroot, ?_⟩
      rw [hentry]
      exact (stored_iff filename).mpr hlen

end Create

theorem fopen_unique {k l : ℕ} {r r' : Option ℕ × Filesystem}
    (hk : fopen filename mode k fs = some r) (hl : fopen filename mode l fs = some r') :
    r = r' := by
  induction k generalizing l fs with
  | zero => cases hk
  | succ k ih =>
    cases l with
    | zero => cases hl
    | succ l =>
      rw [fopen] at hk hl
      cases hf : findEntry fs filename with
      | some i =>
        simp only [hf] at hk hl
        exact Option.some.inj (hk.symm.trans hl)
      | none =>
        simp only [hf] at hk hl
        by_cases hm : strcmp mode [0x72, 0] ≠ 0
        · rw [if_pos hm] at hk hl
          cases hs : findSlot fs with
          | some i =>
            simp only [hs] at hk hl
            exact ih hk hl
          | none =>
            simp only [hs] at hk hl
            exact Option.some.inj (hk.symm.trans hl)
        · rw [if_neg hm] at hk hl
          exact Option.some.inj (hk.symm.trans hl)

theorem fopen_found (mode : Chars) (h : Found fs filename p) :
    ∃ q, Found fs filename q ∧ ∀ fuel, fopen filename mode (fuel + 1) fs =
      some (some fs.files.length, { fs with files := fs.files ++ [createFile ⟨q, 0⟩] }) := by
  cases hf : findEntry fs filename with
  | none => exact absurd h (findEntry_none_iff.mp hf p)
  | some i =>
    obtain ⟨hi, q, hr, hs⟩ := findEntry_some hf
    refine ⟨q, ⟨i, hi, hr, hs⟩, fun fuel => ?_⟩
    rw [fopen, hf]
    simp only [hr]

theorem opened_new (fs : Filesystem) (q : ℕ) :
    Opened { fs with files := fs.files ++ [createFile ⟨q, 0⟩] } (some fs.files.length) p ↔
      p = q := by
  have hget : (fs.files ++ [createFile ⟨q, 0⟩])[fs.files.length]? = some (createFile ⟨q, 0⟩) :=
    List.getElem?_concat_length
  constructor
  · rintro ⟨h, f, st, hh, hf, hst, rfl⟩
    cases hh
    cases hget.symm.trans hf
    cases hst
    rfl
  · rintro rfl
    exact ⟨_, _, ⟨p, 0⟩, rfl, hget, rfl, rfl⟩

/-- What is left when the name is found by one entry alone: the call opens it and changes
nothing, and so does every call with the name that follows. -/
theorem oneSlot_found (mode : Chars) (h : Found fs filename p)
    (hone : ∀ q, Found fs filename q → q = p) : OneSlot fs filename mode := by
  obtain ⟨q, hq, hopen⟩ := fopen_found mode h
  obtain rfl := hone q hq
  refine ⟨1, _, _, hopen 0, fun i _ j _ h0 _ h1 => absurd h0 h1, fun i q hr => ⟨hr, rfl⟩,
    fun a b ha hb => (hone a ha).trans (hone b hb).symm, fun a ha mode' => ?_⟩
  obtain rfl := (opened_new fs q).mp ha
  have h' : Found { fs with files := fs.files ++ [createFile ⟨a, 0⟩] } filename a := h
  obtain ⟨b, hb, hagain⟩ := fopen_found mode' h'
  obtain rfl := hone b hb
  exact ⟨1, _, _, hagain 0, (opened_new _ b).mpr rfl⟩

theorem fopen_creates (hf : findEntry fs filename = none) (hm : strcmp mode [0x72, 0] ≠ 0)
    (hs : findSlot fs = some i) (fuel : ℕ) :
    fopen filename mode (fuel + 1) fs = fopen filename mode fuel (createEntry fs filename i) := by
  rw [fopen, hf]
  simp only [if_pos hm, hs]

theorem fopen_full (hf : findEntry fs filename = none) (hm : strcmp mode [0x72, 0] ≠ 0)
    (hs : findSlot fs = none) (fuel : ℕ) : fopen filename mode (fuel + 1) fs =
      some (none, { fs with console := fs.console ++ ["ERROR: Exceeded max of 256 files!"] }) := by
  rw [fopen, hf]
  simp only [if_pos hm, hs]

theorem oneSlot_created (hbelow : ∀ i p, fs.root i = some p → p < fs.allocated)
    (hf : findEntry fs filename = none) (hm : strcmp mode [0x72, 0] ≠ 0)
    (hs : findSlot fs = some i) (hlen : (content filename).length ≤ 256) :
    OneSlot fs filename mode := by
  obtain ⟨hi, hempty⟩ := findSlot_some hs
  have hnone := findEntry_none_iff.mp hf
  have hfound := create_found_iff hbelow hi hempty filename
  have hnew : Found (createEntry fs filename i) filename fs.allocated :=
    (hfound _).mpr (.inr ⟨rfl, hlen⟩)
  have honly : ∀ q, Found (createEntry fs filename i) filename q → q = fs.allocated :=
    fun q hq => ((hfound q).mp hq).elim (fun h => absurd h (hnone q)) And.left
  obtain ⟨fuel, r, fs', hopen, -, hkeep, hone, hagain⟩ := oneSlot_found mode hnew honly
  have hstart := fopen_creates hf hm hs fuel
  obtain ⟨q, hq, hdone⟩ := fopen_found mode hnew
  obtain ⟨rfl, rfl⟩ := Prod.mk.inj (fopen_unique hopen (hdone 0))
  refine ⟨fuel + 1, _, _, hstart.trans hopen, fun a _ b _ ha hb ha' hb' => ?_, fun j q hr => ?_,
    hone, hagain⟩
  · have hother : ∀ c, fs.root c = none → (createEntry fs filename i).root c ≠ none → c = i := by
      intro c hc hc'
      by_contra hne
      exact hc' ((Function.update_of_ne hne _ _).trans hc)
    exact (hother a ha ha').trans (hother b hb hb').symm
  · exact create_keeps hbelow hempty filename hr

theorem fopen_missing (hf : findEntry fs filename = none) (hm : strcmp mode [0x72, 0] = 0)
    (fuel : ℕ) : fopen filename mode (fuel + 1) fs = some (none, fs) := by
  rw [fopen, hf]
  simp only [hm, ne_eq, not_true_eq_false, if_false]

theorem oneSlot_null {fuel : ℕ} (hopen : fopen filename mode fuel fs = some (none, fs'))
    (hslots : ∀ i < 256, ∀ j < 256, fs.root i = none → fs.root j = none → fs'.root i ≠ none →
      fs'.root j ≠ none → i = j)
    (hkeep : ∀ i p, fs.root i = some p → fs'.root i = some p ∧ fs'.entries p = fs.entries p)
    (hnone : ∀ p, ¬Found fs' filename p) : OneSlot fs filename mode := by
  refine ⟨fuel, none, fs', hopen, hslots, hkeep, fun p q hp => absurd hp (hnone p), ?_⟩
  rintro p ⟨h, f, st, hr, -⟩
  cases hr

def empties (fs : Filesystem) : Finset ℕ := (Finset.range 256).filter fun i => fs.root i = none

theorem mem_empties : i ∈ empties fs ↔ i < 256 ∧ fs.root i = none := by
  rw [empties, Finset.mem_filter, Finset.mem_range]

theorem empties_create (filename : Chars) (hi : i < 256) (hempty : fs.root i = none) :
    (empties (createEntry fs filename i)).card + 1 = (empties fs).card := by
  have herase : empties (createEntry fs filename i) = (empties fs).erase i := by
    ext j
    rw [Finset.mem_erase, mem_empties, mem_empties]
    simp only [createEntry, Function.update_apply]
    by_cases hj : j = i
    · simp [hj]
    · simp [hj]
  rw [herase]
  exact Finset.card_erase_add_one (mem_empties.mpr ⟨hi, hempty⟩)

/-- Every entry made for such a name is passed over by the search that follows, so that the call
ends when the table is full. -/
theorem long_fills (hm : strcmp mode [0x72, 0] ≠ 0) (hlong : 256 < (content filename).length)
    (hbelow : ∀ i p, fs.root i = some p → p < fs.allocated)
    (hf : findEntry fs filename = none) :
    ∃ fuel fs', fopen filename mode fuel fs = some (none, fs') ∧ (∀ i < 256, fs'.root i ≠ none) ∧
      (∀ i p, fs.root i = some p → fs'.root i = some p ∧ fs'.entries p = fs.entries p) ∧
      ∀ p, ¬Found fs' filename p := by
  generalize hn : (empties fs).card = n
  induction n generalizing fs with
  | zero =>
    have hfull : ∀ i < 256, fs.root i ≠ none := fun i hi hr => by
      have hmem : i ∈ empties fs := mem_empties.mpr ⟨hi, hr⟩
      rw [Finset.card_eq_zero.mp hn] at hmem
      exact absurd hmem (Finset.notMem_empty i)
    have hs : findSlot fs = none := by
      refine List.find?_range_eq_none.mpr fun i hi => ?_
      rw [Bool.not_eq_true', Option.isNone_eq_false_iff, Option.isSome_iff_ne_none]
      exact hfull i hi
    exact ⟨1, _, fopen_full hf hm hs 0, hfull, fun i p hr => ⟨hr, rfl⟩, findEntry_none_iff.mp hf⟩
  | succ n ih =>
    cases hs : findSlot fs with
    | none =>
      have hfull := findSlot_none hs
      exact ⟨1, _, fopen_full hf hm hs 0, hfull, fun i p hr => ⟨hr, rfl⟩,
        findEntry_none_iff.mp hf⟩
    | some i =>
      obtain ⟨hi, hempty⟩ := findSlot_some hs
      have hfound := create_found_iff hbelow hi hempty filename
      have hf' : findEntry (createEntry fs filename i) filename = none := by
        refine findEntry_none_iff.mpr fun p hp => ?_
        obtain hold | ⟨-, hlen⟩ := (hfound p).mp hp
        · exact findEntry_none_iff.mp hf p hold
        · omega
      have hcard := empties_create filename hi hempty
      obtain ⟨fuel, fs', hopen, hfull, hkeep, hnone⟩ := ih (create_below hbelow) hf' (by omega)
      refine ⟨fuel + 1, fs', (fopen_creates hf hm hs fuel).trans hopen, hfull, fun j q hr => ?_,
        hnone⟩
      obtain ⟨hr', he'⟩ := create_keeps hbelow hempty filename hr
      obtain ⟨hr'', he''⟩ := hkeep j q hr'
      exact ⟨hr'', he''.trans he'⟩

/-- One call of `fopen` uses at most one slot and leaves the name clear exactly when it was clear
before, and no name that must be cut off is to be created with two slots empty. -/
theorem one_slot_iff (t : AnyTable) (filename mode : Chars) :
    OneSlot t.fs filename mode ↔
      (∀ p q, Found t.fs filename p → Found t.fs filename q → p = q) ∧
        ((∃ p, Found t.fs filename p) ∨ strcmp mode [0x72, 0] = 0 ∨
          (content filename).length ≤ 256 ∨ AlmostFull t.fs) := by
  obtain ⟨fs, hbelow⟩ := t
  simp only
  constructor
  · rintro ⟨fuel, r, fs', hopen, hslots, -, hone, -⟩
    by_cases h : ∃ p, Found fs filename p
    · obtain ⟨p, hp⟩ := h
      obtain ⟨q, -, hdone⟩ := fopen_found mode hp
      obtain ⟨-, rfl⟩ := Prod.mk.inj (fopen_unique hopen (hdone 0))
      exact ⟨hone, .inl ⟨p, hp⟩⟩
    · rw [not_exists] at h
      refine ⟨fun p q hp => absurd hp (h p), .inr ?_⟩
      by_cases hm : strcmp mode [0x72, 0] = 0
      · exact .inl hm
      obtain hlong | hlen := Nat.lt_or_ge 256 (content filename).length
      swap
      · exact .inr (.inl hlen)
      obtain ⟨fuel', fs'', hfills, hfull, -⟩ :=
        long_fills hm hlong hbelow (findEntry_none_iff.mpr h)
      obtain ⟨-, rfl⟩ := Prod.mk.inj (fopen_unique hopen hfills)
      exact .inr (.inr fun i hi j hj h0 h1 => hslots i hi j hj h0 h1 (hfull i hi) (hfull j hj))
  · rintro ⟨hone, h⟩
    by_cases hfound : ∃ p, Found fs filename p
    · obtain ⟨p, hp⟩ := hfound
      exact oneSlot_found mode hp fun q hq => hone q p hq hp
    have hnone := not_exists.mp hfound
    have hf := findEntry_none_iff.mpr hnone
    by_cases hm : strcmp mode [0x72, 0] = 0
    · exact oneSlot_null (fopen_missing hf hm 0) (fun i _ j _ h0 _ h1 => absurd h0 h1)
        (fun i p hr => ⟨hr, rfl⟩) hnone
    cases hs : findSlot fs with
    | none =>
      exact oneSlot_null (fopen_full hf hm hs 0) (fun i _ j _ h0 _ h1 => absurd h0 h1)
        (fun i p hr => ⟨hr, rfl⟩) hnone
    | some i =>
      obtain hlong | hlen := Nat.lt_or_ge 256 (content filename).length
      · obtain ⟨fuel, fs', hopen, -, hkeep, hnone'⟩ := long_fills hm hlong hbelow hf
        have hfew : AlmostFull fs :=
          ((h.resolve_left hfound).resolve_left hm).resolve_left (by omega)
        exact oneSlot_null hopen (fun i hi j hj h0 h1 _ _ => hfew i hi j hj h0 h1) hkeep hnone'
      · exact oneSlot_created hbelow hf hm hs hlen

/-- A name of 257 characters fills the whole table at its first use. -/
theorem long_name_fills : ∃ t filename mode, ¬OneSlot (AnyTable.fs t) filename mode := by
  have hbelow : ∀ i p, boot.root i = some p → p < boot.allocated := fun i p h => nomatch h
  have hlen : (content (List.replicate 257 97)).length = 257 := by
    rw [content, List.takeWhile_replicate, if_pos (by decide), List.length_replicate]
  have hnone : ∀ p, ¬Found boot (List.replicate 257 97) p := by
    rintro p ⟨i, -, hr, -⟩
    cases hr
  have hm : strcmp [0x77, 0] [0x72, 0] ≠ 0 := by
    rw [ne_eq, strcmp_eq_zero]
    decide
  refine ⟨⟨boot, hbelow⟩, List.replicate 257 97, [0x77, 0], ?_⟩
  rintro ⟨fuel, r, fs', hopen, hslots, -⟩
  obtain ⟨fuel', fs'', hfills, hfull, -⟩ :=
    long_fills hm (by omega) hbelow (findEntry_none_iff.mpr hnone)
  obtain ⟨-, rfl⟩ := Prod.mk.inj (fopen_unique hopen hfills)
  have h01 := hslots 0 (by decide) 1 (by decide) rfl rfl (hfull 0 (by decide)) (hfull 1 (by decide))
  exact absurd h01 (by decide)

end Jiauliyan.FopenSlots
