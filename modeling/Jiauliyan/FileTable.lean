import Jiauliyan.Execution
import Jiauliyan.FileRefinement

namespace Jiauliyan.FileTable

open Jiauliyan.Execution Jiauliyan.StringCompare Jiauliyan.Stdio Jiauliyan.FileMap
  Jiauliyan.FileRefinement

def table (fs : Filesystem) : List ℕ := (List.range 256).filterMap fs.root

def names (fs : Filesystem) : List Chars := (table fs).map fun p => content (fs.entries p).name

def bytes (e : FileEntry) : List UInt8 := (List.range e.size).map e.data

def fileBytes (fs : Filesystem) (name : Chars) : Option (List UInt8) :=
  ((table fs).find? fun p => content (fs.entries p).name = name).map fun p => bytes (fs.entries p)

def ungetc (c : ℤ) (f : File) : File :=
  if f.hold ≠ EOF ∨ c = EOF then f else { f with pos := f.pos - 1, hold := c }

inductive Act
  | call (op : Op)
  | ungetc (c : ℤ) (handle : ℕ)
  | fseek (pos handle : ℕ)

/-- There is no `fseek` on a closed handle: it would go through a null pointer. -/
def next (A : Realloc) (fs : Filesystem) : Act → Option Filesystem
  | .call op => (call A fs op).map Prod.snd
  | .ungetc c h => fs.files[h]?.map fun f => setFile h (ungetc c f) fs
  | .fseek pos h =>
    fs.files[h]?.bind fun f => f.stream.map fun st =>
      setFile h { f with stream := some (fileEntrySeek st pos) } fs

/-- Bytes are only put where the buffer of the entry, grown if need be, has room. -/
def Inside (fs : Filesystem) : Act → Prop
  | .call (.fputc _ h) | .call (.fwrite _ _ _ _ h) =>
    ∀ f st, fs.files[h]? = some f → f.stream = some st →
      st.pos < (fs.entries st.entry).max + 1024
  | _ => True

def Step (A : Realloc) (fs : Filesystem) (a : Act) (fs' : Filesystem) : Prop :=
  Inside fs a ∧ next A fs a = some fs'

/-- A table with the files that `created` names. -/
structure Table (created : List Chars) (fs : Filesystem) : Prop where
  allocated : fs.allocated = created.length
  root : ∀ i, fs.root i = if i < created.length then some i else none
  nodup : created.Nodup
  named : ∀ i (hi : i < created.length), content (fs.entries i).name = created[i]
  room : ∀ i < created.length, (fs.entries i).size ≤ (fs.entries i).max
  short : created.length ≤ 256
  opened : ∀ f ∈ fs.files, ∀ st, f.stream = some st → st.entry < created.length

variable {A : Realloc} {created : List Chars} {fs : Filesystem}

section Stored

theorem lookup_range (f : ℕ → UInt8) (n k : ℕ) :
    lastWritten ((List.range n).map fun i => (i, f i)) k = if k < n then some (f k) else none := by
  induction n with
  | zero => rfl
  | succ n ih =>
    rw [lastWritten] at ih ⊢
    rw [List.range_succ, List.map_append, List.lookup_append, ih]
    by_cases hk : k < n
    · rw [if_pos hk, if_pos (Nat.lt_succ_of_lt hk)]
      rfl
    · rw [if_neg hk, Option.none_or]
      by_cases heq : k = n
      · subst heq
        simp
      · have hne : (k == n) = false := beq_false_of_ne heq
        have hlt : ¬k < n + 1 := by omega
        simp [List.lookup_cons, hne, hlt]

def tableContents (created : List Chars) (fs : Filesystem) : Contents := fun n =>
  if created.contains n then
    some ((List.range (fs.entries (created.idxOf n)).size).map fun i =>
      (i, (fs.entries (created.idxOf n)).data i))
  else none

theorem Table.stored (ht : Table created fs) : Stored created fs (tableContents created fs) := by
  refine ⟨ht.allocated, ht.root, ht.nodup, ht.named, fun i hi => ?_,
    fun n hn => if_neg (mt List.contains_iff_mem.mp hn)⟩
  have hidx : created.idxOf created[i] = i := ht.nodup.idxOf_getElem i hi
  refine ⟨_, if_pos (List.contains_iff_mem.mpr (List.getElem_mem hi)), ?_⟩
  rw [hidx]
  exact ⟨ht.room i hi, lookup_range _ _⟩

theorem table_eq (ht : Table created fs) : table fs = List.range created.length := by
  have hshort := ht.short
  obtain ⟨k, hk⟩ : ∃ k, 256 = created.length + k := ⟨256 - created.length, by omega⟩
  rw [table, hk, List.range_add, List.filterMap_append]
  have hlow : (List.range created.length).filterMap fs.root = List.range created.length := by
    rw [List.filterMap_congr (g := some) fun i hi => ?_, List.filterMap_some]
    rw [ht.root, if_pos (List.mem_range.mp hi)]
  have hhigh : ((List.range k).map (created.length + ·)).filterMap fs.root = [] := by
    rw [List.filterMap_eq_nil_iff]
    intro i hi
    obtain ⟨j, -, rfl⟩ := List.mem_map.mp hi
    rw [ht.root, if_neg (by omega)]
  rw [hlow, hhigh, List.append_nil]

theorem names_eq (ht : Table created fs) : names fs = created := by
  rw [names, table_eq ht]
  refine List.ext_getElem (by simp) fun i hi hi' => ?_
  simp only [List.getElem_map, List.getElem_range]
  exact ht.named i hi'

theorem fileBytes_some (ht : Table created fs) {p : ℕ} (hp : p < created.length) :
    fileBytes fs created[p] = some (bytes (fs.entries p)) := by
  have hfind : (table fs).find? (fun q => content (fs.entries q).name = created[p]) = some p := by
    rw [table_eq ht]
    refine List.find?_range_eq_some.mpr ⟨?_, List.mem_range.mpr hp, fun j hj => ?_⟩
    · simpa using ht.named p hp
    · have hjl : j < created.length := hj.trans hp
      rw [ht.named j hjl]
      have hne : created[j] ≠ created[p] := fun heq =>
        Nat.ne_of_lt hj (ht.nodup.getElem_inj_iff.mp heq)
      simpa using hne
  rw [fileBytes, hfind, Option.map_some]

theorem fileBytes_none (ht : Table created fs) {name : Chars} (hn : name ∉ created) :
    fileBytes fs name = none := by
  have hfind : (table fs).find? (fun q => content (fs.entries q).name = name) = none := by
    rw [table_eq ht]
    refine List.find?_range_eq_none.mpr fun j hj => ?_
    have hne : created[j] ≠ name := fun heq => hn (heq ▸ List.getElem_mem hj)
    rw [ht.named j hj]
    simpa using hne
  rw [fileBytes, hfind, Option.map_none]

end Stored

section Calls

variable {f : File} {st : Stream} {h : ℕ}

theorem Table.with_files (ht : Table created fs) {files : List File}
    (hopen : ∀ f ∈ files, ∀ st, f.stream = some st → st.entry < created.length) :
    Table created { fs with files := files } :=
  ⟨ht.allocated, ht.root, ht.nodup, ht.named, ht.room, ht.short, hopen⟩

theorem Table.set (ht : Table created fs)
    (hf : ∀ st, f.stream = some st → st.entry < created.length) (h : ℕ) :
    Table created (setFile h f fs) := by
  refine ht.with_files fun g hg st hst => ?_
  obtain hmem | rfl := List.mem_or_eq_of_mem_set hg
  · exact ht.opened g hmem st hst
  · exact hf st hst

theorem Table.stream (ht : Table created fs) (hf : fs.files[h]? = some f) :
    ∀ st, f.stream = some st → st.entry < created.length :=
  ht.opened f (List.mem_of_getElem? hf)

def putEntry (A : Realloc) (pos : ℕ) (c : UInt8) (e : FileEntry) : FileEntry :=
  let e' := expand A pos e
  { e' with
    size := if e'.size < pos + 1 then pos + 1 else e'.size
    data := Function.update e'.data pos c }

theorem expand_cases (A : Realloc) (pos : ℕ) (e : FileEntry) :
    (expand A pos e).name = e.name ∧ (expand A pos e).size = e.size ∧
      e.max ≤ (expand A pos e).max ∧ (pos < e.max + 1024 → pos < (expand A pos e).max) := by
  unfold expand
  by_cases hfull : e.max ≤ pos
  · rw [if_pos hfull]
    exact ⟨rfl, rfl, Nat.le_add_right _ _, id⟩
  · rw [if_neg hfull]
    exact ⟨rfl, rfl, Nat.le_refl _, fun _ => Nat.lt_of_not_le hfull⟩

theorem expand_data {pos : ℕ} {e : FileEntry} (h : A.Keeps ∨ pos < e.max ∨ e.max = 0) {k : ℕ}
    (hk : k < e.max) : (expand A pos e).data k = e.data k := by
  unfold expand
  by_cases hfull : e.max ≤ pos
  · rw [if_pos hfull]
    obtain hkeeps | hlt | hnone := h
    · exact hkeeps e.data _ _ k hk (Nat.lt_add_right _ hk)
    · exact absurd hlt (Nat.not_lt.mpr hfull)
    · exact absurd hk (by omega)
  · rw [if_neg hfull]

theorem putEntry_room {e : FileEntry} {pos : ℕ} (c : UInt8) (hroom : e.size ≤ e.max)
    (hpos : pos < e.max + 1024) :
    (putEntry A pos c e).size ≤ (putEntry A pos c e).max ∧ pos < (putEntry A pos c e).max := by
  obtain ⟨-, hsize, hmax, hin⟩ := expand_cases A pos e
  have hlt := hin hpos
  refine ⟨?_, hlt⟩
  simp only [putEntry, hsize]
  split_ifs <;> omega

theorem Table.put (ht : Table created fs) (c : UInt8)
    (hpos : st.pos < (fs.entries st.entry).max + 1024) :
    Table created (fileEntryPut A fs st c).1 := by
  have hsame : (putEntry A st.pos c (fs.entries st.entry)).name = (fs.entries st.entry).name :=
    (expand_cases A st.pos _).1
  have hentry : ∀ i, (fileEntryPut A fs st c).1.entries i =
      if i = st.entry then putEntry A st.pos c (fs.entries st.entry) else fs.entries i := by
    intro i
    simp only [fileEntryPut, putEntry, Function.update_apply]
  refine ⟨ht.allocated, ht.root, ht.nodup, fun i hi => ?_, fun i hi => ?_, ht.short, ht.opened⟩
  · rw [hentry]
    by_cases heq : i = st.entry
    · subst heq
      rw [if_pos rfl, hsame]
      exact ht.named _ hi
    · rw [if_neg heq]
      exact ht.named i hi
  · rw [hentry]
    by_cases heq : i = st.entry
    · subst heq
      rw [if_pos rfl]
      exact (putEntry_room c (ht.room _ hi) hpos).1
    · rw [if_neg heq]
      exact ht.room i hi

/-- A file whose stream, if it is open, can be written through. -/
def Writable (created : List Chars) (x : Filesystem × File) : Prop :=
  Table created x.1 ∧ ∀ st, x.2.stream = some st →
    st.entry < created.length ∧ st.pos < (x.1.entries st.entry).max + 1024

theorem Table.writable (ht : Table created fs) {i : ℕ} {f : File} (hf : fs.files[i]? = some f)
    (hin : ∀ st, f.stream = some st → st.pos < (fs.entries st.entry).max + 1024) :
    Writable created (fs, f) :=
  ⟨ht, fun st hst => ⟨ht.stream hf st hst, hin st hst⟩⟩

theorem fputc_writable (A : Realloc) (c : ℤ) {x : Filesystem × File} (hx : Writable created x) :
    Writable created (fputc A c x).2 := by
  obtain ⟨fs, f⟩ := x
  obtain ⟨ht, hw⟩ := hx
  simp only at ht hw
  cases hst : f.stream with
  | none =>
    have hstay : (fputc A c (fs, f)).2 = (fs, f) := by simp only [fputc, hst]
    rw [hstay]
    exact ⟨ht, hw⟩
  | some st =>
    obtain ⟨hin, hpos⟩ := hw st hst
    simp only [fputc, hst]
    refine ⟨ht.put (byteOf c) hpos, fun st' hst' => ?_⟩
    obtain rfl : _ = st' := Option.some.inj hst'
    refine ⟨hin, ?_⟩
    have hlt := (putEntry_room (A := A) (byteOf c) (ht.room _ hin) hpos).2
    simp only [fileEntryPut, Function.update_self]
    simp only [putEntry] at hlt
    omega

theorem Writable.call {f' : File} {fs' : Filesystem} (h : ℕ) (hx : Writable created (fs', f')) :
    Table created (setFile h f' fs') := hx.1.set (fun st hst => (hx.2 st hst).1) h

theorem fgetc_entry (fs : Filesystem) {f : File}
    (hf : ∀ st, f.stream = some st → st.entry < created.length) :
    ∀ st, (fgetc fs f).2.stream = some st → st.entry < created.length := by
  intro st hst
  simp only [fgetc] at hst
  split at hst
  · exact hf st hst
  · rename_i st₀ hst₀
    have hin := hf st₀ hst₀
    split_ifs at hst
    · exact hf st hst
    · simp only [fileEntryGet] at hst
      split_ifs at hst <;> cases hst <;> exact hin

theorem fclose_entry (hf : ∀ st, f.stream = some st → st.entry < created.length) :
    ∀ st, (fclose f).2.stream = some st → st.entry < created.length := by
  intro st hst
  simp only [fclose] at hst
  split at hst
  · exact hf st hst
  · cases hst

inductive Opens (created : List Chars) (fs : Filesystem) (name mode : Chars) :
    Option ℕ → Filesystem → Prop
  | found (p : ℕ) : p < created.length → findEntry fs (name ++ [0]) = some p →
      Opens created fs name mode (some fs.files.length)
        { fs with files := fs.files ++ [createFile ⟨p, 0⟩] }
  | missing : findEntry fs (name ++ [0]) = none → ReadOnly mode → Opens created fs name mode none fs
  | made : findEntry fs (name ++ [0]) = none → ¬ReadOnly mode → created.length < 256 →
      Opens created fs name mode (some fs.files.length)
        { createEntry fs (name ++ [0]) created.length with
          files := fs.files ++ [createFile ⟨created.length, 0⟩] }
  | full : findEntry fs (name ++ [0]) = none → ¬ReadOnly mode → created.length = 256 →
      Opens created fs name mode none
        { fs with console := fs.console ++ ["ERROR: Exceeded max of 256 files!"] }

theorem findEntry_lt (ht : Table created fs) {name : Chars} (hz : 0 ∉ name) {p : ℕ}
    (hf : findEntry fs (name ++ [0]) = some p) : p < created.length :=
  ((matches_iff ht.stored hz).mp (List.find?_range_eq_some.mp hf).1).1

theorem new_of_none (ht : Table created fs) {name : Chars} (hz : 0 ∉ name)
    (hf : findEntry fs (name ++ [0]) = none) : name ∉ created := by
  intro hmem
  obtain ⟨i, hi, rfl⟩ := List.getElem_of_mem hmem
  exact findEntry_none ht.stored hz ht.short hf hi List.prefix_rfl

theorem Table.create (ht : Table created fs) (n : Name) (hnew : n.chars ∉ created)
    (hlt : created.length < 256) :
    Table (created ++ [n.chars]) (createEntry fs n.ptr created.length) := by
  have hs := createEntry_stored ht.stored n.no_nul n.short hnew
  have hlen : (created ++ [n.chars]).length = created.length + 1 := List.length_append
  refine ⟨hs.allocated, hs.root, hs.nodup, hs.named, fun i hi => ?_, by omega,
    fun f hf st hst => ?_⟩
  · obtain ⟨w, -, hback⟩ := hs.backed i hi
    exact hback.room
  · have hold := ht.opened f hf st hst
    omega

theorem fopen_opens (ht : Table created fs) (n : Name) (mode : Chars) :
    ∃ r fs', fopen n.ptr (mode ++ [0]) 257 fs = some (r, fs') ∧
      Opens created fs n.chars mode r fs' := by
  cases hf : findEntry fs (n.chars ++ [0]) with
  | some p =>
    have hp := findEntry_lt ht n.no_nul hf
    have hroot : fs.root p = some p := by rw [ht.root p, if_pos hp]
    refine ⟨_, _, ?_, .found p hp hf⟩
    rw [fopen, Name.ptr, hf]
    simp only [hroot]
  | none =>
    by_cases hro : ReadOnly mode
    · refine ⟨none, fs, ?_, .missing hf hro⟩
      rw [fopen, Name.ptr, hf]
      simp only [(strcmp_mode mode).mpr hro, ne_eq, not_true_eq_false, if_false]
    · by_cases hlt : created.length < 256
      · have hnew := new_of_none ht n.no_nul hf
        have ht' := ht.create n hnew hlt
        have hu := unshadowed_new ht.stored n.no_nul ht.short hf
        have hmem : n.chars ∈ created ++ [n.chars] := List.mem_append_right _ List.mem_cons_self
        -- the call of itself finds the new entry
        obtain ⟨p, hp, hget, hopen⟩ :=
          fopen_found ht'.stored n.no_nul ht'.short hu hmem (mode ++ [0]) 255
        have hend : p = created.length := by
          have hlen : created.length < (created ++ [n.chars]).length := by simp
          have hlast : (created ++ [n.chars])[created.length] = n.chars :=
            List.getElem_concat_length rfl _
          exact ht'.nodup.getElem_inj_iff.mp (hget.trans hlast.symm)
        subst hend
        refine ⟨_, _, ?_, .made hf hro hlt⟩
        rw [fopen, Name.ptr, hf]
        simp only [ne_eq, strcmp_mode, hro, not_false_eq_true, if_true, findSlot_eq ht.stored hlt]
        exact hopen
      · have hfull : created.length = 256 := Nat.le_antisymm ht.short (Nat.le_of_not_lt hlt)
        have hslot : findSlot fs = none := by
          refine List.find?_range_eq_none.mpr fun i hi => ?_
          rw [ht.root, if_pos (by omega)]
          rfl
        refine ⟨_, _, ?_, .full hf hro hfull⟩
        rw [fopen, Name.ptr, hf]
        simp only [ne_eq, strcmp_mode, hro, not_false_eq_true, if_true, hslot]

theorem opened_append (ht : Table created fs) {p m : ℕ} (hm : created.length ≤ m) (hp : p < m) :
    ∀ f ∈ fs.files ++ [createFile ⟨p, 0⟩], ∀ st, f.stream = some st → st.entry < m := by
  intro f hf st hst
  obtain hmem | hnew := List.mem_append.mp hf
  · exact (ht.opened f hmem st hst).trans_le hm
  · rw [List.mem_singleton] at hnew
    subst hnew
    cases hst
    exact hp

theorem Opens.table {n : Name} {mode : Chars} {r : Option ℕ} {fs' : Filesystem}
    (ht : Table created fs) (ho : Opens created fs n.chars mode r fs') :
    ∃ created', Table created' fs' := by
  cases ho with
  | found p hp _ => exact ⟨_, ht.with_files (opened_append ht (Nat.le_refl _) hp)⟩
  | missing _ _ => exact ⟨_, ht⟩
  | made hf hro hlt =>
    have ht' := ht.create n (new_of_none ht n.no_nul hf) hlt
    have hlen : (created ++ [n.chars]).length = created.length + 1 := List.length_append
    exact ⟨_, ht'.with_files (opened_append ht (by omega) (by omega))⟩
  | full _ _ _ =>
    exact ⟨_, ht.allocated, ht.root, ht.nodup, ht.named, ht.room, ht.short, ht.opened⟩

end Calls

section Runs

theorem step_table {a : Act} {fs' : Filesystem} (ht : Table created fs) (h : Step A fs a fs') :
    ∃ created', Table created' fs' := by
  obtain ⟨hin, hnext⟩ := h
  cases a with
  | call op =>
    obtain ⟨⟨r, fs''⟩, hcall, rfl⟩ := Option.map_eq_some_iff.mp hnext
    cases op with
    | fopen name mode =>
      obtain ⟨r', fs₁, hopen, ho⟩ := fopen_opens ht name mode
      simp only [call, hopen, Option.map_some, Option.some.injEq, Prod.mk.injEq] at hcall
      obtain ⟨-, rfl⟩ := hcall
      exact ho.table ht
    | fputc c i =>
      obtain ⟨f, hf, heq⟩ := Option.map_eq_some_iff.mp hcall
      obtain ⟨-, rfl⟩ := Prod.mk.inj heq
      have hw := ht.writable hf fun st => hin f st hf
      exact ⟨created, (fputc_writable A c hw).call i⟩
    | fwrite p size nmemb b i =>
      obtain ⟨f, hf, heq⟩ := Option.map_eq_some_iff.mp hcall
      obtain ⟨-, rfl⟩ := Prod.mk.inj heq
      have hw := ht.writable hf fun st => hin f st hf
      have hw' := fwrite_keeps (fun c x hx => fputc_writable A c hx) p size 0 nmemb b hw
      exact ⟨created, hw'.call i⟩
    | fgetc i =>
      obtain ⟨f, hf, heq⟩ := Option.map_eq_some_iff.mp hcall
      obtain ⟨-, rfl⟩ := Prod.mk.inj heq
      exact ⟨created, ht.set (fgetc_entry fs (ht.stream hf)) i⟩
    | fread size nmemb b i =>
      obtain ⟨f, hf, heq⟩ := Option.map_eq_some_iff.mp hcall
      obtain ⟨-, rfl⟩ := Prod.mk.inj heq
      have hkeep := fread_keeps
        (P := fun g : File => ∀ st, g.stream = some st → st.entry < created.length)
        (fun g hg => fgetc_entry fs hg) size nmemb b (ht.stream hf)
      exact ⟨created, ht.set hkeep i⟩
    | fclose i =>
      obtain ⟨f, hf, heq⟩ := Option.map_eq_some_iff.mp hcall
      obtain ⟨-, rfl⟩ := Prod.mk.inj heq
      exact ⟨created, ht.set (fclose_entry (ht.stream hf)) i⟩
  | ungetc c i =>
    obtain ⟨f, hf, rfl⟩ := Option.map_eq_some_iff.mp hnext
    refine ⟨created, ht.set (fun st hst => ht.stream hf st ?_) i⟩
    simp only [ungetc] at hst
    split_ifs at hst <;> exact hst
  | fseek pos i =>
    obtain ⟨f, hf, hmap⟩ := Option.bind_eq_some_iff.mp hnext
    obtain ⟨st, hst, rfl⟩ := Option.map_eq_some_iff.mp hmap
    refine ⟨created, ht.set (fun st' hst' => ?_) i⟩
    cases hst'
    exact ht.stream hf st hst

theorem boot_table : Table [] boot := by
  refine ⟨rfl, fun i => rfl, List.nodup_nil, ?_, ?_, Nat.zero_le _, ?_⟩
  · exact fun i hi => absurd hi (Nat.not_lt_zero i)
  · exact fun i hi => absurd hi (Nat.not_lt_zero i)
  · exact fun f hf => absurd hf List.not_mem_nil

theorem run_table {acts : List Act} (h : Run (Step A) boot acts fs) : ∃ created, Table created fs :=
  h.invariant (P := fun fs => ∃ created, Table created fs)
    (fun _ _ _ ⟨_, ht⟩ hstep => step_table ht hstep) ⟨[], boot_table⟩

end Runs

end Jiauliyan.FileTable
