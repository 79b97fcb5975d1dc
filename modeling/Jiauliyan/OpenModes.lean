import Jiauliyan.FileTable

namespace Jiauliyan.OpenModes

open Jiauliyan.Execution Jiauliyan.StringCompare Jiauliyan.Stdio Jiauliyan.FileMap
  Jiauliyan.FileRefinement Jiauliyan.FileTable

def WritesTo (h : ℕ) : Op → Prop
  | .fputc _ i | .fwrite _ _ _ _ i => i = h
  | _ => False

def written : Op → List UInt8
  | .fputc c _ => [byteOf c]
  | .fwrite p size nmemb _ _ => (List.range (nmemb * size)).map p
  | _ => []

def overwrite (new old : List UInt8) : List UInt8 := new ++ old.drop new.length

def charAt (l : List UInt8) (i : ℕ) : ℤ := (l[i]?.map fun c => (c.toNat : ℤ)).getD EOF

def ReadsBack (A : Allocator) (fs : Filesystem) (name : Name) (l : List UInt8) : Prop :=
  ∃ h fs', fopen name.ptr [0x72, 0] 257 fs = some (some h, fs') ∧
    ∀ k, (calls A (List.replicate k (.fgetc h)) fs').map Prod.fst =
      some ((List.range k).map fun i => .int (charAt l i))

def WritesOver (A : Allocator) (fs : Filesystem) (name : Name) (h : ℕ) (old : List UInt8) : Prop :=
  ∀ ws, (∀ w ∈ ws, WritesTo h w) → ∃ rs fs', calls A ws fs = some (rs, fs') ∧
    fileBytes fs' = Function.update (fileBytes fs) name.chars
      (some (overwrite (ws.flatMap written) old)) ∧
    ReadsBack A fs' name (overwrite (ws.flatMap written) old)

/-- What `fopen` does with a name and a mode. -/
structure Honours (A : Allocator) (fs : Filesystem) (name : Name) (mode : Chars) (r : Option ℕ)
    (fs' : Filesystem) : Prop where
  absent : fileBytes fs name.chars = none → ReadOnly mode → r = none ∧ fs' = fs
  full : fileBytes fs name.chars = none → ¬ReadOnly mode → (names fs).length = 256 →
    r = none ∧
      fs' = { fs with console := fs.console ++ ["ERROR: Exceeded max of 256 files!"] }
  made : fileBytes fs name.chars = none → ¬ReadOnly mode → (names fs).length < 256 →
    ∃ h, r = some h ∧ fileBytes fs' = Function.update (fileBytes fs) name.chars (some []) ∧
      WritesOver A fs' name h []
  found : ∀ old, fileBytes fs name.chars = some old →
    ∃ h, r = some h ∧ fileBytes fs' = fileBytes fs ∧ WritesOver A fs' name h old

variable {A : Allocator} {created : List Chars} {fs fs' fs'' : Filesystem} {p q : ℕ}

section Bytes

theorem bytes_length (e : FileEntry) : (bytes e).length = e.size := by simp [bytes]

theorem bytes_getElem (e : FileEntry) (k : ℕ) :
    (bytes e)[k]? = if k < e.size then some (e.data k) else none := by
  by_cases hk : k < e.size
  · rw [if_pos hk, bytes, List.getElem?_map, List.getElem?_range hk, Option.map_some]
  · rw [if_neg hk, List.getElem?_eq_none]
    rw [bytes_length]
    exact Nat.le_of_not_lt hk

theorem putEntry_bytes {e : FileEntry} (c : UInt8) (hroom : e.size ≤ e.max) (hq : q ≤ e.size) :
    bytes (putEntry A q c e) = (bytes e).take q ++ [c] ++ (bytes e).drop (q + 1) := by
  obtain ⟨-, hsize, -⟩ := expand_cases A q e
  have hdata : ∀ k < e.max, (expand A q e).data k = e.data k :=
    fun k hk => expand_data (.inl A.keeps) hk
  have hlen := bytes_length e
  refine List.ext_getElem? fun k => ?_
  rw [bytes_getElem]
  simp only [putEntry, hsize]
  by_cases hlow : k < q
  · have hlt : k < if e.size < q + 1 then q + 1 else e.size := by split_ifs <;> omega
    rw [if_pos hlt, Function.update_of_ne (Nat.ne_of_lt hlow), hdata k (by omega),
      List.append_assoc, List.getElem?_append_left (by simp; omega), List.getElem?_take_of_lt hlow,
      bytes_getElem, if_pos (by omega)]
  · by_cases heq : k = q
    · subst heq
      have hlt : k < if e.size < k + 1 then k + 1 else e.size := by split_ifs <;> omega
      have htake : ((bytes e).take k).length = k := by simp; omega
      rw [if_pos hlt, Function.update_self, List.append_assoc,
        List.getElem?_append_right (by omega), htake, Nat.sub_self]
      rfl
    · have hiff : (k < if e.size < q + 1 then q + 1 else e.size) ↔ k < e.size := by
        split_ifs <;> omega
      have htake : ((bytes e).take q ++ [c]).length = q + 1 := by simp; omega
      rw [List.getElem?_append_right (by omega), htake, List.getElem?_drop,
        show q + 1 + (k - (q + 1)) = k by omega, bytes_getElem]
      simp only [hiff, Function.update_of_ne heq]
      by_cases hk : k < e.size
      · rw [if_pos hk, if_pos hk, hdata k (by omega)]
      · rw [if_neg hk, if_neg hk]

structure Wrote (p q : ℕ) (new : List UInt8) (fs fs' : Filesystem) : Prop where
  entry : bytes (fs'.entries p) = (bytes (fs.entries p)).take q ++ new ++
    (bytes (fs.entries p)).drop (q + new.length)
  rest : ∀ j, j ≠ p → fs'.entries j = fs.entries j

theorem Wrote.nil (p q : ℕ) (fs : Filesystem) : Wrote p q [] fs fs :=
  ⟨by simp, fun _ _ => rfl⟩

theorem Wrote.trans {new new' : List UInt8} (h : Wrote p q new fs fs')
    (h' : Wrote p (q + new.length) new' fs' fs'') (hq : q ≤ (fs.entries p).size) :
    Wrote p q (new ++ new') fs fs'' := by
  have hlen := bytes_length (fs.entries p)
  have hpre : ((bytes (fs.entries p)).take q ++ new).length = q + new.length := by
    rw [List.length_append, List.length_take]
    omega
  refine ⟨?_, fun j hj => (h'.rest j hj).trans (h.rest j hj)⟩
  rw [h'.entry, h.entry, List.take_left' hpre, ← List.drop_drop, List.drop_left' hpre,
    List.drop_drop, List.length_append, Nat.add_assoc]
  simp only [List.append_assoc]

end Bytes

section Loops

variable {σ : Type*} {P : σ → Prop} {put : ℤ → σ → ℤ × σ}

def putAll (put : ℤ → σ → ℤ × σ) (l : List UInt8) (s : σ) : σ :=
  l.foldl (fun s c => (put c.toNat s).2) s

theorem putAll_append (l l' : List UInt8) (s : σ) :
    putAll put (l ++ l') s = putAll put l' (putAll put l s) := List.foldl_append

theorem putAll_keeps (hput : ∀ c s, P s → (put c s).1 ≠ EOF ∧ P (put c s).2) (l : List UInt8)
    {s : σ} (hs : P s) : P (putAll put l s) := by
  induction l generalizing s with
  | nil => exact hs
  | cons c l ih => exact ih (hput _ _ hs).2

theorem range_succ_map (f : ℕ → UInt8) (i k : ℕ) :
    (List.range (k + 1)).map (fun j => f (i + j)) =
      f i :: (List.range k).map fun j => f (i + 1 + j) := by
  rw [List.range_succ_eq_map, List.map_cons, List.map_map, Nat.add_zero]
  congr 1
  refine List.map_congr_left fun j _ => ?_
  rw [Function.comp_apply, Nat.succ_eq_add_one, Nat.add_comm j 1, Nat.add_assoc]

theorem fwriteItem_all (hput : ∀ c s, P s → (put c s).1 ≠ EOF ∧ P (put c s).2) (p : ℕ → UInt8)
    (i k : ℕ) (b : ℤ) {s : σ} (hs : P s) :
    (fwriteItem put p i k b s).2 = putAll put ((List.range k).map fun j => p (i + j)) s ∧
      (0 < k → (fwriteItem put p i k b s).1 ≠ EOF) ∧
      (k = 0 → (fwriteItem put p i k b s).1 = b) := by
  induction k generalizing i b s with
  | zero => exact ⟨rfl, fun h => absurd h (Nat.lt_irrefl 0), fun _ => rfl⟩
  | succ k ih =>
    obtain ⟨hb, hs'⟩ := hput (p i).toNat s hs
    obtain ⟨hall, hne, h0⟩ := ih (i + 1) (put (p i).toNat s).1 hs'
    rw [range_succ_map, fwriteItem]
    simp only [hb, if_false]
    refine ⟨hall, fun _ => ?_, fun h => absurd h (Nat.succ_ne_zero k)⟩
    obtain rfl | hk := Nat.eq_zero_or_pos k
    · rw [h0 rfl]
      exact hb
    · exact hne hk

theorem fwrite_all (hput : ∀ c s, P s → (put c s).1 ≠ EOF ∧ P (put c s).2) (p : ℕ → UInt8)
    (size i n : ℕ) (b : ℤ) {s : σ} (hs : P s) :
    (fwrite put p size i n b s).2 =
      putAll put ((List.range (n * size)).map fun j => p (i * size + j)) s := by
  induction n generalizing i b s with
  | zero =>
    rw [Nat.zero_mul]
    rfl
  | succ n ih =>
    obtain ⟨hall, hne, h0⟩ := fwriteItem_all hput p (i * size) size b hs
    have hmul : (n + 1) * size = size + n * size := by rw [Nat.succ_mul, Nat.add_comm]
    rw [hmul, List.range_add, List.map_append, putAll_append, ← hall, fwrite]
    by_cases hb : (fwriteItem put p (i * size) size b s).1 = EOF
    · -- only items of no bytes stop, and there is nothing to put
      have hsize : size = 0 := Nat.eq_zero_of_not_pos fun hpos => hne hpos hb
      simp only [hb, if_true]
      subst hsize
      rfl
    · have hs' : P (fwriteItem put p (i * size) size b s).2 := by
        rw [hall]
        exact putAll_keeps hput _ hs
      simp only [hb, if_false, ih (i + 1) _ hs', List.map_map]
      congr 1
      refine List.map_congr_left fun j _ => ?_
      rw [Function.comp_apply, Nat.succ_mul, Nat.add_assoc]

end Loops

section Handles

structure Stands (created : List Chars) (x : Filesystem × File) (p q : ℕ) : Prop where
  table : Table created x.1
  entry : p < created.length
  stream : x.2.stream = some ⟨p, q⟩
  hold : x.2.hold = EOF
  pos : q ≤ (x.1.entries p).size

variable {f : File} {h : ℕ}

theorem fputc_stands (A : Allocator) (c : ℤ) {x : Filesystem × File} (hx : Stands created x p q) :
    (fputc A c x).1 = 1 ∧ Stands created (fputc A c x).2 p (q + 1) ∧
      Wrote p q [byteOf c] x.1 (fputc A c x).2.1 ∧ (fputc A c x).2.1.files = x.1.files := by
  obtain ⟨fs, f⟩ := x
  obtain ⟨ht, hp, hst, hhold, hq⟩ := hx
  simp only at ht hst hhold hq
  have hroom := ht.room p hp
  have hput : Table created (fileEntryPut A fs ⟨p, q⟩ (byteOf c)).1 :=
    ht.put (byteOf c) (show q < (fs.entries p).max + 1024 by omega)
  have hentry : ∀ j, (fileEntryPut A fs ⟨p, q⟩ (byteOf c)).1.entries j =
      if j = p then putEntry A q (byteOf c) (fs.entries p) else fs.entries j := by
    intro j
    simp only [fileEntryPut, putEntry, Function.update_apply]
  have hself := hentry p
  rw [if_pos rfl] at hself
  simp only [fputc, hst]
  refine ⟨trivial, ⟨hput, hp, rfl, hhold, ?_⟩, ⟨?_, fun j hj => ?_⟩, rfl⟩
  · rw [hself]
    simp only [putEntry]
    split_ifs <;> omega
  · rw [hself]
    exact putEntry_bytes (byteOf c) hroom hq
  · rw [hentry, if_neg hj]

theorem putAll_stands (A : Allocator) (l : List UInt8) {x : Filesystem × File}
    (hx : Stands created x p q) :
    Stands created (putAll (fputc A) l x) p (q + l.length) ∧
      Wrote p q l x.1 (putAll (fputc A) l x).1 ∧ (putAll (fputc A) l x).1.files = x.1.files := by
  induction l generalizing x q with
  | nil => exact ⟨hx, Wrote.nil p q x.1, rfl⟩
  | cons c l ih =>
    obtain ⟨-, hx', hw, hfiles⟩ := fputc_stands A c.toNat hx
    rw [byteOf_toNat] at hw
    obtain ⟨hx'', hw', hfiles'⟩ := ih hx'
    have hlen : q + (c :: l).length = q + 1 + l.length := by
      rw [List.length_cons]
      omega
    rw [hlen]
    exact ⟨hx'', hw.trans hw' hx.pos, hfiles'.trans hfiles⟩

theorem Stands.set {x : Filesystem × File} (hx : Stands created x p q)
    (hfiles : x.1.files = fs.files) (hf : fs.files[h]? = some f) :
    Stands created (setFile h x.2 x.1, x.2) p q ∧ (setFile h x.2 x.1).files[h]? = some x.2 := by
  refine ⟨⟨hx.table.set (fun st hst => ?_) h, hx.entry, hx.stream, hx.hold, hx.pos⟩, ?_⟩
  · rw [hx.stream] at hst
    cases hst
    exact hx.entry
  · have hlt := (List.getElem?_eq_some_iff.mp hf).1
    simp only [setFile, hfiles]
    exact List.getElem?_set_self hlt

theorem call_write {op : Op} (hop : WritesTo h op) (hf : fs.files[h]? = some f)
    (hx : Stands created (fs, f) p q) :
    ∃ r fs' f', call A fs op = some (r, fs') ∧ fs'.files[h]? = some f' ∧
      Stands created (fs', f') p (q + (written op).length) ∧ Wrote p q (written op) fs fs' := by
  cases op with
  | fputc c i =>
    obtain rfl : i = h := hop
    obtain ⟨-, hx', hw, hfiles⟩ := fputc_stands A c hx
    obtain ⟨hset, hget⟩ := hx'.set hfiles hf
    exact ⟨_, _, _, by rw [call, hf, Option.map_some], hget, hset, hw.entry, hw.rest⟩
  | fwrite b size nmemb e i =>
    obtain rfl : i = h := hop
    have hput : ∀ c x, (∃ q, Stands created x p q) →
        (fputc A c x).1 ≠ EOF ∧ ∃ q, Stands created (fputc A c x).2 p q := by
      rintro c x ⟨q, hx⟩
      obtain ⟨h1, hx', -⟩ := fputc_stands A c hx
      exact ⟨by rw [h1]; decide, _, hx'⟩
    have hall := fwrite_all hput b size 0 nmemb e ⟨q, hx⟩
    simp only [Nat.zero_mul, Nat.zero_add] at hall
    obtain ⟨hx', hw, hfiles⟩ := putAll_stands A ((List.range (nmemb * size)).map b) hx
    rw [← hall] at hx' hw hfiles
    obtain ⟨hset, hget⟩ := hx'.set hfiles hf
    exact ⟨_, _, _, by rw [call, hf, Option.map_some], hget, hset, hw.entry, hw.rest⟩
  | _ => exact hop.elim

theorem calls_write {ws : List Op} (hws : ∀ w ∈ ws, WritesTo h w) (hf : fs.files[h]? = some f)
    (hx : Stands created (fs, f) p q) :
    ∃ rs fs', calls A ws fs = some (rs, fs') ∧ Table created fs' ∧
      Wrote p q (ws.flatMap written) fs fs' := by
  induction ws generalizing fs f q with
  | nil => exact ⟨[], fs, rfl, hx.table, Wrote.nil p q fs⟩
  | cons w ws ih =>
    obtain ⟨r, fs', f', hcall, hf', hx', hw⟩ := call_write (A := A) (hws w List.mem_cons_self) hf hx
    obtain ⟨rs, fs'', hcalls, ht, hw'⟩ := ih (fun v hv => hws v (List.mem_cons_of_mem w hv)) hf' hx'
    refine ⟨r :: rs, fs'', by simp only [calls, hcall, hcalls, Option.map_some], ht, ?_⟩
    rw [List.flatMap_cons]
    exact hw.trans hw' hx.pos

theorem charAt_bytes (e : FileEntry) (q : ℕ) :
    charAt (bytes e) q = if q < e.size then ((e.data q).toNat : ℤ) else EOF := by
  rw [charAt, bytes_getElem]
  split_ifs <;> rfl

theorem call_fgetc (hf : fs.files[h]? = some f) (hx : Stands created (fs, f) p q) :
    ∃ fs' f', call A fs (.fgetc h) = some (.int (charAt (bytes (fs.entries p)) q), fs') ∧
      fs'.files[h]? = some f' ∧ fs'.entries = fs.entries ∧
      Stands created (fs', f') p (if q < (fs.entries p).size then q + 1 else q) := by
  obtain ⟨ht, hp, hst, hhold, hq⟩ := hx
  simp only at ht hst hhold hq
  have hlt := (List.getElem?_eq_some_iff.mp hf).1
  have hset := ht.set (fgetc_entry fs (ht.stream hf)) h
  refine ⟨setFile h (fgetc fs f).2 fs, (fgetc fs f).2, ?_, List.getElem?_set_self hlt, rfl, hset,
    hp, ?_, ?_, ?_⟩
  · rw [call, hf, Option.map_some, charAt_bytes]
    by_cases hend : q < (fs.entries p).size
    · simp [fgetc, hst, hhold, fileEntryGet, hend, Nat.not_le_of_lt hend]
    · simp [fgetc, hst, hhold, fileEntryGet, hend, Nat.le_of_not_lt hend]
  · by_cases hend : q < (fs.entries p).size
    · simp [fgetc, hst, hhold, fileEntryGet, hend, Nat.not_le_of_lt hend]
    · simp [fgetc, hst, hhold, fileEntryGet, hend, Nat.le_of_not_lt hend]
  · simp [fgetc, hst, hhold]
  · simp only [setFile]
    split_ifs <;> omega

theorem calls_fgetc (k : ℕ) (hf : fs.files[h]? = some f) (hx : Stands created (fs, f) p q) :
    (calls A (List.replicate k (.fgetc h)) fs).map Prod.fst =
      some ((List.range k).map fun i => .int (charAt (bytes (fs.entries p)) (q + i))) := by
  induction k generalizing fs f q with
  | zero => rfl
  | succ k ih =>
    obtain ⟨fs', f', hcall, hf', hsame, hx'⟩ := call_fgetc (A := A) hf hx
    have hrest := ih hf' hx'
    obtain ⟨⟨rs, fs''⟩, hcalls, hrs⟩ := Option.map_eq_some_iff.mp hrest
    simp only at hrs
    rw [List.replicate_succ]
    simp only [calls, hcall, hcalls, Option.map_some, Option.some.injEq, hrs, hsame]
    rw [List.range_succ_eq_map, List.map_cons, List.map_map, Nat.add_zero]
    congr 1
    refine List.map_congr_left fun i _ => ?_
    rw [Function.comp_apply, Nat.succ_eq_add_one]
    by_cases hend : q < (fs.entries p).size
    · rw [if_pos hend, Nat.add_comm i 1, Nat.add_assoc]
    · -- at the end of the file it stays there
      rw [if_neg hend, charAt_bytes, charAt_bytes, if_neg (by omega), if_neg (by omega)]

end Handles

section Files

variable {name : Name} {f : File} {h : ℕ}

theorem findEntry_at (ht : Table created fs) (hu : Unshadowed created name.chars)
    (hp : p < created.length) (hn : created[p] = name.chars) :
    findEntry fs (name.chars ++ [0]) = some p := by
  cases hf : findEntry fs (name.chars ++ [0]) with
  | none => exact absurd (hn ▸ List.getElem_mem hp) (new_of_none ht name.no_nul hf)
  | some j =>
    obtain ⟨hj, hjn⟩ := findEntry_some ht.stored name.no_nul hu hf
    rw [ht.nodup.getElem_inj_iff.mp (hjn.trans hn.symm)]

theorem stands_new (ht : Table created fs) (hp : p < created.length) :
    Stands created ({ fs with files := fs.files ++ [createFile ⟨p, 0⟩] }, createFile ⟨p, 0⟩) p 0 :=
  ⟨ht.with_files (opened_append ht (Nat.le_refl _) hp), hp, rfl, rfl, Nat.zero_le _⟩

theorem reads_back (A : Allocator) (ht : Table created fs) (hu : Unshadowed created name.chars)
    (hp : p < created.length) (hn : created[p] = name.chars) :
    ReadsBack A fs name (bytes (fs.entries p)) := by
  have hfind := findEntry_at ht hu hp hn
  obtain ⟨r, fs', hopen, ho⟩ := fopen_opens ht name [0x72]
  cases ho with
  | found j _ hf =>
    obtain rfl : p = j := Option.some.inj (hfind.symm.trans hf)
    refine ⟨_, _, hopen, fun k => ?_⟩
    have hget : (fs.files ++ [createFile ⟨p, 0⟩])[fs.files.length]? = some (createFile ⟨p, 0⟩) :=
      List.getElem?_concat_length
    have hreads := calls_fgetc (A := A) k hget (stands_new ht hp)
    simpa only [Nat.zero_add] using hreads
  | missing hf _ => cases hfind.symm.trans hf
  | made hf _ _ => cases hfind.symm.trans hf
  | full hf _ _ => cases hfind.symm.trans hf

theorem writes_over (A : Allocator) (hu : Unshadowed created name.chars)
    (hp : p < created.length) (hn : created[p] = name.chars) (hx : Stands created (fs, f) p 0)
    (hf : fs.files[h]? = some f) : WritesOver A fs name h (bytes (fs.entries p)) := by
  intro ws hws
  obtain ⟨rs, fs', hcalls, ht', hw⟩ := calls_write hws hf hx
  have hentry : bytes (fs'.entries p) = overwrite (ws.flatMap written) (bytes (fs.entries p)) := by
    simpa only [overwrite, List.take_zero, List.nil_append, Nat.zero_add] using hw.entry
  have hback := reads_back A ht' hu hp hn
  rw [hentry] at hback
  refine ⟨rs, fs', hcalls, ?_, hback⟩
  funext m
  by_cases hm : m = name.chars
  · subst hm
    rw [Function.update_self, ← hn, fileBytes_some ht' hp, hentry]
  · rw [Function.update_of_ne hm]
    by_cases hmem : m ∈ created
    · obtain ⟨j, hj, rfl⟩ := List.getElem_of_mem hmem
      have hne : j ≠ p := by
        rintro rfl
        exact hm hn
      rw [fileBytes_some ht' hj, fileBytes_some hx.table hj, hw.rest j hne]
    · rw [fileBytes_none ht' hmem, fileBytes_none hx.table hmem]

theorem createEntry_entries (ht : Table created fs) (j : ℕ) :
    (createEntry fs name.ptr created.length).entries j =
      if j = created.length then ⟨strncpy name.ptr 256, fun _ => 0, 0, 0⟩ else fs.entries j := by
  simp only [createEntry, ht.allocated, Function.update_apply]

theorem create_bytes (ht : Table created fs)
    (ht' : Table (created ++ [name.chars]) fs')
    (hsame : fs'.entries = (createEntry fs name.ptr created.length).entries) :
    fileBytes fs' = Function.update (fileBytes fs) name.chars (some []) := by
  have hlen : (created ++ [name.chars]).length = created.length + 1 := List.length_append
  funext m
  by_cases hm : m = name.chars
  · subst hm
    have hlast : (created ++ [name.chars])[created.length] = name.chars :=
      List.getElem_concat_length rfl _
    have hbytes := fileBytes_some ht' (show created.length < _ by omega)
    rw [hlast, hsame, createEntry_entries ht, if_pos rfl] at hbytes
    rw [Function.update_self, hbytes]
    rfl
  · rw [Function.update_of_ne hm]
    by_cases hmem : m ∈ created
    · obtain ⟨j, hj, rfl⟩ := List.getElem_of_mem hmem
      have hbytes := fileBytes_some ht' (show j < _ by omega)
      rw [List.getElem_append_left hj, hsame, createEntry_entries ht, if_neg (Nat.ne_of_lt hj)]
        at hbytes
      rw [hbytes, fileBytes_some ht hj]
    · have hmem' : m ∉ created ++ [name.chars] := by
        rw [List.mem_append, List.mem_singleton]
        exact not_or.mpr ⟨hmem, hm⟩
      rw [fileBytes_none ht' hmem', fileBytes_none ht hmem]

theorem opens_honours (A : Allocator) {mode : Chars} {r : Option ℕ} (ht : Table created fs)
    (hu : Unshadowed created name.chars) (ho : Opens created fs name.chars mode r fs') :
    Honours A fs name mode r fs' := by
  have hnames := congrArg List.length (names_eq ht)
  cases ho with
  | found p hp hfind =>
    obtain ⟨_, hn⟩ := findEntry_some ht.stored name.no_nul hu hfind
    have hbytes := fileBytes_some ht hp
    rw [hn] at hbytes
    have hget : (fs.files ++ [createFile ⟨p, 0⟩])[fs.files.length]? = some (createFile ⟨p, 0⟩) :=
      List.getElem?_concat_length
    refine ⟨?_, ?_, ?_, fun old hold => ⟨_, rfl, rfl, ?_⟩⟩
    · exact fun h _ => nomatch hbytes.symm.trans h
    · exact fun h _ _ => nomatch hbytes.symm.trans h
    · exact fun h _ _ => nomatch hbytes.symm.trans h
    · obtain rfl := Option.some.inj (hbytes.symm.trans hold)
      exact writes_over A hu hp hn (stands_new ht hp) hget
  | missing hfind hro =>
    have hnone := fileBytes_none ht (new_of_none ht name.no_nul hfind)
    exact ⟨fun _ _ => ⟨rfl, rfl⟩, fun _ h => absurd hro h, fun _ h => absurd hro h,
      fun old hold => nomatch hnone.symm.trans hold⟩
  | made hfind hro hlt =>
    have hnew := new_of_none ht name.no_nul hfind
    have hnone := fileBytes_none ht hnew
    have hlen : (created ++ [name.chars]).length = created.length + 1 := List.length_append
    have hp : created.length < (created ++ [name.chars]).length := by omega
    have hlast : (created ++ [name.chars])[created.length] = name.chars :=
      List.getElem_concat_length rfl _
    have ht₁ := ht.create name hnew hlt
    have hu' := unshadowed_new ht.stored name.no_nul ht.short hfind
    have hx := stands_new ht₁ hp
    have hget : (fs.files ++ [createFile ⟨created.length, 0⟩])[fs.files.length]? =
        some (createFile ⟨created.length, 0⟩) := List.getElem?_concat_length
    have hover := writes_over A hu' hp hlast hx hget
    have hempty : bytes ((createEntry fs name.ptr created.length).entries created.length) = [] := by
      rw [createEntry_entries ht, if_pos rfl]
      rfl
    simp only [hempty] at hover
    exact ⟨fun _ h => absurd h hro, fun _ _ h => by omega,
      fun _ _ _ => ⟨_, rfl, create_bytes ht hx.table rfl, hover⟩,
      fun old hold => nomatch hnone.symm.trans hold⟩
  | full hfind hro hfull =>
    have hnone := fileBytes_none ht (new_of_none ht name.no_nul hfind)
    exact ⟨fun _ h => absurd h hro, fun _ _ _ => ⟨rfl, rfl⟩, fun _ _ h => by omega,
      fun old hold => nomatch hnone.symm.trans hold⟩

theorem fopen_honours (A : Allocator) (acts : List Act) (fs : Filesystem)
    (hrun : Run (Step A) boot acts fs) (name : Name) (mode : Chars)
    (hu : Unshadowed (names fs) name.chars) :
    ∃ r fs', fopen name.ptr (mode ++ [0]) 257 fs = some (r, fs') ∧
      Honours A fs name mode r fs' := by
  obtain ⟨created, ht⟩ := run_table hrun
  rw [names_eq ht] at hu
  obtain ⟨r, fs', hopen, ho⟩ := fopen_opens ht name mode
  exact ⟨r, fs', hopen, opens_honours A ht hu ho⟩

theorem boot_honours :
    ∃ r fs', fopen [0x61, 0] [0x72, 0] 257 boot = some (r, fs') ∧
      Honours ⟨⟨fun data _ _ => data⟩, fun _ _ _ _ _ _ => rfl⟩ boot
        ⟨[0x61], by decide, by decide⟩ [0x72] r fs' :=
  fopen_honours _ [] boot (Run.nil boot) ⟨[0x61], by decide, by decide⟩ [0x72] (by decide)

/-- A file with one byte still has it after it was opened with `w`, and with `r`
it is also opened under a name that its own begins with. -/
theorem open_modes_ignored :
    ∃ (A : Allocator) (acts : List Act) (fs : Filesystem) (name : Name) (fs' : Filesystem) (h : ℕ)
      (other : Name) (fs'' : Filesystem) (h' : ℕ), Run (Step A) boot acts fs ∧
      fopen name.ptr [0x77, 0] 257 fs = some (some h, fs') ∧
      fileBytes fs' name.chars = some [0x58] ∧ fileBytes fs other.chars = none ∧
      fopen other.ptr [0x72, 0] 257 fs = some (some h', fs'') := by
  let A : Allocator := ⟨⟨fun data _ _ => data⟩, fun _ _ _ _ _ _ => rfl⟩
  let n : Name := ⟨[0x61, 0x62], by decide, by decide⟩
  let m : Name := ⟨[0x61], by decide, by decide⟩
  have hro : ¬ReadOnly [0x77] := by decide
  obtain ⟨r, fs₁, hopen, ho⟩ := fopen_opens boot_table n [0x77]
  cases ho with
  | found p hp _ => exact absurd hp (Nat.not_lt_zero p)
  | missing _ h => exact absurd h hro
  | full _ _ h => cases h
  | made hfind _ hlt =>
    have ht := boot_table.create n (new_of_none boot_table n.no_nul hfind) hlt
    have hu := unshadowed_new boot_table.stored n.no_nul boot_table.short hfind
    let fs₁ : Filesystem := { createEntry boot n.ptr 0 with files := [createFile ⟨0, 0⟩] }
    have hx : Stands ([] ++ [n.chars]) (fs₁, createFile ⟨0, 0⟩) 0 0 := stands_new ht (by decide)
    have hstep : Step A boot (.call (.fopen n [0x77])) fs₁ :=
      ⟨trivial, by rw [next, call, hopen]; rfl⟩
    obtain ⟨r', fs₂, f₂, hcall, -, hx₂, hw⟩ := call_write (A := A) (h := 0)
      (show WritesTo 0 (.fputc 0x58 0) from rfl) rfl hx
    have hstep' : Step A fs₁ (.call (.fputc 0x58 0)) fs₂ := by
      refine ⟨fun f st hf hst => ?_, by rw [next, hcall]; rfl⟩
      cases hf
      cases hst
      exact Nat.succ_pos _
    have hrun := Run.cons hstep (Run.cons hstep' (Run.nil fs₂))
    have hp : 0 < ([] ++ [n.chars]).length := by decide
    have hbytes := fileBytes_some hx₂.table hp
    have hentry : bytes (fs₂.entries 0) = [0x58] := hw.entry
    rw [hentry] at hbytes
    have hfind' := findEntry_at hx₂.table hu hp rfl
    -- the other name finds the same entry
    have hnone := fileBytes_none hx₂.table (show m.chars ∉ [] ++ [n.chars] by decide)
    have hother : findEntry fs₂ (m.chars ++ [0]) ≠ none := fun hf =>
      findEntry_none hx₂.table.stored m.no_nul hx₂.table.short hf hp
        (show ([0x61] : Chars) <+: [0x61, 0x62] by decide)
    obtain ⟨_, fs', hopen', ho'⟩ := fopen_opens hx₂.table n [0x77]
    obtain ⟨_, fs'', hopen'', ho''⟩ := fopen_opens hx₂.table m [0x72]
    cases ho' with
    | missing hf _ => cases hfind'.symm.trans hf
    | made hf _ _ => cases hfind'.symm.trans hf
    | full hf _ _ => cases hfind'.symm.trans hf
    | found _ _ _ =>
      cases ho'' with
      | missing hf _ => exact absurd hf hother
      | made hf _ _ => exact absurd hf hother
      | full hf _ _ => exact absurd hf hother
      | found _ _ _ => exact ⟨A, _, fs₂, n, _, _, m, _, _, hrun, hopen', hbytes, hnone, hopen''⟩

end Files

end Jiauliyan.OpenModes
