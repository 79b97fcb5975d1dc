import Jiauliyan.Execution
import Jiauliyan.FileOps
import Jiauliyan.FileTable
import Jiauliyan.FormatHeap
import Jiauliyan.Lockstep

namespace Jiauliyan.RecycledMemory

open Jiauliyan.Execution Jiauliyan.StringCompare Jiauliyan.Bytestreams Jiauliyan.Format
open Jiauliyan.FormatHeap Jiauliyan.FileOps Jiauliyan.Lockstep
open Jiauliyan.Stdio (EOF byteOf Realloc Filesystem FileEntry findEntry)
open Jiauliyan.FileTable (putEntry expand_cases expand_data)

/-- What the memory that `malloc` and `realloc` return has held before: the bytes of `ferr`, which
`fopen` does not set, what `realloc` makes of the data of files, and what the fields of the `n`-th
call are formatted in. -/
structure Recycled where
  ferr : ℤ
  alloc : Realloc
  heap : ℕ → Heap
  block : ℕ → ℕ → ℕ → UInt8

/-- `fopen` of an existing file, as it leaves the `FILE` and its `stream_s`. -/
def fopenExisting (M : Recycled) (fs : Filesystem) (filename : Chars) :
    Option (FILE EntryStream) :=
  (findEntry fs filename).bind fun i =>
    (fs.root i).map fun p => createFile ⟨⟨fs, p, 0⟩, M.ferr⟩

def inMemory (M : Recycled) (n : ℕ) : Op → Op
  | .vfprintf a => .vfprintf { a with heap := M.heap n, block := M.block n }
  | op => op

def perform (M : Recycled) (n : ℕ) (f : FILE EntryStream) (op : Op) :
    Except Fault (Reply × FILE EntryStream) :=
  call (entryFunctions M.alloc) f (inMemory M n op)

/-- The replies of the calls from the `n`-th on, up to a fault. -/
def replies (M : Recycled) : ℕ → FILE EntryStream → List Op → List (Except Fault Reply)
  | _, _, [] => []
  | n, f, op :: ops =>
    match perform M n f op with
    | .error e => [.error e]
    | .ok (r, f') => .ok r :: replies M (n + 1) f' ops

/-- In both memories, the calls on the file give the same replies, and `ferror` says 0. -/
def Invisible (M M' : Recycled) (fs : Filesystem) (filename : Chars) (ops : List Op) : Prop :=
  ∀ f f', fopenExisting M fs filename = some f → fopenExisting M' fs filename = some f' →
    replies M 0 f ops = replies M' 0 f' ops ∧
      ∀ (i : ℕ) (k : ℤ), ops[i]? = some .ferror →
        (replies M 0 f ops)[i]? = some (.ok (.int k)) → k = 0

/-- The end of the buffer, of which `realloc` makes the first 1024 bytes out of nothing. -/
def bufferEnd (e : FileEntry) : ℕ := if e.max = 0 then 1024 else e.max

/-- The next of `n` bytes goes into the data or right behind it, the data is in its buffer, and
the last of them is in it too, unless `realloc` is known to keep the data (`kept`). -/
structure Tight (kept : Prop) (n : ℕ) (s : EntryStream) : Prop where
  gapless : s.pos ≤ (s.fs.entries s.entry).size
  room : (s.fs.entries s.entry).size ≤ (s.fs.entries s.entry).max
  inside : kept ∨ s.pos + n ≤ bufferEnd (s.fs.entries s.entry)

def Fits (kept : Prop) (n : ℕ) (f : FILE EntryStream) : Prop :=
  ∀ st, f.stream = some st → Tight kept n st.data

/-- Every field has a terminator of its own, and its buffer does not grow, unless `kept`. -/
def Terminated (kept : Prop) (a : Arguments) : Prop :=
  ∀ cv ∈ formatted a.world (scan a.mem 0 a.format a.ap), ∀ out, field a.world cv = some out →
    0 ∈ out ∧ (kept ∨ out.length ≤ BUFSIZ)

/-- A call that looks at no recycled memory; `cleared` says that `clearerr` was called. -/
def Clean (kept : Prop) (cleared : Bool) (f : FILE EntryStream) : Op → Prop
  | .ferror => cleared = true ∨ f.stream = none
  | .fputc _ => Fits kept 1 f
  | .fputs string => content string ≠ [] → Fits kept (content string).length f
  | .fwrite _ size nmemb _ => 0 < size → 0 < nmemb → Fits kept (size * nmemb) f
  | .vfprintf a =>
    Terminated kept a ∧ (a.output.bytes ≠ [] → Fits kept a.output.bytes.length f)
  | _ => True

def clears : Op → Bool
  | .clearerr => true
  | _ => false

/-- A file between calls, with the number of calls made. -/
structure State where
  n : ℕ
  cleared : Bool
  file : FILE EntryStream

def next (M : Recycled) (s : State) (op : Op) : Option State :=
  match perform M s.n s.file op with
  | .error _ => none
  | .ok (_, f) => some ⟨s.n + 1, s.cleared || clears op, f⟩

structure AlikeEntry (e e' : FileEntry) : Prop where
  size : e'.size = e.size
  max : e'.max = e.max
  data : ∀ i < e.size, e'.data i = e.data i

structure AlikeData (s s' : EntryStream) : Prop where
  entry : s'.entry = s.entry
  pos : s'.pos = s.pos
  file : AlikeEntry (s.fs.entries s.entry) (s'.fs.entries s.entry)

def AlikeStream (cleared : Bool) (st st' : StreamS EntryStream) : Prop :=
  AlikeData st.data st'.data ∧ (cleared = true → st.ferr = 0 ∧ st'.ferr = 0)

inductive Alike (cleared : Bool) : FILE EntryStream → FILE EntryStream → Prop
  | closed (pos : ℤ) (eof : Bool) (hold : ℤ) :
      Alike cleared ⟨none, pos, eof, hold⟩ ⟨none, pos, eof, hold⟩
  | opened {st st' : StreamS EntryStream} (pos : ℤ) (eof : Bool) (hold : ℤ) :
      AlikeStream cleared st st' →
        Alike cleared ⟨some st, pos, eof, hold⟩ ⟨some st', pos, eof, hold⟩

variable {A B : Realloc} {kept : Prop} {cleared : Bool} {f f' : FILE EntryStream}
  {s s' : EntryStream} {st st' : StreamS EntryStream} {n : ℕ}

theorem Tight.mono {m : ℕ} (h : Tight kept n s) (hm : m ≤ n) : Tight kept m s :=
  ⟨h.gapless, h.room, h.inside.imp_right fun hin => by omega⟩

theorem get_eq (A : Realloc) (s : EntryStream) : (entryFunctions A).get s =
    if s.pos < 0 then none
    else if (s.fs.entries s.entry).size ≤ s.pos.toNat then some (EOF, s)
    else some (((s.fs.entries s.entry).data s.pos.toNat).toNat, { s with pos := s.pos + 1 }) := by
  by_cases hneg : s.pos < 0
  · simp only [entryFunctions, if_pos hneg]
  · have hpos : (s.pos.toNat : ℤ) = s.pos := by omega
    have hsucc : ((s.pos.toNat + 1 : ℕ) : ℤ) = s.pos + 1 := by omega
    simp only [entryFunctions, Stdio.fileEntryGet, if_neg hneg]
    split_ifs
    · simp only [hpos]
    · simp only [hsucc]

def putStream (A : Realloc) (c : UInt8) (s : EntryStream) : EntryStream where
  fs := { s.fs with
    entries := Function.update s.fs.entries s.entry
      (putEntry A s.pos.toNat c (s.fs.entries s.entry)) }
  entry := s.entry
  pos := s.pos + 1

theorem put_eq (A : Realloc) (c : UInt8) (s : EntryStream) :
    (entryFunctions A).put c s = if s.pos < 0 then none else some (putStream A c s) := by
  by_cases hneg : s.pos < 0
  · simp only [entryFunctions, if_pos hneg]
  · have hsucc : ((s.pos.toNat + 1 : ℕ) : ℤ) = s.pos + 1 := by omega
    simp only [entryFunctions, Stdio.fileEntryPut, if_neg hneg, hsucc]
    rfl

theorem get_alike (h : AlikeStream cleared st st') :
    Both (Same (AlikeStream cleared)) (streamGet (entryFunctions A) st)
      (streamGet (entryFunctions B) st') := by
  obtain ⟨hd, hferr⟩ := h
  rw [streamGet, streamGet, get_eq, get_eq, hd.pos, hd.entry, hd.file.size]
  by_cases hneg : st.data.pos < 0
  · rw [if_pos hneg, if_pos hneg]
    exact .error _
  rw [if_neg hneg, if_neg hneg]
  by_cases hend : (st.data.fs.entries st.data.entry).size ≤ st.data.pos.toNat
  · rw [if_pos hend, if_pos hend]
    exact .ok ⟨rfl, hd, hferr⟩
  · rw [if_neg hend, if_neg hend, hd.file.data _ (Nat.not_le.mp hend)]
    exact .ok ⟨rfl, ⟨rfl, rfl, hd.file⟩, hferr⟩

theorem putEntry_data {pos : ℕ} (c : UInt8) {e : FileEntry} (hpos : pos ≤ e.size)
    (hroom : e.size ≤ e.max) (hin : A.Keeps ∨ pos < e.max ∨ e.max = 0) :
    (putEntry A pos c e).size = max e.size (pos + 1) ∧
      (putEntry A pos c e).max = (if e.max ≤ pos then e.max + 1024 else e.max) ∧
      ∀ i < max e.size (pos + 1),
        (putEntry A pos c e).data i = if i = pos then c else e.data i := by
  obtain ⟨-, hsize, -⟩ := expand_cases A pos e
  refine ⟨?_, ?_, fun i hi => ?_⟩
  · simp only [putEntry, hsize]
    split_ifs <;> omega
  · simp only [putEntry, Stdio.expand]
    split_ifs <;> rfl
  · simp only [putEntry, Function.update_apply]
    by_cases hip : i = pos
    · rw [if_pos hip, if_pos hip]
    · rw [if_neg hip, if_neg hip]
      exact expand_data hin (by omega)

theorem putEntry_alike {pos : ℕ} (c : UInt8) {e e' : FileEntry} (h : AlikeEntry e e')
    (hpos : pos ≤ e.size) (hroom : e.size ≤ e.max)
    (hin : (A.Keeps ∧ B.Keeps) ∨ pos < e.max ∨ e.max = 0) :
    AlikeEntry (putEntry A pos c e) (putEntry B pos c e') ∧
      pos + 1 ≤ (putEntry A pos c e).size ∧
      (putEntry A pos c e).size ≤ (putEntry A pos c e).max := by
  have hpos' : pos ≤ e'.size := by rw [h.size]; exact hpos
  have hroom' : e'.size ≤ e'.max := by rw [h.size, h.max]; exact hroom
  obtain ⟨hs, hm, hd⟩ := putEntry_data (A := A) c hpos hroom (hin.imp_left And.left)
  obtain ⟨hs', hm', hd'⟩ := putEntry_data (A := B) c hpos' hroom'
    (by rw [h.max]; exact hin.imp_left And.right)
  rw [h.size] at hs' hd'
  refine ⟨⟨hs'.trans hs.symm, by rw [hm', hm, h.max], fun i hi => ?_⟩, ?_, ?_⟩
  · rw [hs] at hi
    rw [hd i hi, hd' i hi]
    split_ifs with hip
    · rfl
    · exact h.data i (by omega)
  · rw [hs]
    omega
  · rw [hs, hm]
    split_ifs <;> omega

theorem putEntry_bufferEnd {pos : ℕ} (c : UInt8) {e : FileEntry} (hpos : pos ≤ e.size)
    (hroom : e.size ≤ e.max) (hin : pos < e.max ∨ e.max = 0) :
    bufferEnd (putEntry A pos c e) = bufferEnd e := by
  have hmax := (putEntry_data (A := A) c hpos hroom (.inr hin)).2.1
  simp only [bufferEnd, hmax]
  split_ifs <;> omega

theorem Tight.next (h : Tight kept (n + 1) s) (hpos : 0 ≤ s.pos) :
    kept ∨ s.pos.toNat < (s.fs.entries s.entry).max ∨ (s.fs.entries s.entry).max = 0 := by
  refine h.inside.imp_right fun hin => ?_
  unfold bufferEnd at hin
  split_ifs at hin with h0
  · exact .inr h0
  · exact .inl (by omega)

theorem putStream_alike (hkept : kept → A.Keeps ∧ B.Keeps) (c : UInt8) (h : AlikeData s s')
    (hpos : 0 ≤ s.pos) (ht : Tight kept (n + 1) s) :
    AlikeData (putStream A c s) (putStream B c s') ∧ Tight kept n (putStream A c s) := by
  have hle := ht.gapless
  have hpos' : s.pos.toNat ≤ (s.fs.entries s.entry).size := by omega
  have hnext := ht.next hpos
  obtain ⟨hfile, hsucc, hroom'⟩ :=
    putEntry_alike (A := A) (B := B) c h.file hpos' ht.room (hnext.imp_left hkept)
  have hu : (putStream A c s).fs.entries s.entry =
      putEntry A s.pos.toNat c (s.fs.entries s.entry) := Function.update_self _ _ _
  have hu' : (putStream B c s').fs.entries s.entry =
      putEntry B s.pos.toNat c (s'.fs.entries s.entry) := by
    rw [← h.entry, ← h.pos]
    exact Function.update_self _ _ _
  have hadv : (putStream A c s).pos = s.pos + 1 := rfl
  have hentry : (putStream A c s).entry = s.entry := rfl
  refine ⟨⟨h.entry, ?_, ?_⟩, ?_, ?_, ?_⟩
  · rw [hadv, ← h.pos]
    rfl
  · rw [hentry, hu, hu']
    exact hfile
  · rw [hentry, hu, hadv]
    omega
  · rw [hentry, hu]
    exact hroom'
  · by_cases hk : kept
    · exact .inl hk
    · have hin := ht.inside.resolve_left hk
      right
      rw [hentry, hu, hadv, putEntry_bufferEnd c hpos' ht.room (hnext.resolve_left hk)]
      omega

theorem put_alike (hkept : kept → A.Keeps ∧ B.Keeps) (c : UInt8)
    (h : AlikeStream cleared st st') (ht : Tight kept (n + 1) st.data) :
    Both (fun u u' => AlikeStream cleared u u' ∧ Tight kept n u.data)
      (streamPutchar (entryFunctions A) c st) (streamPutchar (entryFunctions B) c st') := by
  obtain ⟨hd, hferr⟩ := h
  rw [streamPutchar, streamPutchar, put_eq, put_eq, hd.pos]
  by_cases hneg : st.data.pos < 0
  · rw [if_pos hneg, if_pos hneg]
    exact .error _
  · rw [if_neg hneg, if_neg hneg]
    obtain ⟨hd', ht'⟩ := putStream_alike hkept c hd (Int.not_lt.mp hneg) ht
    exact .ok ⟨⟨hd', hferr⟩, ht'⟩

theorem putstring_alike (hkept : kept → A.Keeps ∧ B.Keeps) (string : Chars)
    (h : AlikeStream cleared st st')
    (ht : string ≠ [] → Tight kept string.length st.data) :
    Both (AlikeStream cleared) (streamPutstring (entryFunctions A) string st)
      (streamPutstring (entryFunctions B) string st') := by
  induction string generalizing st st' with
  | nil => exact .ok h
  | cons c string ih =>
    exact (put_alike hkept c h (ht (List.cons_ne_nil c string))).bind fun u u' hu =>
      ih hu.1 fun _ => hu.2

theorem fgetc_alike (h : Alike cleared f f') :
    Both (Same (Alike cleared)) (fgetc (entryFunctions A) f) (fgetc (entryFunctions B) f') := by
  cases h with
  | closed pos eof hold => exact .ok ⟨rfl, .closed pos eof hold⟩
  | opened pos eof hold hst =>
    by_cases hh : hold ≠ EOF
    · simp only [fgetc, if_pos hh]
      exact .ok ⟨rfl, .opened _ _ _ hst⟩
    · simp only [fgetc, if_neg hh]
      refine (get_alike hst).map fun p q hpq => ?_
      obtain ⟨a, u⟩ := p
      obtain ⟨a', u'⟩ := q
      obtain ⟨rfl, hu⟩ := hpq
      exact ⟨rfl, .opened _ _ _ hu⟩

theorem fgetsLoop_alike (k : ℕ) (c : ℤ) (h : Alike cleared f f') :
    Both (Same (Alike cleared)) (fgetsLoop (entryFunctions A) k c f)
      (fgetsLoop (entryFunctions B) k c f') := by
  induction k generalizing f f' c with
  | zero => exact .ok ⟨rfl, h⟩
  | succ k ih =>
    rw [fgetsLoop, fgetsLoop]
    by_cases hc : c = 10
    · rw [if_pos hc, if_pos hc]
      exact .ok ⟨rfl, h⟩
    · rw [if_neg hc, if_neg hc]
      refine (fgetc_alike h).bind fun p q hpq => ?_
      obtain ⟨a, g⟩ := p
      obtain ⟨a', g'⟩ := q
      obtain ⟨rfl, hg⟩ := hpq
      simp only
      by_cases ha : a = EOF
      · rw [if_pos ha, if_pos ha]
        exact .ok ⟨rfl, hg⟩
      · rw [if_neg ha, if_neg ha]
        exact (ih a hg).map fun p q hpq => ⟨congrArg (byteOf a :: ·) hpq.1, hpq.2⟩

theorem fgets_alike (n : ℤ) (h : Alike cleared f f') :
    Both (Same (Alike cleared)) (fgets (entryFunctions A) n f)
      (fgets (entryFunctions B) n f') := by
  cases h with
  | closed pos eof hold => exact .ok ⟨rfl, .closed pos eof hold⟩
  | opened pos eof hold hst =>
    refine (fgetsLoop_alike n.toNat EOF (.opened (pos + 1) eof hold hst)).map fun p q hpq => ?_
    exact ⟨congrArg (fun str => some (str ++ [0])) hpq.1, hpq.2⟩

def AlikeAt (kept : Prop) (cleared : Bool) (n : ℕ) (f f' : FILE EntryStream) : Prop :=
  Alike cleared f f' ∧ Fits kept n f

theorem fputc_alike (hkept : kept → A.Keeps ∧ B.Keeps) (c : ℤ)
    (h : AlikeAt kept cleared (n + 1) f f') :
    Both (Same (AlikeAt kept cleared n)) (fputc (entryFunctions A) c f)
      (fputc (entryFunctions B) c f') := by
  obtain ⟨h, hgap⟩ := h
  cases h with
  | closed pos eof hold => exact .ok ⟨rfl, .closed pos eof hold, nofun⟩
  | opened pos eof hold hst =>
    refine (put_alike hkept (byteOf c) hst (hgap _ rfl)).map fun u u' hu =>
      ⟨rfl, .opened _ _ _ hu.1, ?_⟩
    intro v hv
    cases hv
    exact hu.2

theorem fputs_alike (hkept : kept → A.Keeps ∧ B.Keeps) (string : Chars) (h : Alike cleared f f')
    (hgap : content string ≠ [] → Fits kept (content string).length f) :
    Both (Same (Alike cleared)) (fputs (entryFunctions A) string f)
      (fputs (entryFunctions B) string f') := by
  cases h with
  | closed pos eof hold => exact .ok ⟨rfl, .closed pos eof hold⟩
  | opened pos eof hold hst =>
    refine (putstring_alike hkept (content string) hst fun hne => hgap hne _ rfl).map
      fun u u' hu => ?_
    exact ⟨rfl, .opened _ _ _ hu⟩

theorem ungetc_alike (c : ℤ) (h : Alike cleared f f') :
    Same (Alike cleared) (ungetc c f) (ungetc c f') := by
  cases h with
  | closed pos eof hold =>
    by_cases hh : hold ≠ EOF ∨ c = EOF
    · simp only [ungetc, if_pos hh]
      exact ⟨rfl, .closed _ _ _⟩
    · simp only [ungetc, if_neg hh]
      exact ⟨rfl, .closed _ _ _⟩
  | opened pos eof hold hst =>
    by_cases hh : hold ≠ EOF ∨ c = EOF
    · simp only [ungetc, if_pos hh]
      exact ⟨rfl, .opened _ _ _ hst⟩
    · simp only [ungetc, if_neg hh]
      exact ⟨rfl, .opened _ _ _ hst⟩

theorem fseek_alike (offset whence : ℤ) (h : Alike cleared f f') :
    Both (Same (Alike cleared)) (fseek (entryFunctions A) offset whence f)
      (fseek (entryFunctions B) offset whence f') := by
  cases h with
  | closed pos eof hold => exact .error _
  | opened pos eof hold hst =>
    exact .ok ⟨rfl, .opened _ _ _ ⟨⟨hst.1.entry, rfl, hst.1.file⟩, hst.2⟩⟩

theorem fclose_alike (h : Alike cleared f f') :
    Same (Alike cleared) (fclose f) (fclose f') := by
  cases h with
  | closed pos eof hold => exact ⟨rfl, .closed pos eof hold⟩
  | opened pos eof hold hst => exact ⟨rfl, .closed pos eof hold⟩

theorem clearerr_alike (h : Alike cleared f f') :
    Both (Alike true) (clearerr f) (clearerr f') := by
  cases h with
  | closed pos eof hold => exact .error _
  | opened pos eof hold hst => exact .ok (.opened _ _ _ ⟨hst.1, fun _ => ⟨rfl, rfl⟩⟩)

theorem ferror_alike (h : Alike cleared f f') (hc : cleared = true ∨ f.stream = none) :
    Both (fun a b => a = 0 ∧ b = 0) (ferror f) (ferror f') := by
  cases h with
  | closed pos eof hold => exact .error _
  | opened pos eof hold hst =>
    have hcl : cleared = true := hc.resolve_right (by simp)
    exact .ok (hst.2 hcl)

section Blocks

variable {σ σ' : Type*} {Q : σ → σ' → Prop} {get : σ → ℤ × σ} {get' : σ' → ℤ × σ'}
  {put : ℤ → σ → ℤ × σ} {put' : ℤ → σ' → ℤ × σ'} {t : σ} {t' : σ'}

theorem freadItem_alike (hget : ∀ t t', Q t t' → Same Q (get t) (get' t')) (size : ℕ) (b : ℤ)
    (h : Q t t') :
    Same (Same Q) (Stdio.freadItem get size b t) (Stdio.freadItem get' size b t') := by
  induction size generalizing b t t' with
  | zero => exact ⟨rfl, rfl, h⟩
  | succ size ih =>
    obtain ⟨hb, hs⟩ := hget t t' h
    rw [Stdio.freadItem, Stdio.freadItem]
    simp only [← hb]
    by_cases heof : (get t).1 = EOF
    · rw [if_pos heof, if_pos heof]
      exact ⟨rfl, rfl, hs⟩
    · rw [if_neg heof, if_neg heof]
      obtain ⟨hb', hp, hs'⟩ := ih (get t).1 hs
      exact ⟨hb', congrArg (byteOf (get t).1 :: ·) hp, hs'⟩

theorem fread_loop_alike (hget : ∀ t t', Q t t' → Same Q (get t) (get' t')) (size nmemb : ℕ)
    (b : ℤ) (h : Q t t') :
    Same (Same Q) (Stdio.fread get size nmemb b t) (Stdio.fread get' size nmemb b t') := by
  induction nmemb generalizing b t t' with
  | zero => exact ⟨rfl, rfl, h⟩
  | succ nmemb ih =>
    obtain ⟨hb, hp, hs⟩ := freadItem_alike hget size b h
    rw [Stdio.fread, Stdio.fread]
    simp only [← hb, ← hp]
    by_cases heof : (Stdio.freadItem get size b t).1 = EOF
    · rw [if_pos heof, if_pos heof]
      exact ⟨rfl, rfl, hs⟩
    · rw [if_neg heof, if_neg heof]
      obtain ⟨hn, hp', hs'⟩ := ih (Stdio.freadItem get size b t).1 hs
      exact ⟨congrArg (· + 1) hn, congrArg ((Stdio.freadItem get size b t).2.1 ++ ·) hp', hs'⟩

theorem fwriteItem_alike {R : ℕ → σ → σ' → Prop} (hmono : ∀ m n t t', m ≤ n → R n t t' → R m t t')
    (hput : ∀ n c t t', R (n + 1) t t' → Same (R n) (put c t) (put' c t'))
    (p : ℕ → UInt8) (i k m : ℕ) (b : ℤ) (h : R (k + m) t t') :
    Same (R m) (Stdio.fwriteItem put p i k b t) (Stdio.fwriteItem put' p i k b t') := by
  induction k generalizing i b t t' with
  | zero => exact ⟨rfl, by rwa [Nat.zero_add] at h⟩
  | succ k ih =>
    rw [Nat.succ_add] at h
    obtain ⟨hb, hs⟩ := hput (k + m) (p i).toNat t t' h
    rw [Stdio.fwriteItem, Stdio.fwriteItem]
    simp only [← hb]
    by_cases heof : (put (p i).toNat t).1 = EOF
    · rw [if_pos heof, if_pos heof]
      exact ⟨rfl, hmono m (k + m) _ _ (Nat.le_add_left m k) hs⟩
    · rw [if_neg heof, if_neg heof]
      exact ih (i + 1) _ hs

theorem fwrite_loop_alike {R : ℕ → σ → σ' → Prop} (hmono : ∀ m n t t', m ≤ n → R n t t' → R m t t')
    (hput : ∀ n c t t', R (n + 1) t t' → Same (R n) (put c t) (put' c t'))
    (p : ℕ → UInt8) (size i nmemb : ℕ) (b : ℤ) (h : R (size * nmemb) t t') :
    Same (R 0) (Stdio.fwrite put p size i nmemb b t) (Stdio.fwrite put' p size i nmemb b t') := by
  induction nmemb generalizing i b t t' with
  | zero => exact ⟨rfl, h⟩
  | succ nmemb ih =>
    rw [Nat.mul_succ, Nat.add_comm] at h
    obtain ⟨hb, hs⟩ := fwriteItem_alike hmono hput p (i * size) size (size * nmemb) b h
    rw [Stdio.fwrite, Stdio.fwrite]
    simp only [← hb]
    by_cases heof : (Stdio.fwriteItem put p (i * size) size b t).1 = EOF
    · rw [if_pos heof, if_pos heof]
      exact ⟨rfl, hmono 0 _ _ _ (Nat.zero_le _) hs⟩
    · rw [if_neg heof, if_neg heof]
      exact ih (i + 1) _ hs

end Blocks

theorem attempt_alike {σ σ' : Type*} {R R' : FILE σ → FILE σ' → Prop}
    {op : FILE σ → Except Fault (ℤ × FILE σ)} {op' : FILE σ' → Except Fault (ℤ × FILE σ')}
    (hop : ∀ g g', R g g' → Both (Same R') (op g) (op' g')) {x : Except Fault (FILE σ)}
    {y : Except Fault (FILE σ')} (h : Both R x y) :
    Same (Both R') (attempt op x) (attempt op' y) := by
  cases h with
  | error e => exact ⟨rfl, .error e⟩
  | @ok g g' hg =>
    rw [attempt, attempt]
    generalize op g = r, op' g' = r', hop g g' hg = hr
    cases hr with
    | error e => exact ⟨rfl, .error e⟩
    | ok hq => exact ⟨hq.1, .ok hq.2⟩

theorem fread_alike (size nmemb : ℕ) (b : ℤ) (h : Alike cleared f f') :
    Both (Same (Alike cleared)) (fread (entryFunctions A) size nmemb b f)
      (fread (entryFunctions B) size nmemb b f') := by
  obtain ⟨hn, hp, hs⟩ := fread_loop_alike
    (fun t t' ht => attempt_alike (fun g g' hg => fgetc_alike (A := A) (B := B) hg) ht)
    size nmemb b (Both.ok h)
  rw [fread, fread]
  simp only [← hn, ← hp]
  exact hs.map fun g g' hg => ⟨rfl, hg⟩

theorem fwrite_loop_none {σ σ' : Type*} {Q : σ → σ' → Prop} (put : ℤ → σ → ℤ × σ)
    (put' : ℤ → σ' → ℤ × σ') (p : ℕ → UInt8) {size nmemb : ℕ} (hz : size = 0 ∨ nmemb = 0) (i : ℕ)
    (b : ℤ) {t : σ} {t' : σ'} (h : Q t t') :
    Same Q (Stdio.fwrite put p size i nmemb b t) (Stdio.fwrite put' p size i nmemb b t') := by
  induction nmemb generalizing i b with
  | zero => exact ⟨rfl, h⟩
  | succ nmemb ih =>
    obtain rfl : size = 0 := hz.resolve_right (Nat.succ_ne_zero nmemb)
    by_cases heof : b = EOF
    · have hsame : Same Q (i, t) (i, t') := ⟨rfl, h⟩
      simpa [Stdio.fwrite, Stdio.fwriteItem, heof] using hsame
    · simpa [Stdio.fwrite, Stdio.fwriteItem, heof] using ih (.inl rfl) (i + 1) b

theorem fwrite_alike (hkept : kept → A.Keeps ∧ B.Keeps) (p : ℕ → UInt8) (size nmemb : ℕ) (b : ℤ)
    (h : Alike cleared f f') (hgap : 0 < size → 0 < nmemb → Fits kept (size * nmemb) f) :
    Both (Same (Alike cleared)) (fwrite (entryFunctions A) p size nmemb b f)
      (fwrite (entryFunctions B) p size nmemb b f') := by
  rw [fwrite, fwrite]
  by_cases hz : size = 0 ∨ nmemb = 0
  · obtain ⟨hn, hs⟩ := fwrite_loop_none (fun c => attempt (fputc (entryFunctions A) c))
      (fun c => attempt (fputc (entryFunctions B) c)) p hz 0 b
      (Both.ok (ε := Fault) h)
    simp only [← hn]
    exact hs.map fun g g' hg => ⟨rfl, hg⟩
  · obtain ⟨hsize, hnmemb⟩ := not_or.mp hz
    have hat : AlikeAt kept cleared (size * nmemb) f f' :=
      ⟨h, hgap (Nat.pos_of_ne_zero hsize) (Nat.pos_of_ne_zero hnmemb)⟩
    obtain ⟨hn, hs⟩ := fwrite_loop_alike (R := fun n => Both (AlikeAt kept cleared n))
      (fun m n t t' hm ht => ht.mono fun g g' hg => ⟨hg.1, fun v hv => (hg.2 v hv).mono hm⟩)
      (fun n c t t' ht => attempt_alike (fun g g' hg => fputc_alike hkept c hg) ht)
      p size 0 nmemb b (Both.ok hat)
    simp only [← hn]
    exact hs.map fun g g' hg => ⟨rfl, hg.1⟩

theorem putField_terminated (h : Heap) (n : ℕ) (block : ℕ → UInt8) (cv : Conversion) {out : Chars}
    (hz : 0 ∈ out) : putField h n block cv out = justify cv (out.length - 1) (content out) := by
  obtain ⟨capacity, added, hfit, -, hall⟩ := puts_range h n out
  obtain ⟨buf, hputs, hmap⟩ := hall block
  have hlen : out.length ≠ 0 := (List.length_pos_of_mem hz).ne'
  have hstr : fstr h n ⟨buf, out.length, capacity, out.length⟩ = content out := by
    rw [fstr, hmap, range_written hfit, List.append_assoc, content_append_mem hz]
  rw [putField, hputs]
  simp only [hstr, flen, if_neg hlen]

theorem emit_terminated {w : World} {items : List Item}
    (ht : ∀ cv ∈ formatted w items, ∀ out, field w cv = some out → 0 ∈ out) (h h' : Heap)
    (block block' : ℕ → ℕ → UInt8) (n n' : ℕ) :
    emit w h block n items = emit w h' block' n' items := by
  induction items generalizing n n' with
  | nil => rfl
  | cons item items ih =>
    cases item with
    | char c => exact congrArg (Output.after [c]) (ih ht n n')
    | call va cv =>
      cases cv with
      | none => exact ih ht n n'
      | some cv =>
        cases hf : field w cv with
        | none => simp only [emit, hf]
        | some out =>
          have hcons : formatted w (.call va (some cv) :: items) = cv :: formatted w items := by
            simp only [formatted, hf, Option.isSome_some, if_true]
          rw [hcons, List.forall_mem_cons] at ht
          have hz : 0 ∈ out := ht.1 out hf
          simp only [emit, hf]
          rw [ih ht.2 (n + 1) (n' + 1), putField_terminated h n _ cv hz,
            putField_terminated h' n' _ cv hz]

theorem output_terminated {a : Arguments} (ht : Terminated kept a) (h : Heap)
    (block : ℕ → ℕ → UInt8) :
    Arguments.output { a with heap := h, block := block } = a.output := by
  simp only [Arguments.output, vformat_eq]
  exact emit_terminated (fun cv hcv out ho => (ht cv hcv out ho).1) h a.heap block a.block 0 0

theorem vfprintf_alike (hkept : kept → A.Keeps ∧ B.Keeps) {a a' : Arguments}
    (ho : a'.output = a.output) (h : Alike cleared f f')
    (hgap : a.output.bytes ≠ [] → Fits kept a.output.bytes.length f) :
    Both (Same (Alike cleared)) (vfprintf (entryFunctions A) a f)
      (vfprintf (entryFunctions B) a' f') := by
  cases h with
  | closed pos eof hold =>
    simp only [vfprintf, ho]
    split_ifs
    · exact .error _
    · exact .error _
    · exact .ok ⟨rfl, .closed pos eof hold⟩
  | opened pos eof hold hst =>
    simp only [vfprintf, ho]
    refine (putstring_alike hkept a.output.bytes hst fun hne => hgap hne _ rfl).bind
      fun u u' hu => ?_
    split_ifs
    · exact .error _
    · exact .ok ⟨rfl, .opened _ _ _ hu⟩

theorem perform_alike {M M' : Recycled} (hkept : kept → M.alloc.Keeps ∧ M'.alloc.Keeps) (n : ℕ)
    {op : Op} (h : Alike cleared f f') (hc : Clean kept cleared f op) :
    Both (Same (Alike (cleared || clears op))) (perform M n f op) (perform M' n f' op) := by
  by_cases hclear : op = .clearerr
  · subst hclear
    rw [clears, Bool.or_true]
    exact (clearerr_alike h).map fun g g' hg => ⟨rfl, hg⟩
  have hstays : clears op = false := by
    cases op with
    | clearerr => exact absurd rfl hclear
    | _ => rfl
  rw [hstays, Bool.or_false]
  cases op with
  | clearerr => exact absurd rfl hclear
  | fclose => exact .ok ⟨congrArg Reply.int (fclose_alike h).1, (fclose_alike h).2⟩
  | fgetc => exact (fgetc_alike h).reply Reply.int
  | fgets k => exact (fgets_alike k h).reply Reply.string
  | fread size nmemb b =>
    exact (fread_alike size nmemb b h).reply fun r => Reply.block r.1 r.2
  | fputc c =>
    exact (fputc_alike hkept c ⟨h, hc⟩).map fun p q hpq => ⟨congrArg Reply.int hpq.1, hpq.2.1⟩
  | fputs string => exact (fputs_alike hkept string h hc).reply Reply.int
  | fwrite p size nmemb b => exact (fwrite_alike hkept p size nmemb b h hc).reply Reply.count
  | ungetc c => exact .ok ⟨congrArg Reply.int (ungetc_alike c h).1, (ungetc_alike c h).2⟩
  | fseek offset whence => exact (fseek_alike offset whence h).reply Reply.int
  | ftell => exact .ok ⟨by cases h <;> rfl, h⟩
  | fgetpos => exact .ok ⟨by cases h <;> rfl, h⟩
  | feof => exact .ok ⟨by cases h <;> rfl, h⟩
  | ferror =>
    refine (ferror_alike h hc).map fun k k' hk => ⟨?_, h⟩
    rw [hk.1, hk.2]
  | vfprintf a =>
    obtain ⟨ht, hgap⟩ := hc
    have ho := output_terminated ht (M.heap n) (M.block n)
    have ho' := output_terminated ht (M'.heap n) (M'.block n)
    rw [← ho] at hgap
    exact (vfprintf_alike hkept (ho'.trans ho.symm) h hgap).reply Reply.int

theorem perform_ferror {M : Recycled} {n : ℕ} {k : ℤ} {g : FILE EntryStream}
    (h : Alike cleared f f') (hc : Clean kept cleared f .ferror)
    (hp : perform M n f .ferror = .ok (.int k, g)) : k = 0 := by
  have hboth := ferror_alike h hc
  simp only [perform, inMemory, call] at hp
  generalize ferror f = r, ferror f' = r' at hp hboth
  cases hboth with
  | error e => cases hp
  | ok hk =>
    cases hp
    exact hk.1

theorem replies_alike {M M' : Recycled} (hkept : kept → M.alloc.Keeps ∧ M'.alloc.Keeps)
    (ops : List Op) {n : ℕ} (h : Alike cleared f f')
    (hc : Along (next M) (fun s op => Clean kept s.cleared s.file op) ⟨n, cleared, f⟩ ops) :
    replies M n f ops = replies M' n f' ops ∧ ∀ (i : ℕ) (k : ℤ), ops[i]? = some .ferror →
      (replies M n f ops)[i]? = some (.ok (.int k)) → k = 0 := by
  induction ops generalizing n cleared f f' with
  | nil => exact ⟨rfl, fun i k hi => by simp at hi⟩
  | cons op ops ih =>
    obtain ⟨hop, hrest⟩ := hc
    have hboth := perform_alike hkept n h hop
    rw [replies, replies]
    generalize hp : perform M n f op = x, perform M' n f' op = y at hboth
    cases hboth with
    | error e =>
      refine ⟨rfl, fun i k _ hr => ?_⟩
      cases i with
      | zero => simp at hr
      | succ i => simp at hr
    | @ok p q hpq =>
      obtain ⟨r, g⟩ := p
      obtain ⟨r', g'⟩ := q
      obtain ⟨rfl, hg⟩ := hpq
      have hnext : next M ⟨n, cleared, f⟩ op = some ⟨n + 1, cleared || clears op, g⟩ := by
        simp only [next, hp]
      obtain ⟨heq, hzero⟩ := ih hg (hrest _ hnext)
      refine ⟨congrArg (Except.ok r :: ·) heq, fun i k hi hr => ?_⟩
      cases i with
      | zero =>
        cases hi
        cases hr
        exact perform_ferror h hop hp
      | succ i => exact hzero i k hi hr

theorem fopenExisting_alike {M M' : Recycled} {fs : Filesystem} {filename : Chars}
    (h : fopenExisting M fs filename = some f) (h' : fopenExisting M' fs filename = some f') :
    Alike false f f' := by
  obtain ⟨i, hi, hf⟩ := Option.bind_eq_some_iff.mp h
  obtain ⟨j, hj, hf'⟩ := Option.bind_eq_some_iff.mp h'
  obtain rfl : i = j := Option.some.inj (hi.symm.trans hj)
  obtain ⟨p, hp, rfl⟩ := Option.map_eq_some_iff.mp hf
  obtain ⟨q, hq, rfl⟩ := Option.map_eq_some_iff.mp hf'
  obtain rfl : p = q := Option.some.inj (hp.symm.trans hq)
  exact .opened 0 false EOF ⟨⟨rfl, rfl, rfl, rfl, fun _ _ => rfl⟩, fun hc => by cases hc⟩

/-- In any two memories, if every call looks at no recycled memory and puts no byte behind the
buffer, unless both keep the data of a buffer that grows. -/
theorem recycled_invisible (M M' : Recycled) (fs : Filesystem) (filename : Chars) (ops : List Op)
    (h : ∀ f, fopenExisting M fs filename = some f →
      Along (next M) (fun s op => Clean (M.alloc.Keeps ∧ M'.alloc.Keeps) s.cleared s.file op)
        ⟨0, false, f⟩ ops) :
    Invisible M M' fs filename ops := by
  intro f f' hf hf'
  exact replies_alike id ops (fopenExisting_alike hf hf') (h f hf)

def oneFile : Filesystem where
  entries _ := ⟨[97, 0], fun _ => 0, 0, 0⟩
  allocated := 1
  root i := if i = 0 then some 0 else none
  files := []
  console := []

theorem fopenExisting_oneFile (M : Recycled) :
    fopenExisting M oneFile [97, 0] = some (createFile ⟨⟨oneFile, 0, 0⟩, M.ferr⟩) := by
  have hcmp : strcmp [97, 0] [97, 0] = 0 := (strcmp_eq_zero _ _).mpr List.prefix_rfl
  have hfind : findEntry oneFile [97, 0] = some 0 := by
    rw [findEntry, List.range_succ_eq_map, List.find?_cons_of_pos]
    simp [oneFile, hcmp]
  rw [fopenExisting, hfind]
  rfl

def leftover (ferr : ℤ) : Recycled where
  ferr := ferr
  alloc := ⟨fun _ _ _ _ => 0⟩
  heap _ := ⟨fun _ _ _ => 0, fun _ _ => []⟩
  block _ _ _ := 0

theorem cleared_invisible :
    Invisible (leftover 0) (leftover 1) oneFile [97, 0] [.clearerr, .fputc 65, .ferror] :=
  recycled_invisible (leftover 0) (leftover 1) oneFile [97, 0] [.clearerr, .fputc 65, .ferror]
    fun f hf => by
      rw [fopenExisting_oneFile] at hf
      cases hf
      refine ⟨trivial, fun s hs => ?_⟩
      cases hs
      refine ⟨?_, fun t ht => ?_⟩
      · intro st hst
        cases hst
        exact ⟨Int.le_refl 0, Nat.le_refl 0, .inr (by decide)⟩
      · cases ht
        exact ⟨.inl rfl, fun _ _ => trivial⟩

/-- `fopen` leaves the error flag as it found it. -/
theorem ferror_recycled : ∃ M M' fs filename ops, ¬Invisible M M' fs filename ops := by
  refine ⟨leftover 0, leftover 1, oneFile, [97, 0], [.ferror], fun hi => ?_⟩
  have hf := fopenExisting_oneFile (leftover 0)
  have hf' := fopenExisting_oneFile (leftover 1)
  obtain ⟨heq, -⟩ := hi _ _ hf hf'
  cases heq

end Jiauliyan.RecycledMemory
