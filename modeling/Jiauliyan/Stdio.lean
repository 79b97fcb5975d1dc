import Mathlib.Logic.Function.Basic
import Jiauliyan.StringCompare

namespace Jiauliyan.Stdio

open Jiauliyan.StringCompare

def EOF : ℤ := -1

/-- The low byte of an `int`. -/
def byteOf (c : ℤ) : UInt8 := UInt8.ofNat (c % 256).toNat

theorem byteOf_toNat (c : UInt8) : byteOf c.toNat = c := by
  have hc := c.toNat_lt
  apply UInt8.toNat.inj
  rw [byteOf, UInt8.toNat_ofNat']
  omega

/-- `realloc`, which always finds room: what the new block holds, by the data and the size of
the old one and the new size. -/
structure Realloc where
  realloc : (ℕ → UInt8) → ℕ → ℕ → ℕ → UInt8

def Realloc.Keeps (A : Realloc) : Prop :=
  ∀ data old new i, i < old → i < new → A.realloc data old new i = data i

/-- A `realloc` that keeps what the block held. -/
structure Allocator extends Realloc where
  keeps : toRealloc.Keeps

instance : Coe Allocator Realloc := ⟨Allocator.toRealloc⟩

structure FileEntry where
  name : Chars
  data : ℕ → UInt8
  size : ℕ
  max : ℕ

/-- A stream on a file entry, which is given by its address. -/
structure Stream where
  entry : ℕ
  pos : ℕ

structure File where
  stream : Option Stream
  pos : ℤ
  eof : Bool
  hold : ℤ

/-- `entries` are the file entries by address, of which `allocated` exist;
`files` are the `FILE` objects that `fopen` has returned. -/
structure Filesystem where
  entries : ℕ → FileEntry
  allocated : ℕ
  root : ℕ → Option ℕ
  files : List File
  console : List String

def boot : Filesystem := ⟨fun _ => ⟨[], fun _ => 0, 0, 0⟩, 0, fun _ => none, [], []⟩

def fileEntryGet (fs : Filesystem) (st : Stream) : ℤ × Stream :=
  let e := fs.entries st.entry
  if e.size ≤ st.pos then (EOF, st) else ((e.data st.pos).toNat, { st with pos := st.pos + 1 })

def expand (A : Realloc) (pos : ℕ) (e : FileEntry) : FileEntry :=
  if e.max ≤ pos then { e with max := e.max + 1024, data := A.realloc e.data e.max (e.max + 1024) }
  else e

def fileEntryPut (A : Realloc) (fs : Filesystem) (st : Stream) (c : UInt8) :
    Filesystem × Stream :=
  let e := expand A st.pos (fs.entries st.entry)
  let e' := { e with
    size := if e.size < st.pos + 1 then st.pos + 1 else e.size
    data := Function.update e.data st.pos c }
  ({ fs with entries := Function.update fs.entries st.entry e' }, { st with pos := st.pos + 1 })

def fileEntrySeek (st : Stream) (pos : ℕ) : Stream := { st with pos := pos }

def createFile (stream : Stream) : File := ⟨some stream, 0, false, EOF⟩

def fclose (f : File) : ℤ × File :=
  match f.stream with
  | none => (EOF, f)
  | some _ => (0, { f with stream := none })

def fgetc (fs : Filesystem) (f : File) : ℤ × File :=
  match f.stream with
  | none => (EOF, f)
  | some st =>
    if f.hold ≠ EOF then (f.hold, { f with pos := f.pos + 1, hold := EOF })
    else
      let (a, st') := fileEntryGet fs st
      (a, { f with pos := f.pos + 1, stream := some st', eof := f.eof || a == EOF })

/-- The result is that of `stream_putchar`, which is always 1. -/
def fputc (A : Realloc) (c : ℤ) : Filesystem × File → ℤ × (Filesystem × File)
  | (fs, f) =>
    match f.stream with
    | none => (EOF, (fs, f))
    | some st =>
      let (fs', st') := fileEntryPut A fs st (byteOf c)
      (1, (fs', { f with pos := f.pos + 1, stream := some st' }))

section Blocks

variable {σ : Type*}

def freadItem (get : σ → ℤ × σ) : ℕ → ℤ → σ → ℤ × List UInt8 × σ
  | 0, b, s => (b, [], s)
  | j + 1, _, s =>
    let (b, s') := get s
    if b = EOF then (b, [], s')
    else
      let (b', p, s'') := freadItem get j b s'
      (b', byteOf b :: p, s'')

/-- `fread` over a function that reads one character. `b` starts out as
whatever the uninitialised variable holds. -/
def fread (get : σ → ℤ × σ) (size : ℕ) : ℕ → ℤ → σ → ℕ × List UInt8 × σ
  | 0, _, s => (0, [], s)
  | n + 1, b, s =>
    let (b', p, s') := freadItem get size b s
    if b' = EOF then (0, p, s')
    else
      let (i, p', s'') := fread get size n b' s'
      (i + 1, p ++ p', s'')

def fwriteItem (put : ℤ → σ → ℤ × σ) (p : ℕ → UInt8) : ℕ → ℕ → ℤ → σ → ℤ × σ
  | _, 0, b, s => (b, s)
  | i, k + 1, _, s =>
    let (b, s') := put (p i).toNat s
    if b = EOF then (b, s') else fwriteItem put p (i + 1) k b s'

def fwrite (put : ℤ → σ → ℤ × σ) (p : ℕ → UInt8) (size : ℕ) : ℕ → ℕ → ℤ → σ → ℕ × σ
  | i, 0, _, s => (i, s)
  | i, n + 1, b, s =>
    let (b', s') := fwriteItem put p (i * size) size b s
    if b' = EOF then (i, s') else fwrite put p size (i + 1) n b' s'

end Blocks

def findEntry (fs : Filesystem) (filename : Chars) : Option ℕ :=
  (List.range 256).find? fun i =>
    match fs.root i with
    | none => false
    | some p => strcmp (fs.entries p).name filename == 0

def findSlot (fs : Filesystem) : Option ℕ :=
  (List.range 256).find? fun i => (fs.root i).isNone

def createEntry (fs : Filesystem) (filename : Chars) (i : ℕ) : Filesystem :=
  { fs with
    entries := Function.update fs.entries fs.allocated
      ⟨strncpy filename 256, fun _ => 0, 0, 0⟩
    allocated := fs.allocated + 1
    root := Function.update fs.root i (some fs.allocated) }

/-- `fopen` with at most `fuel` calls of itself; a handle is an index of `files`. -/
def fopen (filename mode : Chars) : ℕ → Filesystem → Option (Option ℕ × Filesystem)
  | 0, _ => none
  | fuel + 1, fs =>
    match findEntry fs filename with
    | some i =>
      match fs.root i with
      | none => none
      | some p => some (some fs.files.length, { fs with files := fs.files ++ [createFile ⟨p, 0⟩] })
    | none =>
      if strcmp mode [0x72, 0] ≠ 0 then
        match findSlot fs with
        | some i => fopen filename mode fuel (createEntry fs filename i)
        | none =>
          some (none, { fs with console := fs.console ++ ["ERROR: Exceeded max of 256 files!"] })
      else some (none, fs)

/-- A file name that fits an entry. -/
structure Name where
  chars : Chars
  no_nul : 0 ∉ chars
  short : chars.length < 256

def Name.ptr (n : Name) : Chars := n.chars ++ [0]

inductive Op
  | fopen (name : Name) (mode : Chars)
  | fputc (c : ℤ) (handle : ℕ)
  | fwrite (p : ℕ → UInt8) (size nmemb : ℕ) (b : ℤ) (handle : ℕ)
  | fgetc (handle : ℕ)
  | fread (size nmemb : ℕ) (b : ℤ) (handle : ℕ)
  | fclose (handle : ℕ)

inductive Result
  | file (handle : Option ℕ)
  | int (value : ℤ)
  | count (n : ℕ)
  | block (n : ℕ) (p : List UInt8)

def setFile (handle : ℕ) (f : File) (fs : Filesystem) : Filesystem :=
  { fs with files := fs.files.set handle f }

/-- One call; there is none on a handle that was never returned. -/
def call (A : Realloc) (fs : Filesystem) : Op → Option (Result × Filesystem)
  | .fopen name mode =>
    (fopen name.ptr (mode ++ [0]) 257 fs).map fun r => (.file r.1, r.2)
  | .fputc c h =>
    fs.files[h]?.map fun f =>
      let (r, fs', f') := fputc A c (fs, f)
      (.int r, setFile h f' fs')
  | .fwrite p size nmemb b h =>
    fs.files[h]?.map fun f =>
      let (n, fs', f') := fwrite (fputc A) p size 0 nmemb b (fs, f)
      (.count n, setFile h f' fs')
  | .fgetc h =>
    fs.files[h]?.map fun f =>
      let (r, f') := fgetc fs f
      (.int r, setFile h f' fs)
  | .fread size nmemb b h =>
    fs.files[h]?.map fun f =>
      let (n, p, f') := fread (fgetc fs) size nmemb b f
      (.block n p, setFile h f' fs)
  | .fclose h =>
    fs.files[h]?.map fun f =>
      let (r, f') := fclose f
      (.int r, setFile h f' fs)

def calls (A : Realloc) : List Op → Filesystem → Option (List Result × Filesystem)
  | [], fs => some ([], fs)
  | op :: ops, fs =>
    match call A fs op with
    | none => none
    | some (r, fs') => (calls A ops fs').map fun q => (r :: q.1, q.2)

section Kept

variable {σ : Type*} {P : σ → Prop}

theorem freadItem_keeps {get : σ → ℤ × σ} (hget : ∀ s, P s → P (get s).2) (size : ℕ) (b : ℤ)
    {s : σ} (hs : P s) : P (freadItem get size b s).2.2 := by
  induction size generalizing b s with
  | zero => exact hs
  | succ size ih =>
    have hs' := hget s hs
    rw [freadItem]
    by_cases hb : (get s).1 = EOF
    · simpa [hb] using hs'
    · simpa [hb] using ih _ hs'

theorem fread_keeps {get : σ → ℤ × σ} (hget : ∀ s, P s → P (get s).2) (size nmemb : ℕ) (b : ℤ)
    {s : σ} (hs : P s) : P (fread get size nmemb b s).2.2 := by
  induction nmemb generalizing b s with
  | zero => exact hs
  | succ nmemb ih =>
    have hs' := freadItem_keeps hget size b hs
    rw [fread]
    by_cases hb : (freadItem get size b s).1 = EOF
    · simpa [hb] using hs'
    · simpa [hb] using ih _ hs'

theorem fwriteItem_keeps {put : ℤ → σ → ℤ × σ} (hput : ∀ c s, P s → P (put c s).2)
    (p : ℕ → UInt8) (i k : ℕ) (b : ℤ) {s : σ} (hs : P s) : P (fwriteItem put p i k b s).2 := by
  induction k generalizing i b s with
  | zero => exact hs
  | succ k ih =>
    have hs' := hput (p i).toNat s hs
    rw [fwriteItem]
    by_cases hb : (put (p i).toNat s).1 = EOF
    · simpa [hb] using hs'
    · simpa [hb] using ih _ _ hs'

theorem fwrite_keeps {put : ℤ → σ → ℤ × σ} (hput : ∀ c s, P s → P (put c s).2)
    (p : ℕ → UInt8) (size i nmemb : ℕ) (b : ℤ) {s : σ} (hs : P s) :
    P (fwrite put p size i nmemb b s).2 := by
  induction nmemb generalizing i b s with
  | zero => exact hs
  | succ nmemb ih =>
    have hs' := fwriteItem_keeps hput p (i * size) size b hs
    rw [fwrite]
    by_cases hb : (fwriteItem put p (i * size) size b s).1 = EOF
    · simpa [hb] using hs'
    · simpa [hb] using ih _ _ hs'

end Kept

end Jiauliyan.Stdio
