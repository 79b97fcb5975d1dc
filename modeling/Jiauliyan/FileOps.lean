import Jiauliyan.Format

namespace Jiauliyan.FileOps

open Jiauliyan.Memory Jiauliyan.StringCompare Jiauliyan.Stdio Jiauliyan.Format

/-- What ends the program: a member of a null stream, a place in front of the
data of a stream, or a division by zero. -/
inductive Fault
  | nullStream
  | outside
  | division

/-- The functions of a `stream_s`, undefined where they leave their data. -/
structure Functions (σ : Type*) where
  get : σ → Option (ℤ × σ)
  put : UInt8 → σ → Option σ
  seek : ℤ → ℤ → σ → σ

structure StreamS (σ : Type*) where
  data : σ
  ferr : ℤ

structure FILE (σ : Type*) where
  stream : Option (StreamS σ)
  pos : ℤ
  eof : Bool
  hold : ℤ

/-- What `vfprintf` is given, and what it finds around. -/
structure Arguments where
  world : World
  mem : Mem
  heap : Heap
  block : ℕ → ℕ → UInt8
  format : Chars
  ap : ℕ

def Arguments.output (a : Arguments) : Output :=
  vformat a.world a.mem a.heap a.block 0 0 a.format a.ap

section Operations

variable {σ : Type*} (fn : Functions σ)

def createFile (stream : StreamS σ) : FILE σ := ⟨some stream, 0, false, EOF⟩

def streamGet (st : StreamS σ) : Except Fault (ℤ × StreamS σ) :=
  match fn.get st.data with
  | none => .error .outside
  | some (a, data) => .ok (a, { st with data := data })

def streamPutchar (c : UInt8) (st : StreamS σ) : Except Fault (StreamS σ) :=
  match fn.put c st.data with
  | none => .error .outside
  | some data => .ok { st with data := data }

def streamPutstring : Chars → StreamS σ → Except Fault (StreamS σ)
  | [], st => .ok st
  | c :: s, st => (streamPutchar fn c st).bind (streamPutstring s)

def fclose (f : FILE σ) : ℤ × FILE σ :=
  match f.stream with
  | none => (EOF, f)
  | some _ => (0, { f with stream := none })

def fgetc (f : FILE σ) : Except Fault (ℤ × FILE σ) :=
  match f.stream with
  | none => .ok (EOF, f)
  | some st =>
    if f.hold ≠ EOF then .ok (f.hold, { f with pos := f.pos + 1, hold := EOF })
    else
      (streamGet fn st).map fun (a, st') =>
        (a, { f with pos := f.pos + 1, stream := some st', eof := f.eof || a == EOF })

def fgetsLoop : ℕ → ℤ → FILE σ → Except Fault (Chars × FILE σ)
  | 0, _, f => .ok ([], f)
  | k + 1, c, f =>
    if c = 10 then .ok ([], f)
    else
      (fgetc fn f).bind fun (c', f') =>
        if c' = EOF then .ok ([], f')
        else (fgetsLoop k c' f').map fun (str, f'') => (byteOf c' :: str, f'')

/-- The result is what is stored in `str`, if that is returned. -/
def fgets (n : ℤ) (f : FILE σ) : Except Fault (Option Chars × FILE σ) :=
  match f.stream with
  | none => .ok (none, f)
  | some _ =>
    (fgetsLoop fn n.toNat EOF { f with pos := f.pos + 1 }).map fun (str, f') =>
      (some (str ++ [0]), f')

def fputc (c : ℤ) (f : FILE σ) : Except Fault (ℤ × FILE σ) :=
  match f.stream with
  | none => .ok (EOF, f)
  | some st =>
    (streamPutchar fn (byteOf c) st).map fun st' =>
      (1, { f with pos := f.pos + 1, stream := some st' })

def fputs (string : Chars) (f : FILE σ) : Except Fault (ℤ × FILE σ) :=
  match f.stream with
  | none => .ok (EOF, f)
  | some st =>
    (streamPutstring fn (content string) st).map fun st' =>
      (strlen string, { f with pos := f.pos + (strlen string + 1), stream := some st' })

/-- An operation in a loop that stops at `EOF`, as it does at a fault. -/
def attempt (op : FILE σ → Except Fault (ℤ × FILE σ)) :
    Except Fault (FILE σ) → ℤ × Except Fault (FILE σ)
  | .error e => (EOF, .error e)
  | .ok f =>
    match op f with
    | .error e => (EOF, .error e)
    | .ok (r, f') => (r, .ok f')

def fread (size nmemb : ℕ) (b : ℤ) (f : FILE σ) :
    Except Fault ((ℕ × List UInt8) × FILE σ) :=
  let (n, p, s) := Stdio.fread (attempt (fgetc fn)) size nmemb b (.ok f)
  s.map ((n, p), ·)

def fwrite (p : ℕ → UInt8) (size nmemb : ℕ) (b : ℤ) (f : FILE σ) : Except Fault (ℕ × FILE σ) :=
  let (n, s) := Stdio.fwrite (fun c => attempt (fputc fn c)) p size 0 nmemb b (.ok f)
  s.map (n, ·)

def ungetc (c : ℤ) (f : FILE σ) : ℤ × FILE σ :=
  if f.hold ≠ EOF ∨ c = EOF then (EOF, f) else (c, { f with pos := f.pos - 1, hold := c })

def fseek (offset whence : ℤ) (f : FILE σ) : Except Fault (ℤ × FILE σ) :=
  match f.stream with
  | none => .error .nullStream
  | some st =>
    .ok (-1, { f with stream := some { st with data := fn.seek offset whence st.data } })

def ftell (f : FILE σ) : ℤ := f.pos

def fgetpos (f : FILE σ) : ℤ × Option ℤ :=
  match f.stream with
  | none => (EOF, none)
  | some _ => (0, some f.pos)

def feof (f : FILE σ) : Bool := f.eof

def ferror (f : FILE σ) : Except Fault ℤ :=
  match f.stream with
  | none => .error .nullStream
  | some st => .ok st.ferr

def clearerr (f : FILE σ) : Except Fault (FILE σ) :=
  match f.stream with
  | none => .error .nullStream
  | some st => .ok { f with eof := false, stream := some { st with ferr := 0 } }

/-- `stream_vformat` puts its output on the stream without a look at it. -/
def vfprintf (a : Arguments) (f : FILE σ) : Except Fault (ℤ × FILE σ) :=
  match f.stream with
  | none =>
    if a.output.bytes ≠ [] then .error .nullStream
    else if a.output.fault then .error .division
    else .ok (0, f)
  | some st =>
    (streamPutstring fn a.output.bytes st).bind fun st' =>
      if a.output.fault then .error .division else .ok (0, { f with stream := some st' })

end Operations

inductive Op
  | fclose
  | fgetc
  | fgets (n : ℤ)
  | fread (size nmemb : ℕ) (b : ℤ)
  | fputc (c : ℤ)
  | fputs (string : Chars)
  | fwrite (p : ℕ → UInt8) (size nmemb : ℕ) (b : ℤ)
  | ungetc (c : ℤ)
  | fseek (offset whence : ℤ)
  | ftell
  | fgetpos
  | feof
  | ferror
  | clearerr
  | vfprintf (a : Arguments)

inductive Reply
  | int (n : ℤ)
  | count (n : ℕ)
  | block (n : ℕ) (p : List UInt8)
  | string (s : Option Chars)
  | position (r : ℤ) (pos : Option ℤ)
  | flag (b : Bool)
  | void

def call {σ : Type*} (fn : Functions σ) (f : FILE σ) : Op → Except Fault (Reply × FILE σ)
  | .fclose => .ok (.int (fclose f).1, (fclose f).2)
  | .fgetc => (fgetc fn f).map fun r => (.int r.1, r.2)
  | .fgets n => (fgets fn n f).map fun r => (.string r.1, r.2)
  | .fread size nmemb b => (fread fn size nmemb b f).map fun r => (.block r.1.1 r.1.2, r.2)
  | .fputc c => (fputc fn c f).map fun r => (.int r.1, r.2)
  | .fputs string => (fputs fn string f).map fun r => (.int r.1, r.2)
  | .fwrite p size nmemb b => (fwrite fn p size nmemb b f).map fun r => (.count r.1, r.2)
  | .ungetc c => .ok (.int (ungetc c f).1, (ungetc c f).2)
  | .fseek offset whence => (fseek fn offset whence f).map fun r => (.int r.1, r.2)
  | .ftell => .ok (.int (ftell f), f)
  | .fgetpos => .ok (.position (fgetpos f).1 (fgetpos f).2, f)
  | .feof => .ok (.flag (feof f), f)
  | .ferror => (ferror f).map fun r => (.int r, f)
  | .clearerr => (clearerr f).map fun f' => (.void, f')
  | .vfprintf a => (vfprintf fn a f).map fun r => (.int r.1, r.2)

/-- A stream on a file entry; `fseek` can put it in front of the data. -/
structure EntryStream where
  fs : Filesystem
  entry : ℕ
  pos : ℤ

def entryFunctions (A : Realloc) : Functions EntryStream where
  get s :=
    if s.pos < 0 then none
    else
      let (r, st) := fileEntryGet s.fs ⟨s.entry, s.pos.toNat⟩
      some (r, { s with pos := st.pos })
  put c s :=
    if s.pos < 0 then none
    else
      let (fs, st) := fileEntryPut A s.fs ⟨s.entry, s.pos.toNat⟩ c
      some { s with fs := fs, pos := st.pos }
  seek pos _ s := { s with pos := pos }

end Jiauliyan.FileOps
