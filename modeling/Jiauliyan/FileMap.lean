import Jiauliyan.Stdio

namespace Jiauliyan.FileMap

open Jiauliyan.StringCompare Jiauliyan.Stdio

structure Handle where
  name : Chars
  pos : ℕ
  closed : Bool

/-- What was written to a file, the last byte first, each with its position. -/
abbrev Writes := List (ℕ × UInt8)

def lastWritten (w : Writes) (pos : ℕ) : Option UInt8 := w.lookup pos

abbrev Contents := Chars → Option Writes

/-- What the filesystem is meant to be: a map from names to what was written
under them. -/
structure Store where
  contents : Contents
  handles : List Handle

def empty : Store := ⟨fun _ => none, []⟩

def readByte (contents : Contents) (h : Handle) : ℤ × Handle :=
  if h.closed then (EOF, h)
  else
    match (contents h.name).bind (lastWritten · h.pos) with
    | some b => (b.toNat, { h with pos := h.pos + 1 })
    | none => (EOF, h)

def writeByte (c : ℤ) : Contents × Handle → ℤ × (Contents × Handle)
  | (contents, h) =>
    if h.closed then (EOF, (contents, h))
    else
      (1, (Function.update contents h.name
          ((contents h.name).map fun w => (h.pos, byteOf c) :: w),
        { h with pos := h.pos + 1 }))

def closeHandle (h : Handle) : ℤ × Handle :=
  if h.closed then (EOF, h) else (0, { h with closed := true })

def ReadOnly (mode : Chars) : Prop := mode.head? = some 0x72

instance (mode : Chars) : Decidable (ReadOnly mode) := inferInstanceAs (Decidable (_ = _))

def openName (name mode : Chars) (s : Store) : Option ℕ × Store :=
  if (s.contents name).isSome then
    (some s.handles.length, { s with handles := s.handles ++ [⟨name, 0, false⟩] })
  else if ReadOnly mode then (none, s)
  else
    (some s.handles.length,
      ⟨Function.update s.contents name (some []), s.handles ++ [⟨name, 0, false⟩]⟩)

def setHandle (i : ℕ) (h : Handle) (s : Store) : Store := { s with handles := s.handles.set i h }

def perform (s : Store) : Op → Option (Result × Store)
  | .fopen name mode => some (.file (openName name.chars mode s).1, (openName name.chars mode s).2)
  | .fputc c i =>
    s.handles[i]?.map fun h =>
      let (r, contents, h') := writeByte c (s.contents, h)
      (.int r, setHandle i h' { s with contents := contents })
  | .fwrite p size nmemb b i =>
    s.handles[i]?.map fun h =>
      let (n, contents, h') := fwrite writeByte p size 0 nmemb b (s.contents, h)
      (.count n, setHandle i h' { s with contents := contents })
  | .fgetc i =>
    s.handles[i]?.map fun h =>
      let (r, h') := readByte s.contents h
      (.int r, setHandle i h' s)
  | .fread size nmemb b i =>
    s.handles[i]?.map fun h =>
      let (n, p, h') := fread (readByte s.contents) size nmemb b h
      (.block n p, setHandle i h' s)
  | .fclose i =>
    s.handles[i]?.map fun h =>
      let (r, h') := closeHandle h
      (.int r, setHandle i h' s)

def performs : List Op → Store → Option (List Result × Store)
  | [], s => some ([], s)
  | op :: ops, s =>
    match perform s op with
    | none => none
    | some (r, s') => (performs ops s').map fun q => (r :: q.1, q.2)

def afterOpen (created : List Chars) (name mode : Chars) : List Chars :=
  if name ∈ created ∨ ReadOnly mode then created else created ++ [name]

/-- The first file whose name begins with `name` is the file of that name. -/
def Unshadowed (created : List Chars) (name : Chars) : Prop :=
  ∀ i (hi : i < created.length), name <+: created[i] →
    (∀ j (hj : j < i), ¬name <+: created[j]) → created[i] = name

instance (created : List Chars) (name : Chars) : Decidable (Unshadowed created name) :=
  inferInstanceAs (Decidable (∀ i (hi : i < created.length), name <+: created[i] →
    (∀ j (hj : j < i), ¬name <+: created[j]) → created[i] = name))

/-- No `fopen` of the sequence is shadowed by an earlier, longer name. -/
def Clear : List Chars → List Op → Prop
  | _, [] => True
  | created, .fopen name mode :: ops =>
    Unshadowed created name.chars ∧ Clear (afterOpen created name.chars mode) ops
  | created, _ :: ops => Clear created ops

theorem lastWritten_cons (w : Writes) (pos k : ℕ) (c : UInt8) :
    lastWritten ((pos, c) :: w) k = if k = pos then some c else lastWritten w k := by
  by_cases hk : k = pos
  · subst hk
    simp [lastWritten]
  · rw [if_neg hk, lastWritten, List.lookup_cons, beq_false_of_ne hk]
    rfl

end Jiauliyan.FileMap
