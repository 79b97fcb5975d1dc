import Jiauliyan.Client
import Jiauliyan.StringFind

namespace Jiauliyan.Dkjson

open Jiauliyan.Framing (Bytes)
open Jiauliyan.Client (sub)
open Jiauliyan.StringFind
open Jiauliyan.Strtoul (strtoul isspace)

structure Numbers (ν : Type) where
  ofNat : ℕ → ν
  tonumber : Bytes → Option ν
  tostring : ν → Bytes
  eq : ν → ν → Bool
  /-- The integer from 1 on that a number is, if it is one. -/
  index : ν → Option ℕ

/-- A table is its entries, in the order in which `pairs` visits them. -/
inductive Value (ν : Type)
  | nil
  | jsonNull
  | bool (b : Bool)
  | number (x : ν)
  | string (s : Bytes)
  | table (entries : List (Value ν × Value ν))

variable {ν : Type}

abbrev Entries (ν : Type) := List (Value ν × Value ν)

def Value.isNil : Value ν → Bool
  | .nil => true
  | _ => false

def Value.isNan (N : Numbers ν) : Value ν → Bool
  | .number x => !N.eq x x
  | _ => false

/-- Whether two values are the same key. Every table that is read is a new one. -/
def sameKey (N : Numbers ν) : Value ν → Value ν → Bool
  | .bool a, .bool b => a == b
  | .number a, .number b => N.eq a b
  | .string a, .string b => a == b
  | .jsonNull, .jsonNull => true
  | _, _ => false

def get (N : Numbers ν) (t : Entries ν) (k : Value ν) : Value ν :=
  match t.find? fun kv => sameKey N kv.1 k with
  | some kv => kv.2
  | none => .nil

/-- `t[k] = v` -/
def set (N : Numbers ν) (t : Entries ν) (k v : Value ν) : Entries ν :=
  if v.isNil then t.filter fun kv => !sameKey N kv.1 k
  else if t.any fun kv => sameKey N kv.1 k then
    t.map fun kv => if sameKey N kv.1 k then (kv.1, v) else kv
  else t ++ [(k, v)]

-- Positions count from 1. Nothing is yielded where the fuel runs out.
/-- `string.find`; the patterns of the module are well-formed. -/
def find (str p : Bytes) (pos : ℕ) (plain : Bool) : Option Found :=
  match strFind str p pos plain with
  | .ok r => r
  | .error _ => none

structure Location where
  line : ℕ
  column : ℤ

inductive ScanError
  | unterminated (what : String) (at' : Location)
  | nilIndex (at' : Location)
  -- raised by Lua, where the others are returned
  | nanIndex
  | noValue (at' : Location)
  | reachedEnd

def Location.text (tostring : ℤ → String) (l : Location) : String :=
  "line " ++ tostring l.line ++ ", column " ++ tostring l.column

def ScanError.text (tostring : ℤ → String) : ScanError → String
  | .unterminated what l => "unterminated " ++ what ++ " at " ++ l.text tostring
  | .nilIndex l => "cannot use nil as table index (at " ++ l.text tostring ++ ")"
  | .nanIndex => "table index is NaN"
  | .noValue l => "no valid JSON value at " ++ l.text tostring
  | .reachedEnd => "no valid JSON value (reached the end)"

structure Scan (α : Type) where
  value : α
  pos : ℕ
  err : Option ScanError

def locLoop (str : Bytes) (place : ℕ) : ℕ → ℕ → ℕ → ℕ → Option Location
  | 0, _, _, _ => none
  | fuel + 1, line, pos, linepos =>
    match find str [10] pos true with
    | some m =>
      if m.first < place then locLoop str place fuel (line + 1) (m.first + 1) m.first
      else some ⟨line, (place : ℤ) - linepos⟩
    | none => some ⟨line, (place : ℤ) - linepos⟩

def loc (str : Bytes) (place : ℕ) : Option Location := locLoop str place (str.length + 1) 1 1 1

def unterminated {α : Type} (value : α) (str : Bytes) (what : String) (place : ℕ) :
    Option (Scan α) :=
  (loc str place).map fun l => ⟨value, str.length + 1, some (.unterminated what l)⟩

/-- The position of the next character that is neither space nor part of a byte order mark. -/
def scanwhite (str : Bytes) : ℕ → ℕ → Option (Option ℕ)
  | 0, _ => none
  | fuel + 1, pos =>
    match find str [37, 83] pos false with
    | none => some none
    | some m =>
      if sub str m.first (m.first + 2) = [239, 187, 191] then scanwhite str fuel (m.first + 3)
      else some (some m.first)

def white (str : Bytes) (pos : ℕ) : Option (Option ℕ) := scanwhite str (str.length + 1) pos

def escapechars (c : Bytes) : Bytes :=
  if c = [98] then [8]
  else if c = [102] then [12]
  else if c = [110] then [10]
  else if c = [114] then [13]
  else if c = [116] then [9]
  else c

def strchar (ns : List ℕ) : Bytes := ns.map UInt8.ofNat

def unichar (value : ℕ) : Option Bytes :=
  if value ≤ 0x007f then some (strchar [value])
  else if value ≤ 0x07ff then some (strchar [0xc0 + value / 0x40, 0x80 + value % 0x40])
  else if value ≤ 0xffff then
    some (strchar [0xe0 + value / 0x1000, 0x80 + value / 0x40 % 0x40, 0x80 + value % 0x40])
  else if value ≤ 0x10ffff then
    some (strchar [0xf0 + value / 0x40000, 0x80 + value / 0x1000 % 0x40,
      0x80 + value / 0x40 % 0x40, 0x80 + value % 0x40])
  else none

def tonumber16 (s : Bytes) : Option ℕ :=
  let s := s ++ [0]
  let r := strtoul s 16 0
  if r.endptr = 0 then none
  else if ((s.drop r.endptr).dropWhile fun c => isspace c.toNat).headD 0 = 0 then some r.value
  else none

def lowSurrogate (str : Bytes) (pos : ℕ) : Option ℕ :=
  if sub str pos (pos + 1) = [92, 117] then
    match tonumber16 (sub str (pos + 2) (pos + 5)) with
    | some value2 => if 0xDC00 ≤ value2 ∧ value2 ≤ 0xDFFF then some value2 else none
    | none => none
  else none

def unicodeEscape (str : Bytes) (nextpos : ℕ) : Option (Bytes × ℕ) :=
  match tonumber16 (sub str (nextpos + 2) (nextpos + 5)) with
  | none => none
  | some value =>
    match (if 0xD800 ≤ value ∧ value ≤ 0xDBff then lowSurrogate str (nextpos + 6) else none) with
    | some value2 =>
      (unichar ((value - 0xD800) * 0x400 + (value2 - 0xDC00) + 0x10000)).map (·, nextpos + 12)
    | none => (unichar value).map (·, nextpos + 6)

def escapeAt (str : Bytes) (nextpos : ℕ) : Bytes × ℕ :=
  let escchar := sub str (nextpos + 1) (nextpos + 1)
  match (if escchar = [117] then unicodeEscape str nextpos else none) with
  | some r => r
  | none => (escapechars escchar, nextpos + 2)

def stringLoop (str : Bytes) (pos : ℕ) : ℕ → ℕ → Bytes → Option (Scan (Value ν))
  | 0, _, _ => none
  | fuel + 1, lastpos, buffer =>
    match find str [91, 34, 92, 93] lastpos false with
    | none => unterminated .nil str "string" pos
    | some m =>
      let nextpos := m.first
      let buffer :=
        if lastpos < nextpos then buffer ++ sub str lastpos (nextpos - 1) else buffer
      if sub str nextpos nextpos = [34] then some ⟨.string buffer, nextpos + 1, none⟩
      else
        let (value, lastpos) := escapeAt str nextpos
        stringLoop str pos fuel lastpos (buffer ++ value)

def scanstring (str : Bytes) (pos : ℕ) : Option (Scan (Value ν)) :=
  stringLoop str pos (str.length + 1) (pos + 1) []

section Tables

variable (N : Numbers ν) (str : Bytes)

/-- What a round of `scantable` leaves: the table, the number of its elements and the position. -/
structure TableState (ν : Type) where
  tbl : Entries ν
  n : ℕ
  pos : ℕ

def tableRest (scan : ℕ → Option (Scan (Value ν))) (what : String) (startpos : ℕ)
    (val1 : Value ν) (s : TableState ν) : Option (Scan (Value ν) ⊕ TableState ν) :=
  let next (c : Bytes) (s : TableState ν) : TableState ν :=
    if c = [44] then { s with pos := s.pos + 1 } else s
  match white str s.pos with
  | none => none
  | some none => (unterminated .nil str what startpos).map .inl
  | some (some pos) =>
    if sub str pos pos = [58] then
      if val1.isNil then (loc str pos).map fun l => .inl ⟨.nil, pos, some (.nilIndex l)⟩
      else
        match white str (pos + 1) with
        | none => none
        | some none => (unterminated .nil str what startpos).map .inl
        | some (some pos) =>
          match scan pos with
          | none => none
          | some ⟨val2, pos, err⟩ =>
            match err with
            | some e => some (.inl ⟨.nil, pos, some e⟩)
            | none =>
              if val1.isNan N then some (.inl ⟨.nil, pos, some .nanIndex⟩)
              else
                match white str pos with
                | none => none
                | some none => (unterminated .nil str what startpos).map .inl
                | some (some pos) =>
                  some (.inr (next (sub str pos pos) ⟨set N s.tbl val1 val2, s.n, pos⟩))
    else
      some (.inr (next (sub str pos pos) ⟨set N s.tbl (.number (N.ofNat (s.n + 1))) val1,
        s.n + 1, pos⟩))

def tableLoop (scan : ℕ → Option (Scan (Value ν))) (what : String) (closechar : UInt8)
    (startpos : ℕ) : ℕ → TableState ν → Option (Scan (Value ν))
  | 0, _ => none
  | fuel + 1, s =>
    match white str s.pos with
    | none => none
    | some none => unterminated .nil str what startpos
    | some (some pos) =>
      if sub str pos pos = [closechar] then some ⟨.table s.tbl, pos + 1, none⟩
      else
        match scan pos with
        | none => none
        | some ⟨val1, pos, err⟩ =>
          match err with
          | some e => some ⟨.nil, pos, some e⟩
          | none =>
            match tableRest N str scan what startpos val1 { s with pos := pos } with
            | none => none
            | some (.inl r) => some r
            | some (.inr s) => tableLoop scan what closechar startpos fuel s

def scantable (scan : ℕ → Option (Scan (Value ν))) (what : String) (closechar : UInt8)
    (startpos : ℕ) : Option (Scan (Value ν)) :=
  tableLoop N str scan what closechar startpos (str.length + 1) ⟨[], 0, startpos + 1⟩

def numberPattern : Bytes :=
  [94, 37, 45, 63, 91, 37, 100, 37, 46, 93, 43, 91, 101, 69, 93, 63, 91, 37, 43, 37, 45, 93, 63,
    37, 100, 42, 37, 87]

def namePattern : Bytes := [94, 37, 97, 37, 119, 42]

def numberAt (pos : ℕ) : Option (ν × ℕ) :=
  match find str numberPattern pos false with
  | none => none
  | some m => (N.tonumber (sub str m.first (m.last - 1))).map (·, m.last)

def nameAt (nullval : Value ν) (pos : ℕ) : Option (Value ν × ℕ) :=
  match find str namePattern pos false with
  | none => none
  | some m =>
    let name := sub str m.first m.last
    if name = [116, 114, 117, 101] then some (.bool true, m.last + 1)
    else if name = [102, 97, 108, 115, 101] then some (.bool false, m.last + 1)
    else if name = [110, 117, 108, 108] then some (nullval, m.last + 1)
    else none

/-- `fuel` bounds how deep tables are nested. -/
def scanvalue (nullval : Value ν) : ℕ → ℕ → Option (Scan (Value ν))
  | 0, _ => none
  | fuel + 1, pos =>
    match white str pos with
    | none => none
    | some none => some ⟨.nil, str.length + 1, some .reachedEnd⟩
    | some (some pos) =>
      let char := sub str pos pos
      if char = [123] then scantable N str (scanvalue nullval fuel) "object" 125 pos
      else if char = [91] then scantable N str (scanvalue nullval fuel) "array" 93 pos
      else if char = [34] then scanstring str pos
      else
        match numberAt N str pos with
        | some (x, pos) => some ⟨.number x, pos, none⟩
        | none =>
          match nameAt str nullval pos with
          | some (v, pos) => some ⟨v, pos, none⟩
          | none => (loc str pos).map fun l => ⟨.nil, pos, some (.noValue l)⟩

def decode (pos : ℕ) (nullval : Value ν) : Option (Scan (Value ν)) :=
  scanvalue N str nullval (str.length + 1) pos

end Tables

end Jiauliyan.Dkjson
