import Jiauliyan.Dkjson

namespace Jiauliyan.Dkjson

open Jiauliyan.Framing (Bytes)
open Jiauliyan.StringFind

def escapecodes (uchar : Bytes) : Option Bytes :=
  if uchar = [34] then some [92, 34]
  else if uchar = [92] then some [92, 92]
  else if uchar = [8] then some [92, 98]
  else if uchar = [12] then some [92, 102]
  else if uchar = [10] then some [92, 110]
  else if uchar = [13] then some [92, 114]
  else if uchar = [9] then some [92, 116]
  else none

def utf8value (uchar : Bytes) : Option ℕ :=
  let a := (uchar.getD 0 0).toNat
  let b := (uchar.getD 1 0).toNat
  let c := (uchar.getD 2 0).toNat
  let d := (uchar.getD 3 0).toNat
  if a ≤ 0x7f then some a
  else if 0xc0 ≤ a ∧ a ≤ 0xdf ∧ 0x80 ≤ b then some ((a - 0xc0) * 0x40 + b - 0x80)
  else if 0xe0 ≤ a ∧ a ≤ 0xef ∧ 0x80 ≤ b ∧ 0x80 ≤ c then
    some (((a - 0xe0) * 0x40 + b - 0x80) * 0x40 + c - 0x80)
  else if 0xf0 ≤ a ∧ a ≤ 0xf7 ∧ 0x80 ≤ b ∧ 0x80 ≤ c ∧ 0x80 ≤ d then
    some ((((a - 0xf0) * 0x40 + b - 0x80) * 0x40 + c - 0x80) * 0x40 + d - 0x80)
  else none

section Strings

/- `format4x n` is `string.format("%.4x", n)`. -/
variable (format4x : ℕ → Bytes)

def escapeutf8 (uchar : Bytes) : Bytes :=
  match escapecodes uchar with
  | some value => value
  | none =>
    match utf8value uchar with
    | none => []
    | some value =>
      if value ≤ 0xffff then [92, 117] ++ format4x value
      else if value ≤ 0x10ffff then
        let value := value - 0x10000
        [92, 117] ++ format4x (0xD800 + value / 0x400) ++
          ([92, 117] ++ format4x (0xDC00 + value % 0x400))
      else []

/-- The patterns have no position captures, so that no number is written. -/
def fsub (str pattern : Bytes) (repl : Bytes → Bytes) : Bytes :=
  match find str pattern 1 false with
  | none => str
  | some _ =>
    match strGsub (fun _ => []) str pattern (unary repl) none with
    | .ok r => r.1
    | .error _ => str

def escapable : Bytes := [91, 37, 122, 1, 45, 31, 34, 92, 127, 93]

def leading : Bytes := [91, 194, 216, 220, 225, 226, 239, 93]

def longer : List Bytes :=
  [[194, 91, 128, 45, 159, 173, 93], [216, 91, 128, 45, 132, 93], [220, 143],
    [225, 158, 91, 180, 181, 93], [226, 128, 91, 140, 45, 143, 168, 175, 93],
    [226, 129, 91, 160, 45, 175, 93], [239, 187, 191], [239, 191, 91, 190, 191, 93]]

def quotestring (value : Bytes) : Bytes :=
  let value := fsub value escapable (escapeutf8 format4x)
  let value :=
    match find value leading 1 false with
    | none => value
    | some _ => longer.foldl (fun value p => fsub value p (escapeutf8 format4x)) value
  34 :: (value ++ [34])

end Strings

variable {ν : Type} (N : Numbers ν)

/-- The loop of `isarray`. `border` is the length of the table. -/
def isarrayLoop (border : ν) : Entries ν → ℕ → ℕ → Option (ℕ × ℕ)
  | [], max, n => some (max, n)
  | (k, v) :: tbl, max, n =>
    match k with
    | .string s =>
      if s = [110] then
        if sameKey N v (.number border) then isarrayLoop border tbl max n else none
      else none
    | .number x =>
      match N.index x with
      | none => none
      | some i => isarrayLoop border tbl (if max < i then i else max) (n + 1)
    | _ => none

/-- The highest index of an array, with at most as many holes as elements or ten elements. -/
def isarray (border : Entries ν → ν) (tbl : Entries ν) : Option ℕ :=
  match isarrayLoop N (border tbl) tbl 0 0 with
  | none => none
  | some (max, n) => if 10 < max ∧ n * 2 < max then none else some max

def Value.typename : Value ν → String
  | .nil => "nil"
  | .bool _ => "boolean"
  | .number _ => "number"
  | .string _ => "string"
  | .jsonNull | .table _ => "table"

def addnewline2 (indent : Bool) (level : ℕ) : Bytes :=
  if indent then 10 :: (List.replicate level [32, 32]).flatten else [32]

section Values

variable (format4x : ℕ → Bytes) (border : Entries ν → ν) (indent : Bool)

def keyText : Value ν → Except String Bytes
  | .string s => .ok (quotestring format4x s)
  | .number x => .ok (quotestring format4x (N.tostring x))
  | k => .error ("type '" ++ k.typename ++ "' is not supported as a key by JSON.")

/-- The elements from index `i` on, of which there are `r`. -/
def encodeItems (encode2 : Value ν → Option (Except String Bytes)) (tbl : Entries ν) :
    ℕ → ℕ → Option (Except String Bytes)
  | _, 0 => some (.ok [])
  | i, r + 1 =>
    match encode2 (get N tbl (.number (N.ofNat i))) with
    | none => none
    | some (.error msg) => some (.error msg)
    | some (.ok t) =>
      match encodeItems encode2 tbl (i + 1) r with
      | none => none
      | some (.error msg) => some (.error msg)
      | some (.ok more) => some (.ok (t ++ ((if r = 0 then [] else [44, 32]) ++ more)))

def encodeMembers (encode2 : Value ν → Option (Except String Bytes)) (level : ℕ) :
    Bool → Entries ν → Option (Except String Bytes)
  | _, [] => some (.ok [])
  | prev, (k, v) :: tbl =>
    match keyText N format4x k with
    | .error msg => some (.error msg)
    | .ok name =>
      match encode2 v with
      | none => none
      | some (.error msg) => some (.error msg)
      | some (.ok t) =>
        match encodeMembers encode2 level true tbl with
        | none => none
        | some (.error msg) => some (.error msg)
        | some (.ok more) =>
          some (.ok ((if prev then [44] else []) ++ (addnewline2 indent level ++
            (name ++ ([58, 32] ++ (t ++ more))))))

/-- What is put in the buffer for a value, or the message. A value is a tree, so that no table is
met inside itself. Nothing is yielded where the fuel runs out. -/
def encode2 : ℕ → ℕ → Value ν → Option (Except String Bytes)
  | _, _, .nil | _, _, .jsonNull => some (.ok [110, 117, 108, 108])
  | _, _, .bool true => some (.ok [116, 114, 117, 101])
  | _, _, .bool false => some (.ok [102, 97, 108, 115, 101])
  | _, _, .number x => some (.ok (N.tostring x))
  | _, _, .string s => some (.ok (quotestring format4x s))
  | 0, _, .table _ => none
  | fuel + 1, level, .table tbl =>
    match isarray N border tbl with
    | some n =>
      match encodeItems N (encode2 fuel (level + 1)) tbl 1 n with
      | none => none
      | some (.error msg) => some (.error msg)
      | some (.ok t) => some (.ok ([91, 32] ++ (t ++ [32, 93])))
    | none =>
      match encodeMembers N format4x indent (encode2 fuel (level + 1)) (level + 1) false tbl with
      | none => none
      | some (.error msg) => some (.error msg)
      | some (.ok t) => some (.ok (123 :: (t ++ (addnewline2 indent level ++ [125]))))

mutual

def Value.depth : Value ν → ℕ
  | .table tbl => depthEntries tbl + 1
  | _ => 0

def depthEntries : List (Value ν × Value ν) → ℕ
  | [] => 0
  | kv :: tbl => max (depthEntry kv) (depthEntries tbl)

def depthEntry : Value ν × Value ν → ℕ
  | (_, v) => v.depth

end

def encode (level : ℕ) (value : Value ν) : Option (Except String Bytes) :=
  encode2 N format4x border indent value.depth level value

end Values

end Jiauliyan.Dkjson
