import Mathlib.Data.Fintype.Basic

namespace Jiauliyan.JsonText

abbrev Bytes := List UInt8

abbrev Digit := Fin 10

def Digit.char (d : Digit) : UInt8 := UInt8.ofNat (48 + d.val)

inductive Sign
  | none
  | plus
  | minus

def Sign.text : Sign → Bytes
  | .none => []
  | .plus => [43]
  | .minus => [45]

structure Exponent where
  upper : Bool
  sign : Sign
  first : Digit
  more : List Digit

def Exponent.text (e : Exponent) : Bytes :=
  (if e.upper then 69 else 101) :: (e.sign.text ++ (e.first :: e.more).map Digit.char)

/-- An empty fraction is one that is not written. -/
structure Number where
  negative : Bool
  first : Digit
  whole : List Digit
  fraction : List Digit
  exponent : Option Exponent
  no_leading_zero : first = 0 → whole = []

def fractionText : List Digit → Bytes
  | [] => []
  | d :: ds => 46 :: (d :: ds).map Digit.char

def exponentText : Option Exponent → Bytes
  | none => []
  | some e => e.text

def Number.text (n : Number) : Bytes :=
  (if n.negative then [45] else []) ++ ((n.first :: n.whole).map Digit.char ++
    (fractionText n.fraction ++ exponentText n.exponent))

structure Hex where
  value : Fin 16
  upper : Bool

def Hex.char (h : Hex) : UInt8 :=
  if h.value.val < 10 then UInt8.ofNat (48 + h.value.val)
  else UInt8.ofNat ((if h.upper then 55 else 87) + h.value.val)

/-- The four digits behind `\u`. -/
structure Code where
  a : Hex
  b : Hex
  c : Hex
  d : Hex

def Code.text (x : Code) : Bytes := [92, 117, x.a.char, x.b.char, x.c.char, x.d.char]

def Code.value (x : Code) : ℕ :=
  ((x.a.value.val * 16 + x.b.value.val) * 16 + x.c.value.val) * 16 + x.d.value.val

inductive Escape
  | quote
  | backslash
  | slash
  | backspace
  | formFeed
  | lineFeed
  | carriageReturn
  | tab

/-- The character behind the backslash, and the one that is meant. -/
def Escape.chars : Escape → UInt8 × UInt8
  | .quote => (34, 34)
  | .backslash => (92, 92)
  | .slash => (47, 47)
  | .backspace => (98, 8)
  | .formFeed => (102, 12)
  | .lineFeed => (110, 10)
  | .carriageReturn => (114, 13)
  | .tab => (116, 9)

/-- A part of a string: a byte that stands for itself, or an escape sequence. Surrogates come in
pairs. -/
inductive Piece
  | char (c : UInt8) (plain : 32 ≤ c ∧ c ≠ 34 ∧ c ≠ 92)
  | escape (e : Escape)
  | unicode (x : Code) (single : x.value < 0xD800 ∨ 0xDFFF < x.value)
  | pair (x y : Code) (high : 0xD800 ≤ x.value ∧ x.value ≤ 0xDBFF)
      (low : 0xDC00 ≤ y.value ∧ y.value ≤ 0xDFFF)

def Piece.text : Piece → Bytes
  | .char c _ => [c]
  | .escape e => [92, e.chars.1]
  | .unicode x _ => x.text
  | .pair x y _ _ => x.text ++ y.text

def joined (high low : ℕ) : ℕ := (high - 0xD800) * 0x400 + (low - 0xDC00) + 0x10000

def utf8 (n : ℕ) : Bytes := String.utf8EncodeChar (Char.ofNat n)

def Piece.bytes : Piece → Bytes
  | .char c _ => [c]
  | .escape e => [e.chars.2]
  | .unicode x _ => utf8 x.value
  | .pair x y _ _ => utf8 (joined x.value y.value)

def stringText (s : List Piece) : Bytes := 34 :: (s.flatMap Piece.text ++ [34])

def stringBytes (s : List Piece) : Bytes := s.flatMap Piece.bytes

def isWs (c : UInt8) : Bool := c == 32 || c == 9 || c == 10 || c == 13

abbrev Ws := { w : Bytes // ∀ c ∈ w, isWs c = true }

mutual

/-- A text as it is derived from the grammar, with its white space. -/
inductive Text
  | null
  | bool (b : Bool)
  | number (n : Number)
  | string (s : List Piece)
  | emptyArray (w : Ws)
  | array (items : Items)
  | emptyObject (w : Ws)
  | object (members : Members)

inductive Items
  | last (before : Ws) (t : Text) (behind : Ws)
  | cons (before : Ws) (t : Text) (behind : Ws) (more : Items)

inductive Members
  | last (before : Ws) (name : List Piece) (colon : Ws) (value : Ws) (t : Text) (behind : Ws)
  | cons (before : Ws) (name : List Piece) (colon : Ws) (value : Ws) (t : Text) (behind : Ws)
      (more : Members)

end

mutual

def Text.text : Text → Bytes
  | .null => [110, 117, 108, 108]
  | .bool true => [116, 114, 117, 101]
  | .bool false => [102, 97, 108, 115, 101]
  | .number n => n.text
  | .string s => stringText s
  | .emptyArray w => 91 :: (w.val ++ [93])
  | .array items => 91 :: (items.text ++ [93])
  | .emptyObject w => 123 :: (w.val ++ [125])
  | .object members => 123 :: (members.text ++ [125])

def Items.text : Items → Bytes
  | .last before t behind => before.val ++ (t.text ++ behind.val)
  | .cons before t behind more => before.val ++ (t.text ++ (behind.val ++ 44 :: more.text))

def Members.text : Members → Bytes
  | .last before name colon value t behind =>
    before.val ++ (stringText name ++ (colon.val ++ 58 :: (value.val ++ (t.text ++ behind.val))))
  | .cons before name colon value t behind more =>
    before.val ++ (stringText name ++ (colon.val ++ 58 :: (value.val ++ (t.text ++
      (behind.val ++ 44 :: more.text)))))

end

end Jiauliyan.JsonText
