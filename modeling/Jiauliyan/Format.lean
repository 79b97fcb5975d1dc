import Jiauliyan.Bytestreams

namespace Jiauliyan.Format

open Jiauliyan.Memory Jiauliyan.CString Jiauliyan.StringCompare Jiauliyan.Stdio
open Jiauliyan.Bytestreams

structure Flags where
  sign : Bool
  left : Bool
  alt : Bool
  zero : Bool
  upper : Bool
  octal : Bool
  hex : Bool
  exp : Bool
  mexp : Bool

def noFlags : Flags := ⟨false, false, false, false, false, false, false, false, false⟩

inductive Length
  | byte
  | short
  | long
  | llong

inductive Kind
  | string
  | char
  | literal
  | int
  | uint
  | double

/-- The value of a conversion; an integer is given by its pattern and a floating
one by the bytes read. -/
inductive Value
  | string (address : ℕ)
  | char (c : UInt8)
  | int (v : UInt32)
  | uint (v : UInt32)
  | double (bytes : List UInt8)

structure Conversion where
  flags : Flags
  width : ℕ
  precision : ℕ
  value : Value

/-- A `va_list`, with the address and size of each value read through it. -/
structure VaList where
  ap : ℕ
  reads : List (ℕ × ℕ)

def INTSIZEOF (n : ℕ) : ℕ := (n + 3) / 4 * 4

def vaArg (n : ℕ) (va : VaList) : VaList := ⟨va.ap + INTSIZEOF n, va.reads ++ [(va.ap, n)]⟩

def toChar (c : UInt8) : Char := Char.ofNat c.toNat

def isdigit (c : UInt8) : Bool := 48 ≤ c && c ≤ 57

def atoi (nptr : Chars) : ℕ :=
  (nptr.takeWhile isdigit).foldl (fun sum c => u32 (sum * 10 + (c.toNat - 48))) 0

def readFlags (fl : Flags) : Chars → Option (Flags × Chars)
  | [] => none
  | c :: fmt =>
    if c = 0 then none
    else
      match toChar c with
      | '+' => readFlags { fl with sign := true } fmt
      | '-' => readFlags { fl with left := true } fmt
      | '#' => readFlags { fl with alt := true } fmt
      | '0' => readFlags { fl with zero := true } fmt
      | _ => some (fl, c :: fmt)

def readWidth (m : Mem) (va : VaList) : Chars → ℕ × VaList × Chars
  | [] => (0, va, [])
  | c :: fmt =>
    if toChar c = '*' then (load32 m va.ap, vaArg 4 va, fmt)
    else if isdigit c then (atoi (c :: fmt), va, (c :: fmt).dropWhile isdigit)
    else (0, va, c :: fmt)

def readPrecision (m : Mem) (va : VaList) : Chars → VaList × Option (ℕ × Chars)
  | [] => (va, some (6, []))
  | c :: fmt =>
    if toChar c = '.' then
      match fmt with
      | [] => (va, none)
      | d :: fmt' =>
        if toChar d = '*' then (vaArg 4 va, some (load32 m va.ap, fmt'))
        else if isdigit d then (va, some (atoi fmt, fmt.dropWhile isdigit))
        else (va, none)
    else (va, some (6, c :: fmt))

def readLength : Chars → Option (Length × Chars)
  | [] => none
  | c :: fmt =>
    if c = 0 then none
    else
      match toChar c with
      | 'h' =>
        if fmt.head?.map toChar = some 'h' then some (.byte, fmt.tail) else some (.short, fmt)
      | 'l' =>
        if fmt.head?.map toChar = some 'l' then some (.long, fmt.tail) else some (.llong, fmt)
      | 'L' | 'j' => some (.llong, fmt)
      -- falls through to the end of the format
      | 'z' | 't' => none
      | _ => some (.long, c :: fmt)

def readType (c : UInt8) (fl : Flags) : Option (Kind × Flags) :=
  match toChar c with
  | 'i' | 'd' => some (.int, fl)
  | 'u' => some (.uint, fl)
  | 'F' => some (.double, { fl with upper := true })
  | 'f' => some (.double, fl)
  | 'G' => some (.double, { fl with upper := true, mexp := true })
  | 'g' => some (.double, { fl with mexp := true })
  | 'E' => some (.double, { fl with upper := true, exp := true })
  | 'e' => some (.double, { fl with exp := true })
  | 'X' => some (.uint, { fl with upper := true, hex := true })
  | 'x' | 'p' => some (.uint, { fl with hex := true })
  | 'O' => some (.uint, { fl with upper := true, octal := true })
  | 'o' => some (.uint, { fl with octal := true })
  | 's' => some (.string, fl)
  | 'c' => some (.char, fl)
  | '%' => some (.literal, fl)
  | _ => none

def readValue (m : Mem) (va : VaList) (length : Length) : Kind → Value × VaList
  | .string => (.string (load32 m va.ap), vaArg 4 va)
  | .char => (.char (m va.ap), vaArg 1 va)
  | .literal => (.char 37, va)
  | .int => (.int (UInt32.ofNat (load32 m va.ap)), vaArg 4 va)
  | .uint => (.uint (UInt32.ofNat (load32 m va.ap)), vaArg 4 va)
  | .double =>
    let n := match length with
      | .llong => 12
      | _ => 8
    (.double ((List.range n).map fun i => m (va.ap + i)), vaArg n va)

/-- The first half of `stream_format_arg`, from behind the percent sign to the
value; what is left of the format is that behind the type. -/
def readArg (m : Mem) (va : VaList) (fmt : Chars) : VaList × Option (Conversion × Chars) :=
  match readFlags noFlags fmt with
  | none => (va, none)
  | some (fl, fmt) =>
    let (width, va, fmt) := readWidth m va fmt
    match readPrecision m va fmt with
    | (va, none) => (va, none)
    | (va, some (precision, fmt)) =>
      match readLength fmt with
      | none => (va, none)
      | some (_, []) => (va, none)
      | some (length, c :: fmt) =>
        match readType c fl with
        | none => (va, none)
        | some (kind, fl) =>
          let (value, va) := readValue m va length kind
          (va, some (⟨fl, width, precision, value⟩, fmt))

/-- What the format does not say: the string at an address, the bytes in front
of the two digit strings, and the string that `__format_double` builds if it returns. -/
structure World where
  string : ℕ → Chars
  before : Bool → ℤ → UInt8
  formatDouble : List UInt8 → ℕ → Flags → Option Chars

/-- Signed 32-bit arithmetic wraps. -/
def int32 (x : ℤ) : ℤ := x.bmod 4294967296

def digitsLower : Chars := [48, 49, 50, 51, 52, 53, 54, 55, 56, 57, 97, 98, 99, 100, 101, 102]

def digitsUpper : Chars := [48, 49, 50, 51, 52, 53, 54, 55, 56, 57, 65, 66, 67, 68, 69, 70]

def digit (w : World) (upper : Bool) (i : ℤ) : UInt8 :=
  if 0 ≤ i then (if upper then digitsUpper else digitsLower).getD i.toNat 0 else w.before upper i

def scale (value base : ℤ) : ℕ → ℕ → ℤ → ℕ × ℤ
  | 0, i, divisor => (i, divisor)
  | k + 1, i, divisor =>
    if value < int32 (divisor * base) then (i, divisor)
    else scale value base k (i + 1) (int32 (divisor * base))

/-- The loop that puts the digits; it yields nothing where it divides by zero. -/
def putDigits (w : World) (upper : Bool) (value : ℕ) (base : ℤ) : ℕ → ℤ → Option Chars
  | 0, _ => some []
  | n + 1, divisor =>
    if divisor = 0 then none
    else
      (putDigits w upper value base n (divisor.tdiv base)).map
        (digit w upper ((i32 (value / (divisor % 4294967296).toNat)).tmod base) :: ·)

def radix (fl : Flags) : ℤ := if fl.octal then 8 else if fl.hex then 16 else 10

def digitPrefix (fl : Flags) : Chars :=
  (if fl.sign then [43] else []) ++
    if fl.alt then
      (if fl.octal then [48] else []) ++
        if fl.hex then (if fl.upper then [48, 88] else [48, 120]) else []
    else []

def putuint (w : World) (value : ℕ) (fl : Flags) : Option Chars :=
  if value = 0 then some [48]
  else
    let (i, divisor) := scale (i32 value) (radix fl) 16 0 1
    (putDigits w fl.upper value (radix fl) (i + 1) divisor).map (digitPrefix fl ++ ·)

def putint (w : World) (value : ℤ) (fl : Flags) : Option Chars :=
  if value < 0 then (putuint w (-value % 4294967296).toNat fl).map (45 :: ·)
  else putuint w value.toNat fl

def field (w : World) (cv : Conversion) : Option Chars :=
  match cv.value with
  | .string p => some (content (if p = 0 then [40, 110, 117, 108, 108, 41] else w.string p))
  | .char c => some [c]
  | .int v => putint w (i32 v.toNat) cv.flags
  | .uint v => putuint w v.toNat cv.flags
  | .double bytes => (w.formatDouble bytes cv.precision cv.flags).map content

/-- What `realloc` adds to the buffer of the `n`-th field and what lies behind
that buffer, by its capacity. -/
structure Heap where
  grown : ℕ → ℕ → ℕ → UInt8
  behind : ℕ → ℕ → Chars

def Heap.allocator (h : Heap) (n : ℕ) : Allocator where
  realloc data old new i := if i < old then data i else h.grown n new i
  keeps _ _ _ _ hi _ := if_pos hi

def puts (A : Realloc) (bs : Bytestream) (out : Chars) : Bytestream :=
  out.foldl (fun bs c => (bytestreamPut A bs c).2) bs

def fstr (h : Heap) (n : ℕ) (bs : Bytestream) : Chars :=
  content ((List.range bs.capacity).map bs.buf ++ h.behind n bs.capacity)

/-- The length that the source has for a field; that of an empty one wraps. -/
def flen (bs : Bytestream) : ℕ := if bs.size = 0 then 4294967295 else bs.size - 1

def justify (cv : Conversion) (flen : ℕ) (fstr : Chars) : Chars :=
  if flen < cv.width then
    let padding := List.replicate (cv.width - flen) (if cv.flags.zero then 48 else 32)
    if cv.flags.left then fstr ++ padding else padding ++ fstr
  else fstr

/-- The second half of `stream_format_arg`, in which the memory found by
`malloc` is `block`. -/
def putField (h : Heap) (n : ℕ) (block : ℕ → UInt8) (cv : Conversion) (out : Chars) : Chars :=
  let bs := puts (h.allocator n) (bytestreamCreate block BUFSIZ) out
  justify cv (flen bs) (fstr h n bs)

/-- The bytes put on the output stream, up to a division by zero or a call that does not return,
if there is one. -/
structure Output where
  bytes : Chars
  fault : Bool

def Output.after (c : Chars) (o : Output) : Output := ⟨c ++ o.bytes, o.fault⟩

/-- `stream_vformat` from a character of the format on, with `skip` of them
already taken by a conversion and `n` fields made. -/
def vformat (w : World) (m : Mem) (h : Heap) (block : ℕ → ℕ → UInt8) :
    ℕ → ℕ → Chars → ℕ → Output
  | _, _, [], _ => ⟨[], false⟩
  | n, skip + 1, _ :: fmt, ap => vformat w m h block n skip fmt ap
  | n, 0, c :: fmt, ap =>
    if c = 0 then ⟨[], false⟩
    else if toChar c ≠ '%' then (vformat w m h block n 0 fmt ap).after [c]
    else
      match readArg m ⟨ap, []⟩ fmt with
      | (va, none) => vformat w m h block n 0 fmt va.ap
      | (va, some (cv, rest)) =>
        match field w cv with
        | none => ⟨[], true⟩
        | some out =>
          (vformat w m h block (n + 1) (fmt.length - rest.length) fmt va.ap).after
            (putField h n (block n) cv out)

/-- One round of `stream_vformat`: a character, or a call of `stream_format_arg`
with the cursor that it leaves behind. -/
inductive Item
  | char (c : UInt8)
  | call (va : VaList) (cv : Option Conversion)

/-- The rounds of `stream_vformat`, which do not depend on what is put. -/
def scan (m : Mem) : ℕ → Chars → ℕ → List Item
  | _, [], _ => []
  | skip + 1, _ :: fmt, ap => scan m skip fmt ap
  | 0, c :: fmt, ap =>
    if c = 0 then []
    else if toChar c ≠ '%' then .char c :: scan m 0 fmt ap
    else
      match readArg m ⟨ap, []⟩ fmt with
      | (va, none) => .call va none :: scan m 0 fmt va.ap
      | (va, some (cv, rest)) =>
        .call va (some cv) :: scan m (fmt.length - rest.length) fmt va.ap

def emit (w : World) (h : Heap) (block : ℕ → ℕ → UInt8) : ℕ → List Item → Output
  | _, [] => ⟨[], false⟩
  | n, .char c :: items => (emit w h block n items).after [c]
  | n, .call _ none :: items => emit w h block n items
  | n, .call _ (some cv) :: items =>
    match field w cv with
    | none => ⟨[], true⟩
    | some out => (emit w h block (n + 1) items).after (putField h n (block n) cv out)

theorem vformat_eq (w : World) (m : Mem) (h : Heap) (block : ℕ → ℕ → UInt8)
    (n skip : ℕ) (fmt : Chars) (ap : ℕ) :
    vformat w m h block n skip fmt ap = emit w h block n (scan m skip fmt ap) := by
  induction fmt generalizing n skip ap with
  | nil => cases skip <;> rfl
  | cons c fmt ih =>
    cases skip with
    | succ skip => exact ih n skip ap
    | zero =>
      rw [vformat, scan]
      by_cases hc : c = 0
      · rw [if_pos hc, if_pos hc]
        rfl
      rw [if_neg hc, if_neg hc]
      by_cases hp : toChar c ≠ '%'
      · rw [if_pos hp, if_pos hp, ih]
        rfl
      rw [if_neg hp, if_neg hp]
      obtain ⟨va, r⟩ := readArg m ⟨ap, []⟩ fmt
      cases r with
      | none => exact ih n 0 va.ap
      | some r =>
        obtain ⟨cv, rest⟩ := r
        cases hf : field w cv with
        | none => simp only [emit, hf]
        | some out => simp only [emit, hf, ih]

end Jiauliyan.Format
