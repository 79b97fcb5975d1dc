import Jiauliyan.Strtoul

namespace Jiauliyan.LuaMatch

open Jiauliyan.StringCompare
open Jiauliyan.Strtoul (isspace isdigitInt isupper islower isalpha)

def isalnum (c : ℤ) : Bool := isalpha c || isdigitInt c

def iscntrl (c : ℤ) : Bool := 0 ≤ c && (c ≤ 31 || c = 127)

def ispunct (c : ℤ) : Bool := 32 < c && c ≤ 126 && !isalnum c

def isxdigit (c : ℤ) : Bool :=
  isdigitInt c || 65 ≤ c && c ≤ 70 || (isdigitInt c || 97 ≤ c && c ≤ 102)

def tolower (c : ℤ) : ℤ := if isupper c then c - 65 + 97 else c

def classTest (letter c : ℤ) : Option Bool :=
  if letter = 97 then some (isalpha c)
  else if letter = 99 then some (iscntrl c)
  else if letter = 100 then some (isdigitInt c)
  else if letter = 108 then some (islower c)
  else if letter = 112 then some (ispunct c)
  else if letter = 115 then some (isspace c)
  else if letter = 117 then some (isupper c)
  else if letter = 119 then some (isalnum c)
  else if letter = 120 then some (isxdigit c)
  else if letter = 122 then some (c = 0)
  else none

def matchClass (c cl : UInt8) : Bool :=
  match classTest (tolower cl.toNat) c.toNat with
  | some res => if islower cl.toNat then res else !res
  | none => cl == c

def bracketLoop (c : UInt8) (sig : Bool) : Chars → Bool
  | [] => !sig
  | x :: q =>
    if x = 37 then
      match q with
      | [] => if matchClass c 93 then sig else !sig
      | y :: q => if matchClass c y then sig else bracketLoop c sig q
    else
      match q with
      | [] => if x = c then sig else !sig
      | [y] => if x = c then sig else bracketLoop c sig [y]
      | y :: z :: q =>
        if y = 45 then if x ≤ c ∧ c ≤ z then sig else bracketLoop c sig q
        else if x = c then sig
        else bracketLoop c sig (y :: z :: q)

def matchbracketclass (c : UInt8) (set : Chars) : Bool :=
  if set.headD 93 = 94 then bracketLoop c false set.tail else bracketLoop c true set

-- A pattern is a C string, and a pointer into it is what follows there. A pattern that has ended
-- reads as zeros.
abbrev Message := String

def setEnd : Chars → Except Message Chars
  | [] => .error "malformed pattern (missing ']')"
  | c :: p =>
    if c = 37 then
      match p with
      | [] => .error "malformed pattern (missing ']')"
      | _ :: p => if p.headD 0 = 93 then .ok p.tail else setEnd p
    else if p.headD 0 = 93 then .ok p.tail
    else setEnd p

def classend : Chars → Except Message Chars
  | [] => .ok []
  | c :: p =>
    if c = 37 then
      if p.headD 0 = 0 then .error "malformed pattern (ends with '%')" else .ok p.tail
    else if c = 91 then setEnd (if p.headD 0 = 94 then p.tail else p)
    else .ok p

def between (p ep : Chars) : Chars := p.take (p.length - ep.length - 1)

def singlematch (c : UInt8) (p ep : Chars) : Bool :=
  if p.headD 0 = 46 then true
  else if p.headD 0 = 37 then matchClass c (p.tail.headD 0)
  else if p.headD 0 = 91 then matchbracketclass c (between p.tail ep)
  else p.headD 0 == c

def LUA_MAXCAPTURES : ℕ := 32

/-- `CAP_UNFINISHED`, `CAP_POSITION` or a length. -/
inductive CapLen
  | unfinished
  | position
  | closed (n : ℕ)
  deriving DecidableEq

structure Capture where
  start : ℕ
  len : CapLen
  deriving DecidableEq

/-- The captures up to the level. -/
abbrev MatchState := List Capture

abbrev Result := Except Message (Option ℕ × MatchState)

def unfinishedBelow (ms : MatchState) : ℕ → Option ℕ
  | 0 => none
  | level + 1 =>
    if ms[level]?.map Capture.len = some .unfinished then some level else unfinishedBelow ms level

def captureToClose (ms : MatchState) : Except Message ℕ :=
  match unfinishedBelow ms ms.length with
  | some l => .ok l
  | none => .error "invalid pattern capture"

def checkCapture (ms : MatchState) (l : UInt8) : Except Message Capture :=
  if l < 49 then .error "invalid capture index"
  else
    match ms[l.toNat - 49]? with
    | none => .error "invalid capture index"
    | some c => if c.len = .unfinished then .error "invalid capture index" else .ok c

section Matcher

variable (src : Chars)

/-- `*s`, which is a zero at the end. -/
def at' (s : ℕ) : UInt8 := src.getD s 0

/-- The length of a position capture is too large as a `size_t`. -/
def matchCapture (ms : MatchState) (s : ℕ) (l : UInt8) : Except Message (Option ℕ) :=
  match checkCapture ms l with
  | .error e => .error e
  | .ok c =>
    match c.len with
    | .closed len =>
      if len ≤ src.length - s ∧ (src.drop c.start).take len = (src.drop s).take len then
        .ok (some (s + len))
      else .ok none
    | _ => .ok none

def balanceFrom (b e : UInt8) : Chars → ℕ → ℕ → Option ℕ
  | [], _, _ => none
  | c :: rest, cont, s =>
    if c = e then
      if cont - 1 = 0 then some (s + 1) else balanceFrom b e rest (cont - 1) (s + 1)
    else if c = b then balanceFrom b e rest (cont + 1) (s + 1)
    else balanceFrom b e rest cont (s + 1)

def matchbalance (s : ℕ) (p : Chars) : Except Message (Option ℕ) :=
  if p.headD 0 = 0 ∨ p.tail.headD 0 = 0 then .error "unbalanced pattern"
  else if at' src s ≠ p.headD 0 then .ok none
  else .ok (balanceFrom (p.headD 0) (p.tail.headD 0) (src.drop (s + 1)) 1 (s + 1))

def expandCount (s : ℕ) (p ep : Chars) : ℕ :=
  ((src.drop s).takeWhile fun c => singlematch c p ep).length

def maxExpand (next : MatchState → ℕ → Result) (s : ℕ) : ℕ → MatchState → Result
  | 0, ms => next ms s
  | i + 1, ms =>
    match next ms (s + (i + 1)) with
    | .ok (none, ms) => maxExpand next s i ms
    | r => r

def minExpand (next : MatchState → ℕ → Result) (single : UInt8 → Bool) :
    Chars → MatchState → ℕ → Result
  | [], ms, s => next ms s
  | c :: rest, ms, s =>
    match next ms s with
    | .ok (none, ms) =>
      if single c then minExpand next single rest ms (s + 1) else .ok (none, ms)
    | r => r

def startCapture (next : MatchState → ℕ → Result) (ms : MatchState) (s : ℕ) (what : CapLen) :
    Result :=
  if LUA_MAXCAPTURES ≤ ms.length then .error "too many captures"
  else
    match next (ms ++ [⟨s, what⟩]) s with
    | .ok (none, ms) => .ok (none, ms.dropLast)
    | r => r

def endCapture (next : MatchState → ℕ → Result) (ms : MatchState) (s : ℕ) : Result :=
  match captureToClose ms with
  | .error e => .error e
  | .ok l =>
    match next (ms.modify l fun c => { c with len := .closed (s - c.start) }) s with
    | .ok (none, ms) => .ok (none, ms.modify l fun c => { c with len := .unfinished })
    | r => r

/-- The function `match`. Every call moves on in the pattern, whose length is fuel enough. -/
def matchAt : ℕ → MatchState → ℕ → Chars → Result
  | 0, ms, _, _ => .ok (none, ms)
  | n + 1, ms, s, p =>
    let next (p : Chars) (ms : MatchState) (s : ℕ) : Result := matchAt n ms s p
    if p = [] then .ok (some s, ms)
    else if p.headD 0 = 40 then
      if p.tail.headD 0 = 41 then startCapture (next (p.drop 2)) ms s .position
      else startCapture (next p.tail) ms s .unfinished
    else if p.headD 0 = 41 then endCapture (next p.tail) ms s
    else if p.headD 0 = 37 ∧ p.tail.headD 0 = 98 then
      match matchbalance src s (p.drop 2) with
      | .error e => .error e
      | .ok none => .ok (none, ms)
      | .ok (some s) => next (p.drop 4) ms s
    else if p.headD 0 = 37 ∧ p.tail.headD 0 = 102 then
      if (p.drop 2).headD 0 ≠ 91 then .error "missing '[' after '%f' in pattern"
      else
        match classend (p.drop 2) with
        | .error e => .error e
        | .ok ep =>
          let previous := if s = 0 then 0 else at' src (s - 1)
          let set := between (p.drop 3) ep
          if matchbracketclass previous set ∨ ¬matchbracketclass (at' src s) set then
            .ok (none, ms)
          else next ep ms s
    else if p.headD 0 = 37 ∧ isdigitInt (p.tail.headD 0).toNat then
      match matchCapture src ms s (p.tail.headD 0) with
      | .error e => .error e
      | .ok none => .ok (none, ms)
      | .ok (some s) => next (p.drop 2) ms s
    else if p = [36] then .ok (if s = src.length then some s else none, ms)
    else
      match classend p with
      | .error e => .error e
      | .ok ep =>
        let m := s < src.length ∧ singlematch (at' src s) p ep
        if ep.headD 0 = 63 then
          if m then
            match next ep.tail ms (s + 1) with
            | .ok (none, ms) => next ep.tail ms s
            | r => r
          else next ep.tail ms s
        else if ep.headD 0 = 42 then maxExpand (next ep.tail) s (expandCount src s p ep) ms
        else if ep.headD 0 = 43 then
          if m then maxExpand (next ep.tail) (s + 1) (expandCount src (s + 1) p ep) ms
          else .ok (none, ms)
        else if ep.headD 0 = 45 then
          minExpand (next ep.tail) (fun c => singlematch c p ep) (src.drop s) ms s
        else if m then next ep ms (s + 1)
        else .ok (none, ms)

end Matcher

end Jiauliyan.LuaMatch
