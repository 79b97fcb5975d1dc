import Jiauliyan.Links
import Mathlib.Algebra.GroupWithZero.Nat
import Mathlib.Data.Rat.Defs

namespace Jiauliyan.LuaTable

/-- A `lua_Number` that is not NaN. Both zeros are one. -/
inductive Number
  | finite (q : ℚ)
  | infinite (negative : Bool)
  deriving DecidableEq

/-- Strings are interned, so that a string is its address, as are the other collectable objects. -/
inductive Key
  | number (n : Number)
  | string (ts : ℕ)
  | boolean (b : Bool)
  | lightuserdata (p : ℕ)
  | gc (p : ℕ)
  deriving DecidableEq

inductive Index
  | nil
  | nan
  | key (k : Key)

/-- `cast_num` -/
def ofInt (i : ℤ) : Key := .number (.finite i)

def asInt : Key → Option ℤ
  | .number (.finite q) =>
    if q.den = 1 ∧ -2147483648 ≤ q.num ∧ q.num < 2147483648 then some q.num else none
  | _ => none

def arrayindex (key : Key) : ℤ := (asInt key).getD (-1)

/-- The sum of the words of a number plus 1, and the hash that a string keeps. -/
structure Hashes where
  number : Number → ℕ
  nan : ℕ
  string : ℕ → ℕ

def MAXBITS : ℕ := 26

def MAXASIZE : ℕ := 2 ^ MAXBITS

/-- A value or a key that is nil is `none`. -/
structure Node (V : Type) where
  val : Option V
  key : Option Key
  next : Option ℕ

/-- The node array of `dummy` tables is `dummynode`. -/
structure Table (V : Type) where
  sizearray : ℕ
  array : ℕ → Option V
  lsizenode : ℕ
  node : ℕ → Node V
  dummy : Bool
  lastfree : ℕ

inductive Slot
  | array (i : ℕ)
  | node (i : ℕ)
  deriving DecidableEq

inductive Stop
  | fuel
  | fault
  | error (msg : String)
  deriving DecidableEq

abbrev Result := Except Stop

section Table

variable {V : Type} (H : Hashes)

def emptyNode : Node V := ⟨none, none, none⟩

namespace Table

def sizenode (t : Table V) : ℕ := 2 ^ t.lsizenode

def next (t : Table V) (i : ℕ) : Option ℕ := (t.node i).next

def at' (t : Table V) : Slot → Option V
  | .array i => t.array i
  | .node i => (t.node i).val

/-- `setobj2t` -/
def store (t : Table V) (v : Option V) : Slot → Table V
  | .array i => { t with array := Function.update t.array i v }
  | .node i => { t with node := Function.update t.node i { t.node i with val := v } }

end Table

def arrayPair (array : ℕ → Option V) (i : ℕ) : Option (Key × V) :=
  (array i).map fun v => (ofInt (i + 1 : ℕ), v)

def Node.pair (n : Node V) : Option (Key × V) :=
  match n.val, n.key with
  | some v, some k => some (k, v)
  | _, _ => none

def hashpow2 (size n : ℕ) : ℕ := n &&& (size - 1)

def hashmod (size n : ℕ) : ℕ := n % ((size - 1) ||| 1)

def mainposition (size : ℕ) : Key → ℕ
  | .number n => hashmod size (H.number n)
  | .string ts => hashpow2 size (H.string ts)
  | .boolean b => hashpow2 size b.toNat
  | .lightuserdata p => hashmod size p
  | .gc p => hashmod size p

def findKey (t : Table V) (p : Option Key → Bool) (i : ℕ) : Result (Option Slot) :=
  match Links.search t.next (fun j => p (t.node j).key) t.sizenode i with
  | none => .error .fuel
  | some j => .ok (j.map .node)

def find (t : Table V) (key : Key) : Result (Option Slot) :=
  findKey t (· == some key) (mainposition H t.sizenode key)

def luaHGetnum (t : Table V) (key : ℤ) : Result (Option Slot) :=
  if 0 < key ∧ key ≤ t.sizearray then .ok (some (.array (key - 1).toNat)) else find H t (ofInt key)

def luaHGetstr (t : Table V) (ts : ℕ) : Result (Option Slot) := find H t (.string ts)

/-- `none` is `luaO_nilobject`. -/
def luaHGet (t : Table V) : Index → Result (Option Slot)
  | .nil => .ok none
  | .nan => findKey t (fun _ => false) (hashmod t.sizenode H.nan)
  | .key k =>
    match asInt k with
    | some i => luaHGetnum H t i
    | none => find H t k

def log_2 : List ℕ := 0 :: (List.range 8).flatMap fun b => List.replicate (2 ^ b) (b + 1)

def log2Loop : ℕ → ℕ → ℤ → ℤ
  | 0, x, l => l + (log_2.getD x 0 : ℕ)
  | n + 1, x, l => if 256 ≤ x then log2Loop n (x / 256) (l + 8) else l + (log_2.getD x 0 : ℕ)

def luaOLog2 (x : ℕ) : ℤ := log2Loop x x (-1)

def ceillog2 (x : ℕ) : ℕ := (luaOLog2 (x - 1) + 1).toNat

def sizesLoop (nums : ℕ → ℕ) (narray : ℕ) : ℕ → ℕ → ℕ → ℕ × ℕ → ℕ × ℕ
  | 0, _, _, best => best
  | n + 1, i, a, best =>
    if 2 ^ i / 2 < narray then
      let a' := a + nums i
      let best := if 0 < nums i ∧ 2 ^ i / 2 < a' then (2 ^ i, a') else best
      if a' = narray then best else sizesLoop nums narray n (i + 1) a' best
    else best

def computesizes (nums : ℕ → ℕ) (narray : ℕ) : ℕ × ℕ :=
  sizesLoop nums narray (MAXBITS + 1) 0 0 (0, 0)

/-- The counts by slices, with the number of keys that were counted. -/
abbrev Counts := (ℕ → ℕ) × ℕ

def count (nums : ℕ → ℕ) (i n : ℕ) : ℕ → ℕ := Function.update nums i (nums i + n)

def countint (key : Key) (c : Counts) : Counts :=
  let k := arrayindex key
  if 0 < k ∧ k ≤ MAXASIZE then (count c.1 (ceillog2 k.toNat) 1, c.2 + 1) else c

def present (t : Table V) (i lim : ℕ) : List ℕ :=
  (List.range' i (lim + 1 - i)).filter fun k => (t.array (k - 1)).isSome

def numusearrayLoop (t : Table V) : ℕ → ℕ → ℕ → Counts → Counts
  | 0, _, _, c => c
  | n + 1, lg, i, c =>
    let lim := min (2 ^ lg) t.sizearray
    if t.sizearray < 2 ^ lg ∧ lim < i then c
    else
      let lc := (present t i lim).length
      numusearrayLoop t n (lg + 1) (max i (lim + 1)) (count c.1 lg lc, c.2 + lc)

def numusearray (t : Table V) : Counts :=
  numusearrayLoop t (MAXBITS + 1) 0 1 (fun _ => 0, 0)

def countNode (n : Node V) (c : Counts × ℕ) : Counts × ℕ :=
  match n.val, n.key with
  | some _, some k => (countint k c.1, c.2 + 1)
  | some _, none => (c.1, c.2 + 1)
  | none, _ => c

def numusehash (t : Table V) (c : Counts) : Counts × ℕ :=
  (List.range t.sizenode).reverse.foldl (fun c i => countNode (t.node i) c) (c, 0)

def setarrayvector (t : Table V) (size : ℕ) : Table V :=
  { t with
    sizearray := size
    array := fun i => if t.sizearray ≤ i then none else t.array i }

def setnodevector (t : Table V) (size : ℕ) : Result (Table V) :=
  if size = 0 then
    .ok { t with lsizenode := 0, node := fun _ => emptyNode, dummy := true, lastfree := 0 }
  else
    let lsize := ceillog2 size
    if MAXBITS < lsize then .error (.error "table overflow")
    else .ok { t with
      lsizenode := lsize
      node := fun _ => emptyNode
      dummy := false
      lastfree := 2 ^ lsize }

def assign (set : Table V → Result (Table V × Slot)) (v : V) (t : Table V) : Result (Table V) := do
  let r ← set t
  pure (r.1.store (some v) r.2)

def reinsertAt (setnum : ℤ → Table V → Result (Table V × Slot)) (t : Table V) (i : ℕ) :
    Result (Table V) :=
  match t.array i with
  | none => pure t
  | some v => assign (setnum (i + 1 : ℕ)) v t

def reinsertNode (set : Key → Table V → Result (Table V × Slot)) (n : Node V) (t : Table V) :
    Result (Table V) :=
  match n.val, n.key with
  | none, _ => pure t
  | some v, some k => assign (set k) v t
  | some _, none => .error .fault

def resize (set : Key → Table V → Result (Table V × Slot))
    (setnum : ℤ → Table V → Result (Table V × Slot)) (t : Table V) (nasize nhsize : ℕ) :
    Result (Table V) := do
  let oldasize := t.sizearray
  let nold := t.node
  let oldhsize := t.sizenode
  let t := if oldasize < nasize then setarrayvector t nasize else t
  let t ← setnodevector t nhsize
  let t ← if nasize < oldasize then
      (List.range' nasize (oldasize - nasize)).foldlM (reinsertAt setnum)
        { t with sizearray := nasize }
    else pure t
  (List.range oldhsize).reverse.foldlM (fun t i => reinsertNode set (nold i) t) t

def rehash (set : Key → Table V → Result (Table V × Slot))
    (setnum : ℤ → Table V → Result (Table V × Slot)) (t : Table V) (ek : Key) :
    Result (Table V) :=
  let c := numusearray t
  let h := numusehash t c
  let e := countint ek h.1
  let totaluse := c.2 + h.2 + 1
  let sizes := computesizes e.1 e.2
  resize set setnum t sizes.1 (totaluse - sizes.2)

def freeBelow (node : ℕ → Node V) : ℕ → Option ℕ
  | 0 => none
  | i + 1 => if (node i).key.isNone then some i else freeBelow node i

def getfreepos (t : Table V) : Option ℕ := freeBelow t.node t.lastfree

def previous (node : ℕ → Node V) (mp : ℕ) : ℕ → ℕ → Result ℕ
  | 0, _ => .error .fuel
  | n + 1, othern =>
    match (node othern).next with
    | none => .error .fault
    | some j => if j = mp then .ok othern else previous node mp n j

def setKey (node : ℕ → Node V) (mp : ℕ) (key : Key) : ℕ → Node V :=
  Function.update node mp { node mp with key := some key }

def moveNode (node : ℕ → Node V) (mp othern n : ℕ) : ℕ → Node V :=
  let node := Function.update node othern { node othern with next := some n }
  let node := Function.update node n (node mp)
  Function.update node mp { node mp with next := none, val := none }

def chainNode (node : ℕ → Node V) (mp n : ℕ) : ℕ → Node V :=
  let node := Function.update node n { node n with next := (node mp).next }
  Function.update node mp { node mp with next := some n }

def setOr (newkey : Table V → Key → Result (Table V × Slot)) (idx : Index) (t : Table V) :
    Result (Table V × Slot) := do
  match ← luaHGet H t idx with
  | some slot => pure (t, slot)
  | none =>
    match idx with
    | .nil => .error (.error "table index is nil")
    | .nan => .error (.error "table index is NaN")
    | .key k => newkey t k

def setnumOr (newkey : Table V → Key → Result (Table V × Slot)) (key : ℤ) (t : Table V) :
    Result (Table V × Slot) := do
  match ← luaHGetnum H t key with
  | some slot => pure (t, slot)
  | none => newkey t (ofInt key)

/-- With fuel for the calls of `rehash`, which insert again. -/
def newkey : ℕ → Table V → Key → Result (Table V × Slot)
  | 0, _, _ => .error .fuel
  | fuel + 1, t, key =>
    let mp := mainposition H t.sizenode key
    if (t.node mp).val.isSome ∨ t.dummy then
      match getfreepos t with
      | none => do
        let t ← rehash (fun k => setOr H (newkey fuel) (.key k)) (setnumOr H (newkey fuel)) t key
        setOr H (newkey fuel) (.key key) t
      | some n =>
        match (t.node mp).key with
        | none => .error .fault
        | some k => do
          let othern := mainposition H t.sizenode k
          if othern ≠ mp then
            let othern ← previous t.node mp t.sizenode othern
            let node := moveNode t.node mp othern n
            pure ({ t with node := setKey node mp key, lastfree := n }, .node mp)
          else
            let node := chainNode t.node mp n
            pure ({ t with node := setKey node n key, lastfree := n }, .node n)
    else pure ({ t with node := setKey t.node mp key }, .node mp)

def luaHSet (fuel : ℕ) (idx : Index) (t : Table V) : Result (Table V × Slot) :=
  setOr H (newkey H fuel) idx t

def luaHSetnum (fuel : ℕ) (key : ℤ) (t : Table V) : Result (Table V × Slot) :=
  setnumOr H (newkey H fuel) key t

def luaHNew (narray nhash : ℕ) : Result (Table V) :=
  setnodevector (setarrayvector ⟨0, fun _ => none, 0, fun _ => emptyNode, true, 0⟩ narray) nhash

end Table

end Jiauliyan.LuaTable
