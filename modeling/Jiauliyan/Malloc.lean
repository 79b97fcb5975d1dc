import Jiauliyan.CString

namespace Jiauliyan.Malloc

open Jiauliyan.Execution Jiauliyan.Memory Jiauliyan.CString

/-- `sizeof(Header)`: the attribute stands on the typedef, so it raises the
alignment of `Header` and leaves its size. -/
def blocksiz : ℕ := 8

def blockAlign (b : ℕ) : ℕ := u32 (u32 (b + blocksiz - 1) / blocksiz + 1)

theorem blockAlign_pos (n : ℕ) : 0 < blockAlign n := by
  unfold blockAlign u32
  simp only [blocksiz]
  omega

/-- The cast binds tighter than `+`, and a `void *` moves by single bytes. -/
def blockPtr (b : ℕ) : ℕ := u32 (b + 1)

def ptrBlock (b : ℕ) : ℕ := u32 (b + 4294967296 - blocksiz)

/-- Pointer arithmetic on a `Header *`. -/
def addUnits (p n : ℕ) : ℕ := u32 (p + blocksiz * n)

/-- What the allocator does to memory: the two fields of the `Header` at an
address are read and written. -/
class HeaderMemory (M : Type) where
  next : M → ℕ → ℕ
  size : M → ℕ → ℕ
  setNext : M → ℕ → ℕ → M
  setSize : M → ℕ → ℕ → M

open HeaderMemory

instance : HeaderMemory Mem where
  next m p := load32 m p
  size m p := load32 m (p + 4)
  setNext m p v := store32 m p v
  setSize m p v := store32 m (p + 4) v

/-- The static `base`, and the region given by MEMLOC and ALLOCSIZ. -/
structure Arena where
  base : ℕ
  memloc : ℕ
  allocsiz : ℕ

def Arena.fin (A : Arena) : ℕ := A.memloc + blocksiz * A.allocsiz

structure Heap (M : Type) where
  mem : M
  freep : ℕ

section Allocator

variable {M : Type} [HeaderMemory M]

def mallocInit (A : Arena) (h : Heap M) : Heap M :=
  let m := setNext h.mem A.memloc A.base
  let m := setSize m A.memloc (u32 A.allocsiz)
  let m := setNext m A.base A.memloc
  ⟨setSize m A.base 0, A.base⟩

def searchBody (h : Heap M) (nunits : ℕ) : ℕ × ℕ → (ℕ × ℕ) ⊕ Option (ℕ × ℕ)
  | (prevp, p) =>
    if nunits ≤ size h.mem p then .inr (some (prevp, p))
    else if p = h.freep then .inr none
    else .inl (p, next h.mem p)

/-- Take the block `p`, found behind `prevp`, or cut its tail end off. -/
def carve (h : Heap M) (nunits prevp p : ℕ) : ℕ × Heap M :=
  if size h.mem p = nunits then (p, ⟨setNext h.mem prevp (next h.mem p), prevp⟩)
  else
    let m := setSize h.mem p (size h.mem p - nunits)
    let q := addUnits p (size m p)
    (q, ⟨setSize m q nunits, prevp⟩)

def mallocSearch (fuel : ℕ) (h : Heap M) (nunits : ℕ) : Option (Option ℕ × Heap M) :=
  (loop (searchBody h nunits) fuel (h.freep, next h.mem h.freep)).map fun
    | none => (none, h)
    | some (prevp, p) => let r := carve h nunits prevp p; (some r.1, r.2)

def mallocBlock (A : Arena) (fuel : ℕ) (h : Heap M) (nbytes : ℕ) : Option (Option ℕ × Heap M) :=
  if nbytes = 0 then some (none, h)
  else mallocSearch fuel (if h.freep = 0 then mallocInit A h else h) (blockAlign nbytes)

def malloc (A : Arena) (fuel : ℕ) (h : Heap M) (nbytes : ℕ) : Option (ℕ × Heap M) :=
  (mallocBlock A fuel h nbytes).map fun r => (r.1.elim 0 blockPtr, r.2)

/-- The exit test of the walk in `free`, its two breaks taken together. -/
def insertsAt (h : Heap M) (bp p : ℕ) : Prop :=
  (p < bp ∧ bp < next h.mem p) ∨ (next h.mem p ≤ p ∧ (p < bp ∨ bp < next h.mem p))

instance (h : Heap M) (bp : ℕ) : DecidablePred (insertsAt h bp) := fun _ =>
  inferInstanceAs (Decidable (_ ∨ _))

def insertBody (h : Heap M) (bp p : ℕ) : ℕ ⊕ ℕ :=
  if insertsAt h bp p then .inr p else .inl (next h.mem p)

def joinUpper (m : M) (bp p : ℕ) : M :=
  if addUnits bp (size m bp) = next m p then
    let m' := setSize m bp (u32 (size m bp + size m (next m p)))
    setNext m' bp (next m' (next m' p))
  else setNext m bp (next m p)

def joinLower (m : M) (bp p : ℕ) : M :=
  if addUnits p (size m p) = bp then
    let m' := setSize m p (u32 (size m p + size m bp))
    setNext m' p (next m' bp)
  else setNext m p bp

def freeInsert (fuel : ℕ) (h : Heap M) (bp : ℕ) : Option (Heap M) :=
  (loop (insertBody h bp) fuel h.freep).map fun p => ⟨joinLower (joinUpper h.mem bp p) bp p, p⟩

def free (fuel : ℕ) (h : Heap M) (ap : ℕ) : Option (Heap M) :=
  if ap = 0 then some h else freeInsert fuel h (ptrBlock ap)

end Allocator

def realloc (A : Arena) (fuel : ℕ) (h : Heap Mem) (ptr size : ℕ) : Option (ℕ × Heap Mem) := do
  let (newptr, h) ← malloc A fuel h size
  if ptr = 0 then return (newptr, h)
  let bsize := u32 ((HeaderMemory.size h.mem (ptrBlock ptr) + 4294967296 - 1) * blocksiz)
  let dsize := if size > bsize then bsize else size
  let m := memcpy h.mem newptr ptr dsize
  let m := memset m (newptr + dsize) 0 (i32 (size - dsize))
  let h ← free fuel ⟨m, h.freep⟩ ptr
  return (newptr, h)

section Words

variable {M : Type} [HeaderMemory M] {view : M → Mem} {A : Arena} {p q : ℕ}

structure Words (view : M → Mem) : Prop where
  next_eq : ∀ m p, next m p = load32 (view m) p
  size_eq : ∀ m p, size m p = load32 (view m) (p + 4)
  setNext_eq : ∀ m p v, view (setNext m p v) = store32 (view m) p v
  setSize_eq : ∀ m p v, view (setSize m p v) = store32 (view m) (p + 4) v

theorem mem_words : Words (id : Mem → Mem) :=
  ⟨fun _ _ => rfl, fun _ _ => rfl, fun _ _ _ => rfl, fun _ _ _ => rfl⟩

theorem Words.next_setNext (hw : Words view) (m : M) (p v : ℕ) :
    next (setNext m p v) p = u32 v := by
  rw [hw.next_eq, hw.setNext_eq, load32_store32]

theorem Words.size_setSize (hw : Words view) (m : M) (p v : ℕ) :
    size (setSize m p v) p = u32 v := by
  rw [hw.size_eq, hw.setSize_eq, load32_store32]

theorem Words.next_setNext_of_apart (hw : Words view) (m : M) (v : ℕ)
    (h : q + 4 ≤ p ∨ p + 4 ≤ q) : next (setNext m p v) q = next m q := by
  rw [hw.next_eq, hw.setNext_eq, load32_store32_frame _ _ h, hw.next_eq]

theorem Words.next_setSize_of_apart (hw : Words view) (m : M) (v : ℕ)
    (h : q + 4 ≤ p + 4 ∨ p + 4 + 4 ≤ q) : next (setSize m p v) q = next m q := by
  rw [hw.next_eq, hw.setSize_eq, load32_store32_frame _ _ h, hw.next_eq]

theorem Words.size_setNext_of_apart (hw : Words view) (m : M) (v : ℕ)
    (h : q + 4 + 4 ≤ p ∨ p + 4 ≤ q + 4) : size (setNext m p v) q = size m q := by
  rw [hw.size_eq, hw.setNext_eq, load32_store32_frame _ _ h, hw.size_eq]

theorem Words.size_setSize_of_apart (hw : Words view) (m : M) (v : ℕ)
    (h : q + 4 + 4 ≤ p + 4 ∨ p + 4 + 4 ≤ q + 4) : size (setSize m p v) q = size m q := by
  rw [hw.size_eq, hw.setSize_eq, load32_store32_frame _ _ h, hw.size_eq]

theorem Words.mallocInit_fields (hw : Words view) (h : Heap M) (hbase : A.base < 4294967296)
    (hloc : A.memloc < 4294967296)
    (hap : A.memloc + blocksiz ≤ A.base ∨ A.base + blocksiz ≤ A.memloc) :
    next (mallocInit A h).mem A.base = A.memloc ∧ size (mallocInit A h).mem A.base = 0 ∧
      next (mallocInit A h).mem A.memloc = A.base ∧
        size (mallocInit A h).mem A.memloc = u32 A.allocsiz := by
  simp only [blocksiz] at hap
  refine ⟨?_, ?_, ?_, ?_⟩
  · rw [mallocInit, hw.next_setSize_of_apart _ _ (by omega), hw.next_setNext, u32_eq hloc]
  · rw [mallocInit, hw.size_setSize, u32_eq (by decide)]
  · rw [mallocInit, hw.next_setSize_of_apart _ _ (by omega),
      hw.next_setNext_of_apart _ _ (by omega), hw.next_setSize_of_apart _ _ (by omega),
      hw.next_setNext, u32_eq hbase]
  · have hlt : u32 A.allocsiz < 4294967296 := Nat.mod_lt _ (by decide)
    rw [mallocInit, hw.size_setSize_of_apart _ _ (by omega),
      hw.size_setNext_of_apart _ _ (by omega), hw.size_setSize, u32_eq hlt]

end Words

end Jiauliyan.Malloc
