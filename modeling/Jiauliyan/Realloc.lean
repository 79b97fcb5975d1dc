import Jiauliyan.FreeList

namespace Jiauliyan.Realloc

open Jiauliyan.Execution Jiauliyan.Memory Jiauliyan.CString Jiauliyan.Malloc
open Jiauliyan.Malloc.HeaderMemory Jiauliyan.Ring Jiauliyan.Tiling Jiauliyan.FreeList

class ByteMemory (M : Type) extends HeaderMemory M where
  copy : M → ℕ → ℕ → ℕ → M
  fill : M → ℕ → UInt8 → ℤ → M

instance : ByteMemory Mem where
  copy := memcpy
  fill := memset

structure Logged where
  mem : Mem
  written : List ℕ

instance : ByteMemory Logged where
  next m p := load32 m.mem p
  size m p := load32 m.mem (p + 4)
  setNext m p v := ⟨store32 m.mem p v, p :: m.written⟩
  setSize m p v := ⟨store32 m.mem (p + 4) v, (p + 4) :: m.written⟩
  copy m dest src n :=
    ⟨memcpy m.mem dest src n, (List.range n).map (fun i => u32 (dest + i)) ++ m.written⟩
  fill m dest val count :=
    ⟨memset m.mem dest val count,
      (List.range count.toNat).map (fun i => u32 (dest + i)) ++ m.written⟩

section Realloc

variable {M : Type} [ByteMemory M]

def moved (m : M) (newptr ptr nbytes : ℕ) : M :=
  let bsize := u32 ((size m (ptrBlock ptr) + 4294967296 - 1) * blocksiz)
  let dsize := if nbytes > bsize then bsize else nbytes
  ByteMemory.fill (ByteMemory.copy m newptr ptr dsize) (newptr + dsize) 0 (i32 (nbytes - dsize))

def reallocIn (A : Arena) (fuel : ℕ) (h : Heap M) (ptr nbytes : ℕ) : Option (ℕ × Heap M) :=
  (malloc A fuel h nbytes).bind fun (newptr, h) =>
    if ptr = 0 then some (newptr, h)
    else
      (free fuel ⟨moved h.mem newptr ptr nbytes, h.freep⟩ ptr).bind fun h => some (newptr, h)

end Realloc

theorem realloc_eq (A : Arena) (fuel : ℕ) (h : Heap Mem) (ptr nbytes : ℕ) :
    realloc A fuel h ptr nbytes = reallocIn A fuel h ptr nbytes := rfl

def forget (h : Heap Logged) : Heap Mem := ⟨h.mem.mem, h.freep⟩

/-- The arena is in the address space, with `base` outside it. -/
structure Placed (A : Arena) : Prop where
  fits : A.fin ≤ 4294967296
  base_fits : A.base + blocksiz ≤ 4294967296
  apart : A.base + blocksiz ≤ A.memloc ∨ A.fin ≤ A.base

/-- The heap holds these blocks. The Header of a live one is its owner's to write. -/
structure Formed (A : Arena) (h : Heap Mem) (ts : List Tile) : Prop where
  tiles : Tiles blocksiz A.memloc ts A.fin
  positive : ∀ t ∈ ts, 0 < t.size
  sizes : ∀ t ∈ ts, t.free = true → size h.mem t.addr = t.size
  ring : IsRing (next h.mem) (A.base :: freeAddrs ts)
  freep : h.freep ∈ A.base :: freeAddrs ts
  freep_ne : h.freep ≠ 0
  baseSize : size h.mem A.base = 0

/-- A heap with one of its live blocks. -/
structure LiveBlock where
  arena : Arena
  heap : Heap Mem
  tiles : List Tile
  block : Tile
  placed : Placed arena
  formed : Formed arena heap tiles
  mem : block ∈ tiles
  live : block.free = false

def LiveBlock.ptr (s : LiveBlock) : ℕ := blockPtr s.block.addr

/-- The bytes behind the Header. -/
def capacity (t : Tile) : ℕ := blocksiz * (t.size - 1)

structure Moved (s : LiveBlock) (size q : ℕ) (h' : Heap Mem) (ts' : List Tile) (u : Tile) :
    Prop where
  formed : Formed s.arena h' ts'
  taken : u ∈ ts'
  live : u.free = false
  result : q = blockPtr u.addr
  room : size ≤ capacity u
  blocks : ∀ t, t ∈ ts' ∧ t.free = false ↔
    t = u ∨ t ∈ s.tiles ∧ t.free = false ∧ t ≠ s.block
  contents : ∀ i < min (capacity s.block) size, h'.mem (q + i) = s.heap.mem (s.ptr + i)
  zeros : ∀ i, capacity s.block ≤ i → i < size → h'.mem (q + i) = 0
  others : ∀ t ∈ s.tiles, t.free = false → t ≠ s.block → ∀ i < capacity t,
    h'.mem (blockPtr t.addr + i) = s.heap.mem (blockPtr t.addr + i)

/-- Nothing is written, and the block is still allocated with its contents. -/
structure Kept (s : LiveBlock) (h' : Heap Logged) : Prop where
  written : h'.mem.written = []
  formed : Formed s.arena (forget h') s.tiles
  contents : ∀ i < capacity s.block, h'.mem.mem (s.ptr + i) = s.heap.mem (s.ptr + i)

/-- `realloc` moves the block where `malloc` finds one, and changes nothing where it does not. -/
def ReallocRight (s : LiveBlock) (size : ℕ) : Prop :=
  (∀ fuel p h₁, mallocBlock s.arena fuel s.heap size = some (some p, h₁) →
    ∃ fuel' q h' ts' u, realloc s.arena fuel' s.heap s.ptr size = some (q, h') ∧
      Moved s size q h' ts' u) ∧
  (∀ fuel h₁, mallocBlock s.arena fuel s.heap size = some (none, h₁) →
    ∃ fuel' h', reallocIn s.arena fuel' ⟨⟨s.heap.mem, []⟩, s.heap.freep⟩ s.ptr size =
      some (0, h') ∧ Kept s h')

variable {A : Arena} {h h' : Heap Mem} {ts : List Tile} {t : Tile}

theorem carve_forget (h : Heap Logged) (n prevp p : ℕ) :
    carve (forget h) n prevp p = ((carve h n prevp p).1, forget (carve h n prevp p).2) := by
  have hsize : size (forget h).mem p = size h.mem p := rfl
  by_cases he : size h.mem p = n
  · rw [carve, carve, hsize, if_pos he, if_pos he]
    rfl
  · rw [carve, carve, hsize, if_neg he, if_neg he]
    rfl

theorem mallocSearch_forget (fuel : ℕ) (h : Heap Logged) (n : ℕ) :
    mallocSearch fuel (forget h) n =
      (mallocSearch fuel h n).map fun r => (r.1, forget r.2) := by
  have hbody : searchBody (forget h) n = searchBody h n := rfl
  have hstart : (forget h).freep = h.freep := rfl
  have hnext : next (forget h).mem h.freep = next h.mem h.freep := rfl
  rw [mallocSearch, mallocSearch, hbody, hstart, hnext, Option.map_map]
  refine Option.map_congr fun r _ => ?_
  cases r with
  | none => rfl
  | some q => exact congrArg (fun c => (some c.1, c.2)) (carve_forget h n q.1 q.2)

theorem malloc_forget (A : Arena) (fuel : ℕ) (h : Heap Logged) (nbytes : ℕ) :
    malloc A fuel (forget h) nbytes =
      (malloc A fuel h nbytes).map fun r => (r.1, forget r.2) := by
  have hstart : (forget h).freep = h.freep := rfl
  rw [malloc, malloc, Option.map_map, mallocBlock, mallocBlock, hstart]
  by_cases h0 : nbytes = 0
  · rw [if_pos h0, if_pos h0]
    rfl
  · rw [if_neg h0, if_neg h0]
    have hready : (if h.freep = 0 then mallocInit A (forget h) else forget h) =
        forget (if h.freep = 0 then mallocInit A h else h) := by
      split_ifs <;> rfl
    rw [hready, mallocSearch_forget, Option.map_map]
    rfl

theorem joinUpper_forget (m : Logged) (bp p : ℕ) :
    joinUpper m.mem bp p = (joinUpper m bp p).mem := by
  have hsize : size m.mem bp = size m bp := rfl
  have hnext : next m.mem p = next m p := rfl
  by_cases hj : addUnits bp (size m bp) = next m p
  · rw [joinUpper, joinUpper, hsize, hnext, if_pos hj, if_pos hj]
    rfl
  · rw [joinUpper, joinUpper, hsize, hnext, if_neg hj, if_neg hj]
    rfl

theorem joinLower_forget (m : Logged) (bp p : ℕ) :
    joinLower m.mem bp p = (joinLower m bp p).mem := by
  have hsize : size m.mem p = size m p := rfl
  by_cases hj : addUnits p (size m p) = bp
  · rw [joinLower, joinLower, hsize, if_pos hj, if_pos hj]
    rfl
  · rw [joinLower, joinLower, hsize, if_neg hj, if_neg hj]
    rfl

theorem free_forget (fuel : ℕ) (h : Heap Logged) (ap : ℕ) :
    free fuel (forget h) ap = (free fuel h ap).map forget := by
  rw [free, free]
  by_cases h0 : ap = 0
  · rw [if_pos h0, if_pos h0]
    rfl
  · rw [if_neg h0, if_neg h0, freeInsert, freeInsert, Option.map_map]
    refine Option.map_congr fun p _ => ?_
    have hupper := joinUpper_forget h.mem (ptrBlock ap) p
    have hlower := joinLower_forget (joinUpper h.mem (ptrBlock ap) p) (ptrBlock ap) p
    rw [← hupper] at hlower
    exact congrArg (fun m => (⟨m, p⟩ : Heap Mem)) hlower

theorem realloc_forget (A : Arena) (fuel : ℕ) (h : Heap Logged) (ptr nbytes : ℕ) :
    realloc A fuel (forget h) ptr nbytes =
      (reallocIn A fuel h ptr nbytes).map fun r => (r.1, forget r.2) := by
  rw [realloc_eq, reallocIn, reallocIn, malloc_forget]
  cases malloc A fuel h nbytes with
  | none => rfl
  | some r =>
    obtain ⟨newptr, h₁⟩ := r
    simp only [Option.map_some, Option.bind_some]
    by_cases h0 : ptr = 0
    · rw [if_pos h0, if_pos h0]
      rfl
    · have hfree := free_forget fuel ⟨moved h₁.mem newptr ptr nbytes, h₁.freep⟩ ptr
      have hmoved : forget ⟨moved h₁.mem newptr ptr nbytes, h₁.freep⟩ =
          ⟨moved (forget h₁).mem newptr ptr nbytes, (forget h₁).freep⟩ := rfl
      rw [hmoved] at hfree
      rw [if_neg h0, if_neg h0, hfree, Option.bind_map, Option.map_bind]
      rfl

section Release

variable {M : Type} [ByteMemory M]

theorem reallocIn_release {A : Arena} {fuel ptr nbytes q : ℕ} {h h' : Heap M} (h0 : ptr ≠ 0)
    (hr : reallocIn A fuel h ptr nbytes = some (q, h')) :
    ∃ r h₁ p, mallocBlock A fuel h nbytes = some (r, h₁) ∧ q = r.elim 0 blockPtr ∧
      h' = ⟨joinLower (joinUpper (moved h₁.mem q ptr nbytes) (ptrBlock ptr) p) (ptrBlock ptr) p,
        p⟩ := by
  obtain ⟨⟨newptr, h₁⟩, hm, hr⟩ := Option.bind_eq_some_iff.mp hr
  obtain ⟨⟨r, h₂⟩, hb, he⟩ := Option.map_eq_some_iff.mp hm
  obtain ⟨rfl, rfl⟩ := Prod.mk.inj he
  simp only [if_neg h0] at hr
  obtain ⟨h₃, hf, hr⟩ := Option.bind_eq_some_iff.mp hr
  obtain ⟨rfl, rfl⟩ := Prod.mk.inj (Option.some.inj hr)
  rw [free, if_neg h0] at hf
  obtain ⟨p, -, rfl⟩ := Option.map_eq_some_iff.mp hf
  exact ⟨r, h₂, p, hb, rfl, rfl⟩

end Release

theorem moved_frame (m : Mem) {newptr ptr nbytes x : ℕ} (hfit : newptr + nbytes ≤ 4294967296)
    (hx : x < newptr ∨ newptr + nbytes ≤ x) : moved m newptr ptr nbytes x = m x := by
  simp only [moved]
  generalize hd : (if nbytes > u32 ((size m (ptrBlock ptr) + 4294967296 - 1) * blocksiz) then
    u32 ((size m (ptrBlock ptr) + 4294967296 - 1) * blocksiz) else nbytes) = dsize
  have hle : dsize ≤ nbytes := by
    rw [← hd]
    split_ifs <;> omega
  have hcount : (i32 (nbytes - dsize)).toNat ≤ nbytes - dsize := by
    simp only [i32, u32]
    split_ifs <;> omega
  refine (memset_frame fun i hi => ?_).trans (memcpy_frame fun i hi => ?_)
  · rw [u32_eq (by omega)]
    omega
  · rw [u32_eq (by omega)]
    omega

theorem Formed.nodup (hA : Placed A) (hf : Formed A h ts) : (A.base :: freeAddrs ts).Nodup := by
  have hsorted := (hf.tiles.sorted (by decide) hf.positive).sublist freeAddrs_sublist
  refine List.nodup_cons.mpr ⟨fun hm => ?_, hsorted.imp Nat.ne_of_lt⟩
  obtain ⟨t, ht, -, he⟩ := mem_freeAddrs.mp hm
  have hb := hf.tiles.bounds ht
  have hpos := hf.positive t ht
  have hap := hA.apart
  simp only [blocksiz] at hb hap
  omega

theorem Placed.misses (hA : Placed A) {q : ℕ} (hlo : A.memloc ≤ q) (hhi : q + blocksiz ≤ A.fin) :
    A.base + blocksiz ≤ q ∨ q + blocksiz ≤ A.base := by
  have hap := hA.apart
  omega

theorem carve_base (hA : Placed A) (hf : Formed A h ts) {n a : ℕ} (h0 : 0 < n)
    (ha : a ∈ A.base :: freeAddrs ts) (hsz : n ≤ size h.mem (next h.mem a)) :
    size (carve h n a (next h.mem a)).2.mem A.base = 0 := by
  have hfits := hA.fits
  have hring := hf.ring.next_mem ha
  obtain hb | hfree := List.mem_cons.mp hring
  · rw [hb, hf.baseSize] at hsz
    omega
  obtain ⟨t, ht, htf, he⟩ := mem_freeAddrs.mp hfree
  rw [← he] at hsz ⊢
  rw [hf.sizes t ht htf] at hsz
  obtain ⟨hlo, hhi⟩ := hf.tiles.bounds ht
  have hpos := hf.positive t ht
  simp only [blocksiz] at hhi
  by_cases hx : size h.mem t.addr = n
  · rw [carve, if_pos hx]
    refine (mem_words.size_setNext_of_apart h.mem _ ?_).trans hf.baseSize
    obtain rfl | ha := List.mem_cons.mp ha
    · exact .inr (by omega)
    · obtain ⟨t', ht', -, rfl⟩ := mem_freeAddrs.mp ha
      obtain ⟨hlo', hhi'⟩ := hf.tiles.bounds ht'
      have hpos' := hf.positive t' ht'
      have hm := hA.misses hlo' (by simp only [blocksiz] at hhi' ⊢; omega)
      simp only [blocksiz] at hm
      omega
  · have hcut : size (setSize h.mem t.addr (size h.mem t.addr - n)) t.addr = t.size - n := by
      rw [mem_words.size_setSize, hf.sizes t ht htf]
      exact u32_eq (by omega)
    have hq : addUnits t.addr (t.size - n) = t.addr + 8 * (t.size - n) := u32_eq (by
      simp only [blocksiz]
      omega)
    have hm := hA.misses hlo (by simp only [blocksiz]; omega)
    have hm' := hA.misses (q := t.addr + 8 * (t.size - n)) (by omega)
      (by simp only [blocksiz]; omega)
    simp only [blocksiz] at hm hm'
    rw [carve, if_neg hx]
    simp only [hcut, hq]
    rw [mem_words.size_setSize_of_apart _ _ (by omega),
      mem_words.size_setSize_of_apart _ _ (by omega)]
    exact hf.baseSize

theorem mallocBlock_base (hA : Placed A) (hf : Formed A h ts) {nbytes : ℕ} (h0 : 0 < nbytes) :
    ∃ fuel r h₁, mallocBlock A fuel h nbytes = some (r, h₁) ∧ size h₁.mem A.base = 0 := by
  have hne : nbytes ≠ 0 := Nat.ne_of_gt h0
  simp only [mallocBlock, if_neg hne, if_neg hf.freep_ne]
  obtain ⟨he, -⟩ | ⟨a, ha, hsz, he⟩ :=
    ring_search (n := blockAlign nbytes) hf.ring (hf.nodup hA) hf.freep
  · obtain ⟨fuel, hs⟩ := search_of_exits he
    exact ⟨fuel, _, _, hs, hf.baseSize⟩
  · obtain ⟨fuel, hs⟩ := search_of_exits he
    exact ⟨fuel, _, _, hs, carve_base hA hf (blockAlign_pos nbytes) ha hsz⟩

theorem joinLower_next (m : Mem) {bp p : ℕ} (hbp : bp < 4294967296) :
    next (joinLower m bp p) p = bp ∨ addUnits p (size m p) = bp := by
  by_cases hj : addUnits p (size m p) = bp
  · exact .inr hj
  · rw [joinLower, if_neg hj, mem_words.next_setNext, u32_eq hbp]
    exact .inl rfl

theorem joinUpper_size (m : Mem) {bp p q : ℕ} (hq : q + blocksiz ≤ bp ∨ bp + blocksiz ≤ q) :
    size (joinUpper m bp p) q = size m q := by
  simp only [blocksiz] at hq
  by_cases hj : addUnits bp (size m bp) = next m p
  · rw [joinUpper, if_pos hj]
    exact (mem_words.size_setNext_of_apart _ _ (by omega)).trans
      (mem_words.size_setSize_of_apart _ _ (by omega))
  · rw [joinUpper, if_neg hj]
    exact mem_words.size_setNext_of_apart _ _ (by omega)

theorem ptrBlock_off (s : LiveBlock) :
    s.ptr ≠ 0 ∧ ptrBlock s.ptr < 4294967296 ∧
      ptrBlock s.ptr % 8 = (s.arena.memloc + 1) % 8 ∧ ptrBlock s.ptr ≠ s.arena.base := by
  obtain ⟨hlo, hhi⟩ := s.formed.tiles.bounds s.mem
  have hal := s.formed.tiles.aligned s.mem
  have hpos := s.formed.positive _ s.mem
  have hfits := s.placed.fits
  have hbase := s.placed.base_fits
  have hap := s.placed.apart
  simp only [blocksiz] at hhi hal hbase hap
  have hptr : s.ptr = s.block.addr + 1 := u32_eq (by omega)
  have hblock : ptrBlock s.ptr = (s.block.addr + 1 + 4294967296 - 8) % 4294967296 := by
    rw [hptr]
    rfl
  rw [hblock, hptr]
  refine ⟨Nat.succ_ne_zero _, Nat.mod_lt _ (by decide), by omega, fun he => ?_⟩
  omega

theorem not_formed {m : Mem} {bp : ℕ} (hA : Placed A) (hbp : bp < 4294967296)
    (hal : bp % 8 = (A.memloc + 1) % 8) (hne : bp ≠ A.base) (hsize : size m A.base = 0)
    (he : h'.mem = joinLower (joinUpper m bp h'.freep) bp h'.freep) : ¬Formed A h' ts := by
  intro hf
  have hoff : bp ∉ A.base :: freeAddrs ts := by
    intro hmem
    obtain ⟨t, ht, -, hadr⟩ := mem_freeAddrs.mp ((List.mem_cons.mp hmem).resolve_left hne)
    have halt := hf.tiles.aligned ht
    simp only [blocksiz] at halt
    omega
  have hring := hf.ring.next_mem hf.freep
  rw [he] at hring
  obtain hnext | hjoin := joinLower_next (joinUpper m bp h'.freep) (p := h'.freep) hbp
  · rw [hnext] at hring
    exact hoff hring
  simp only [addUnits, u32, blocksiz] at hjoin
  obtain hbase | hfree := List.mem_cons.mp hf.freep
  · -- `base` has no units, unless the Header reaches into it
    have hfits := hA.base_fits
    simp only [blocksiz] at hfits
    rw [hbase] at hjoin
    by_cases hap : A.base + 8 ≤ bp ∨ bp + 8 ≤ A.base
    · rw [joinUpper_size m hap, hsize] at hjoin
      omega
    · omega
  · obtain ⟨t, ht, -, hadr⟩ := mem_freeAddrs.mp hfree
    have halt := hf.tiles.aligned ht
    simp only [blocksiz] at halt
    omega

theorem size_congr {m m' : Mem} {p : ℕ} (h : ∀ x, p ≤ x → x < p + blocksiz → m' x = m x) :
    size m' p = size m p :=
  load32_congr fun x hlo hhi => h x (by omega) (by simp only [blocksiz]; omega)

theorem moved_base (m : Mem) {u : Tile} {ptr nbytes : ℕ} (hA : Placed A) (hf : Formed A h ts)
    (hu : u ∈ ts) (hroom : nbytes ≤ capacity u) :
    size (moved m (blockPtr u.addr) ptr nbytes) A.base = size m A.base := by
  obtain ⟨hlo, hhi⟩ := hf.tiles.bounds hu
  have hpos := hf.positive u hu
  have hfits := hA.fits
  have hap := hA.apart
  simp only [capacity, blocksiz] at hhi hroom hap
  have hq : blockPtr u.addr = u.addr + 1 := u32_eq (by omega)
  rw [hq]
  refine size_congr fun x hx hx' => moved_frame m (by omega) ?_
  simp only [blocksiz] at hx'
  omega

theorem not_moved (s : LiveBlock) {nbytes fuel q : ℕ} {ts' : List Tile} {u : Tile}
    (h0 : 0 < nbytes) (hr : realloc s.arena fuel s.heap s.ptr nbytes = some (q, h')) :
    ¬Moved s nbytes q h' ts' u := by
  intro hm
  obtain ⟨hptr, hbp, hal, hne⟩ := ptrBlock_off s
  obtain ⟨r, h₁, p, hb, -, he⟩ := reallocIn_release hptr hr
  obtain ⟨fuel', r', h₂, hb', hsize⟩ := mallocBlock_base s.placed s.formed h0
  have hh : h₁ = h₂ := congrArg Prod.snd (mallocBlock_unique hb hb')
  have hbase : size (moved h₁.mem q s.ptr nbytes) s.arena.base = 0 := by
    rw [hm.result, moved_base h₁.mem s.placed hm.formed hm.taken hm.room, hh]
    exact hsize
  have hmem : h'.mem = joinLower (joinUpper (moved h₁.mem q s.ptr nbytes) (ptrBlock s.ptr) h'.freep)
      (ptrBlock s.ptr) h'.freep := by
    rw [he]
  exact not_formed s.placed hbp hal hne hbase hmem hm.formed

theorem not_kept (s : LiveBlock) {nbytes fuel q : ℕ} {h' : Heap Logged}
    (hr : reallocIn s.arena fuel ⟨⟨s.heap.mem, []⟩, s.heap.freep⟩ s.ptr nbytes = some (q, h')) :
    ¬Kept s h' := by
  intro hk
  obtain ⟨r, h₁, p, -, -, rfl⟩ := reallocIn_release (ptrBlock_off s).1 hr
  have hw := hk.written
  generalize joinUpper (moved h₁.mem q s.ptr nbytes) (ptrBlock s.ptr) p = m at hw
  by_cases hj : addUnits p (size m p) = ptrBlock s.ptr
  · simp only [joinLower, if_pos hj] at hw
    exact List.cons_ne_nil _ _ hw
  · simp only [joinLower, if_neg hj] at hw
    exact List.cons_ne_nil _ _ hw

/-- `realloc` takes no live block right, whether there is room or not. -/
theorem realloc_never (s : LiveBlock) (nbytes : UInt32) (h0 : 0 < nbytes.toNat) :
    ¬ReallocRight s nbytes.toNat := by
  rintro ⟨hmoves, hkeeps⟩
  obtain ⟨fuel, r, h₁, hb, -⟩ := mallocBlock_base s.placed s.formed h0
  cases r with
  | none =>
    obtain ⟨fuel', h', hr, hk⟩ := hkeeps fuel h₁ hb
    exact not_kept s hr hk
  | some p =>
    obtain ⟨fuel', q, h', ts', u, hr, hm⟩ := hmoves fuel p h₁ hb
    exact not_moved s h0 hr hm

def twoBlocks : LiveBlock where
  arena := ⟨4096, 65536, 16⟩
  heap := ⟨fun a => if a = 4098 then 1 else if a = 65537 then 16 else if a = 65540 then 14 else 0,
    4096⟩
  tiles := [⟨65536, 14, true⟩, ⟨65648, 2, false⟩]
  block := ⟨65648, 2, false⟩
  placed := ⟨by decide, by decide, by decide⟩
  formed := ⟨⟨rfl, rfl, rfl⟩, by decide, by decide, isRing_cons.mpr (by decide), by decide,
    by decide, by decide⟩
  mem := by decide
  live := rfl

theorem realloc_twoBlocks : ¬ReallocRight twoBlocks (16 : UInt32).toNat :=
  realloc_never twoBlocks 16 (by decide)

/-- A block of 8 bytes is to grow to 4096, for which there is no room. -/
theorem realloc_wrong :
    ∃ s, ∃ nbytes : UInt32, 0 < nbytes.toNat ∧ ¬ReallocRight s nbytes.toNat := by
  refine ⟨twoBlocks, 4096, by decide, fun hr => ?_⟩
  have hnone : ∃ h₁, mallocBlock twoBlocks.arena 3 twoBlocks.heap 4096 = some (none, h₁) :=
    ⟨_, rfl⟩
  obtain ⟨h₁, hb⟩ := hnone
  obtain ⟨fuel', h', hrun, hk⟩ := hr.2 3 h₁ hb
  exact not_kept twoBlocks hrun hk

end Jiauliyan.Realloc
