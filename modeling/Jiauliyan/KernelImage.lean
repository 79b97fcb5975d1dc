import Jiauliyan.FreeList
import Jiauliyan.MemoryInit

namespace Jiauliyan.KernelImage

open Jiauliyan.Execution Jiauliyan.Memory Jiauliyan.Malloc Jiauliyan.Malloc.HeaderMemory
  Jiauliyan.MemoryInit

/-- What the linker places from 0x100000 on, `base` among it. -/
structure Image where
  base : ℕ
  ebss : ℕ
  base_ge : 0x100000 ≤ base
  base_le : base + blocksiz ≤ ebss
  fits : ebss ≤ 4294967296

def Image.Holds (k : Image) (a : ℕ) : Prop := 0x100000 ≤ a ∧ a < k.ebss

instance (k : Image) (a : ℕ) : Decidable (k.Holds a) := inferInstanceAs (Decidable (_ ∧ _))

def Image.Spared (k : Image) (a n : ℕ) : Prop := ∀ i < n, ¬k.Holds (u32 (a + i))

def Image.Available (k : Image) (t : MemoryMap) : Prop :=
  ∃ e ∈ t.entries, e.type = MULTIBOOT_MEMORY_AVAILABLE ∧ e.addr ≤ 0x100000 ∧ k.ebss ≤ e.addr + e.len

/-- Memory with a record of the words written, each with its Header. -/
structure Traced where
  mem : Mem
  writes : List (ℕ × ℕ)

instance : HeaderMemory Traced where
  next m p := load32 m.mem p
  size m p := load32 m.mem (p + 4)
  setNext m p v := ⟨store32 m.mem p v, (p, p) :: m.writes⟩
  setSize m p v := ⟨store32 m.mem (p + 4) v, (p, p + 4) :: m.writes⟩

structure Block where
  header : ℕ
  units : ℕ

/-- `searching` while a call has not returned. -/
structure State where
  heap : Heap Traced
  blocks : List Block
  searching : Bool

def start (m : Mem) : State := ⟨⟨⟨m, []⟩, 0⟩, [], false⟩

def ready (A : Arena) (h : Heap Traced) : Heap Traced := if h.freep = 0 then mallocInit A h else h

/-- A call of malloc, to its end or as far as its search has come. -/
inductive Step (A : Arena) : State → ℕ → State → Prop
  | returns {h h' : Heap Traced} {bs : List Block} {nbytes fuel : ℕ} {r : Option ℕ} :
      mallocBlock A fuel h nbytes = some (r, h') →
      Step A ⟨h, bs, false⟩ nbytes
        ⟨h', (r.map fun p => ⟨p, blockAlign nbytes⟩).toList ++ bs, false⟩
  | searches {h : Heap Traced} {bs : List Block} {nbytes fuel : ℕ} :
      mallocBlock A fuel h nbytes = none →
      Step A ⟨h, bs, false⟩ nbytes ⟨ready A h, bs, true⟩

def arena (k : Image) (r : Region) : Arena := ⟨k.base, r.ptr, r.size / blocksiz⟩

/-- No block and no word of a Header other than `base` is in the image. -/
structure Safe (k : Image) (s : State) : Prop where
  blocks : ∀ b ∈ s.blocks, k.Spared b.header (blocksiz * b.units)
  writes : ∀ w ∈ s.heap.mem.writes, w.1 ≠ k.base → k.Spared w.2 4

/-- The arena is disjoint from the image, and so is all that calls of malloc
return or write. -/
structure Clear (k : Image) (r : Region) : Prop where
  region : k.Spared r.ptr r.size
  runs : ∀ m ns s, Run (Step (arena k r)) (start m) ns s → Safe k s

/-- The first longest of the entries looked at has nothing of the image. -/
def Harmless (k : Image) (t : MemoryMap) : Prop :=
  ∀ e, Longest t.visited e → k.Spared e.addr (max e.len blocksiz)

variable {k : Image} {r : Region}

def Beside (k : Image) (r : Region) : Prop :=
  r.ptr < 4294967296 ∧ k.Spared r.ptr (max r.size blocksiz)

section Apart

theorem Image.Spared.mono {a n n' : ℕ} (h : k.Spared a n) (hn : n' ≤ n) : k.Spared a n' :=
  fun i hi => h i (hi.trans_le hn)

theorem u32_add (a i : ℕ) : u32 (u32 a + i) = u32 (a + i) := by
  simp only [u32]
  omega

theorem Image.Spared.shift {a n : ℕ} (h : k.Spared a n) {j n' : ℕ} (hn : j + n' ≤ n) :
    k.Spared (u32 (a + j)) n' := by
  intro i hi
  rw [u32_add, Nat.add_assoc]
  exact h (j + i) (by omega)

theorem spared_u32 {a n : ℕ} : k.Spared (u32 a) n ↔ k.Spared a n := by
  simp only [Image.Spared, u32_add]

theorem base_held (k : Image) {j : ℕ} (hj : j < blocksiz) : k.Holds (k.base + j) := by
  have hge := k.base_ge
  have hle := k.base_le
  exact ⟨by omega, by omega⟩

theorem Image.Spared.apart {a n : ℕ} (h : k.Spared a n) (hn : 0 < n) :
    a + n ≤ k.base ∨ k.base + blocksiz ≤ a := by
  have hfits := k.fits
  have hle := k.base_le
  by_contra hno
  have hblock : blocksiz = 8 := rfl
  rw [hblock] at hno hle
  by_cases hlow : a ≤ k.base
  · have heq : u32 (a + (k.base - a)) = k.base + 0 := by
      rw [u32_eq (by omega)]
      omega
    exact h (k.base - a) (by omega) (heq ▸ base_held k (by decide))
  · have heq : u32 (a + 0) = k.base + (a - k.base) := by
      rw [u32_eq (by omega)]
      omega
    exact h 0 hn (heq ▸ base_held k (by rw [hblock]; omega))

theorem Beside.short (hb : Beside k r) : r.size < 4294967296 := by
  obtain ⟨hptr, hspared⟩ := hb
  have hregion : k.Spared r.ptr r.size := hspared.mono (Nat.le_max_left _ _)
  have hbase : k.base < 4294967296 := by
    have hle := k.base_le
    have hfits := k.fits
    have hblock : blocksiz = 8 := rfl
    omega
  have hheld := base_held k (show 0 < blocksiz by decide)
  by_contra hlong
  by_cases hlow : r.ptr ≤ k.base
  · have heq : u32 (r.ptr + (k.base - r.ptr)) = k.base + 0 := by
      rw [u32]
      omega
    exact hregion (k.base - r.ptr) (by omega) (heq ▸ hheld)
  · have heq : u32 (r.ptr + (k.base + 4294967296 - r.ptr)) = k.base + 0 := by
      rw [u32]
      omega
    exact hregion (k.base + 4294967296 - r.ptr) (by omega) (heq ▸ hheld)

end Apart

section Cutting

theorem traced_words : Words Traced.mem :=
  ⟨fun _ _ => rfl, fun _ _ => rfl, fun _ _ _ => rfl, fun _ _ _ => rfl⟩

/-- The free list holds `base` and what is left of the arena, or `base` alone. -/
structure Tailed (k : Image) (r : Region) (h : Heap Traced) : Prop where
  freep : h.freep = k.base
  sizeBase : size h.mem k.base = 0
  list : (next h.mem k.base = r.ptr ∧ next h.mem r.ptr = k.base ∧
      blocksiz * size h.mem r.ptr ≤ r.size) ∨
    next h.mem k.base = k.base

theorem Beside.header (hb : Beside k r) :
    r.ptr + blocksiz ≤ k.base ∨ k.base + blocksiz ≤ r.ptr :=
  (hb.2.mono (Nat.le_max_right _ _)).apart (by decide)

theorem base_lt (k : Image) : k.base < 4294967296 := by
  have hle := k.base_le
  have hfits := k.fits
  have hblock : blocksiz = 8 := rfl
  omega

theorem init_tailed (hb : Beside k r) (h : Heap Traced) :
    Tailed k r (mallocInit (arena k r) h) := by
  have hap := hb.header
  have hbase := base_lt k
  have hblock : blocksiz = 8 := rfl
  obtain ⟨hnext, hsize, hback, harena⟩ :=
    traced_words.mallocInit_fields (A := arena k r) h hbase hb.1 hap
  refine ⟨rfl, hsize, Or.inl ⟨hnext, hback, ?_⟩⟩
  have hunits : size (mallocInit (arena k r) h).mem r.ptr = u32 (r.size / blocksiz) := harena
  rw [hunits, hblock]
  simp only [u32]
  omega

theorem Tailed.exits (hb : Beside k r) {h : Heap Traced} (ht : Tailed k r h) {n : ℕ} (hn : 0 < n) :
    ∃ q, Exits (searchBody h n) (h.freep, next h.mem h.freep) q ∧
      (q = none ∨ q = some (k.base, r.ptr) ∧ next h.mem r.ptr = k.base ∧
        n ≤ size h.mem r.ptr ∧ blocksiz * size h.mem r.ptr ≤ r.size) := by
  have hne : r.ptr ≠ k.base := by
    have hap := hb.header
    have hblock : blocksiz = 8 := rfl
    omega
  have hstop : searchBody h n (r.ptr, k.base) = .inr none := by
    simp [searchBody, ht.sizeBase, ht.freep, hn.ne']
  have hstop' : searchBody h n (k.base, k.base) = .inr none := by
    simp [searchBody, ht.sizeBase, ht.freep, hn.ne']
  obtain ⟨hnext, hback, hsize⟩ | hnext := ht.list
  · rw [ht.freep, hnext]
    by_cases hs : n ≤ size h.mem r.ptr
    · refine ⟨_, exits_of_inr (r := some (k.base, r.ptr)) ?_, Or.inr ⟨rfl, hback, hs, hsize⟩⟩
      simp [searchBody, hs]
    · refine ⟨none, exits_of_inl (t := (r.ptr, k.base)) ?_ (exits_of_inr hstop), Or.inl rfl⟩
      simp [searchBody, hs, ht.freep, hne, hback]
  · rw [ht.freep, hnext]
    exact ⟨none, exits_of_inr hstop', Or.inl rfl⟩

def Recorded (k : Image) (h : Heap Traced) : Prop :=
  ∀ w ∈ h.mem.writes, w.1 ≠ k.base → k.Spared w.2 4

theorem Recorded.cons {h h' : Heap Traced} (hr : Recorded k h) {p a : ℕ}
    (hw : h'.mem.writes = (p, a) :: h.mem.writes) (ha : p ≠ k.base → k.Spared a 4) :
    Recorded k h' := by
  intro w hmem
  rw [hw] at hmem
  obtain rfl | hmem := List.mem_cons.mp hmem
  · exact ha
  · exact hr w hmem

theorem Image.Spared.words {a : ℕ} (h : k.Spared a blocksiz) :
    k.Spared a 4 ∧ k.Spared (a + 4) 4 := by
  refine ⟨h.mono (by decide), fun i hi => ?_⟩
  rw [Nat.add_assoc]
  exact h (4 + i) (Nat.add_lt_add_left hi 4)

theorem init_recorded (hb : Beside k r) {h : Heap Traced} (hr : Recorded k h) :
    Recorded k (mallocInit (arena k r) h) := by
  obtain ⟨hnext, hsize⟩ := (hb.2.mono (Nat.le_max_right _ _)).words
  intro w hw hbase
  have hwrites : (mallocInit (arena k r) h).mem.writes =
      (k.base, k.base + 4) :: (k.base, k.base) :: (r.ptr, r.ptr + 4) :: (r.ptr, r.ptr) ::
        h.mem.writes := rfl
  rw [hwrites] at hw
  simp only [List.mem_cons] at hw
  obtain rfl | rfl | rfl | rfl | hw := hw
  · exact absurd rfl hbase
  · exact absurd rfl hbase
  · exact hsize
  · exact hnext
  · exact hr w hw hbase

theorem carve_tailed (hb : Beside k r) {h : Heap Traced} (ht : Tailed k r h)
    (hr : Recorded k h) {n : ℕ} (hn : 0 < n) (hback : next h.mem r.ptr = k.base)
    (hle : n ≤ size h.mem r.ptr) (hsize : blocksiz * size h.mem r.ptr ≤ r.size) :
    k.Spared (carve h n k.base r.ptr).1 (blocksiz * n) ∧
      Tailed k r (carve h n k.base r.ptr).2 ∧ Recorded k (carve h n k.base r.ptr).2 := by
  have hblock : blocksiz = 8 := rfl
  have hbase := base_lt k
  have hshort := hb.short
  have hptr := hb.1
  have hregion : k.Spared r.ptr r.size := hb.2.mono (Nat.le_max_left _ _)
  rw [hblock] at hsize
  by_cases heq : size h.mem r.ptr = n
  · -- the whole of what is left
    have hcarve : carve h n k.base r.ptr = (r.ptr, ⟨setNext h.mem k.base k.base, k.base⟩) := by
      rw [carve, if_pos heq, hback]
    rw [hcarve]
    refine ⟨hregion.mono (by simp only [blocksiz]; omega), ⟨rfl, ?_, Or.inr ?_⟩,
      hr.cons rfl fun hne => absurd rfl hne⟩
    · rw [traced_words.size_setNext_of_apart _ _ (by omega)]
      exact ht.sizeBase
    · rw [traced_words.next_setNext, u32_eq hbase]
  · obtain ⟨j, hj⟩ : ∃ j, j = size h.mem r.ptr - n := ⟨_, rfl⟩
    obtain ⟨q, hq⟩ : ∃ q, q = u32 (r.ptr + blocksiz * j) := ⟨_, rfl⟩
    have hleft : size (setSize h.mem r.ptr j) r.ptr = j := by
      rw [traced_words.size_setSize, u32_eq (by omega)]
    have hcarve : carve h n k.base r.ptr =
        (q, ⟨setSize (setSize h.mem r.ptr j) q n, k.base⟩) := by
      simp only [carve, if_neg heq, ← hj, hleft, addUnits, ← hq]
    rw [hcarve]
    have hspared : k.Spared q (blocksiz * n) := by
      rw [hq]
      exact hregion.shift (by simp only [blocksiz]; omega)
    obtain ⟨-, hword⟩ := (hspared.mono (Nat.le_mul_of_pos_right blocksiz hn)).words
    obtain ⟨-, hfirst⟩ := (hb.2.mono (Nat.le_max_right _ _)).words
    have hqbase := hword.apart (by decide)
    have hpbase := hb.header
    -- the new Header is behind the first one, also where the addresses wrap
    have hpq : q + 8 ≤ r.ptr ∨ r.ptr + 8 ≤ q + 4 := by
      rw [hq, u32, hblock]
      omega
    rw [hblock] at hqbase hpbase
    refine ⟨hspared, ⟨rfl, ?_, ?_⟩, ?_⟩
    · rw [traced_words.size_setSize_of_apart _ _ (by omega),
        traced_words.size_setSize_of_apart _ _ (by omega)]
      exact ht.sizeBase
    · have hkeep : next (setSize (setSize h.mem r.ptr j) q n) k.base = next h.mem k.base := by
        rw [traced_words.next_setSize_of_apart _ _ (by omega),
          traced_words.next_setSize_of_apart _ _ (by omega)]
      obtain ⟨hnext, -⟩ | hnext := ht.list
      · refine Or.inl ⟨hkeep.trans hnext, ?_, ?_⟩
        · rw [traced_words.next_setSize_of_apart _ _ (by omega),
            traced_words.next_setSize_of_apart _ _ (by omega)]
          exact hback
        · rw [traced_words.size_setSize_of_apart _ _ (by omega), hleft, hblock]
          omega
      · exact Or.inr (hkeep.trans hnext)
    · have hr' : Recorded k ⟨setSize h.mem r.ptr j, k.base⟩ := hr.cons rfl fun _ => hfirst
      exact hr'.cons rfl fun _ => hword

end Cutting

section Runs

/-- Between calls nothing was set up yet, or the list is as malloc leaves it. -/
structure Sound (k : Image) (r : Region) (s : State) : Prop where
  safe : Safe k s
  list : s.searching = false → s.heap.freep = 0 ∨ Tailed k r s.heap

theorem ready_tailed (hb : Beside k r) {h : Heap Traced} (hh : h.freep = 0 ∨ Tailed k r h)
    (hr : Recorded k h) :
    Tailed k r (ready (arena k r) h) ∧ Recorded k (ready (arena k r) h) := by
  by_cases h0 : h.freep = 0
  · rw [ready, if_pos h0]
    exact ⟨init_tailed hb h, init_recorded hb hr⟩
  · rw [ready, if_neg h0]
    exact ⟨hh.resolve_left h0, hr⟩

theorem mallocBlock_sound (hb : Beside k r) {h h' : Heap Traced} {nbytes fuel : ℕ}
    {q : Option ℕ} (hh : h.freep = 0 ∨ Tailed k r h) (hr : Recorded k h)
    (hm : mallocBlock (arena k r) fuel h nbytes = some (q, h')) :
    (h'.freep = 0 ∨ Tailed k r h') ∧ Recorded k h' ∧
      ∀ p, q = some p → k.Spared p (blocksiz * blockAlign nbytes) := by
  unfold mallocBlock at hm
  by_cases h0 : nbytes = 0
  · rw [if_pos h0] at hm
    obtain ⟨rfl, rfl⟩ := Prod.mk.inj (Option.some.inj hm)
    exact ⟨hh, hr, nofun⟩
  · rw [if_neg h0] at hm
    obtain ⟨ht, hr'⟩ := ready_tailed hb hh hr
    have hpos := blockAlign_pos nbytes
    obtain ⟨found, he, hfound⟩ := ht.exits hb hpos
    obtain ⟨hq, hheap⟩ := FreeList.Search.unique ⟨fuel, hm⟩ (FreeList.search_of_exits he)
    obtain rfl | ⟨rfl, hback, hle, hsize⟩ := hfound
    · subst hq hheap
      exact ⟨Or.inr ht, hr', nofun⟩
    · obtain ⟨hspared, ht', hr''⟩ := carve_tailed hb ht hr' hpos hback hle hsize
      subst hq hheap
      refine ⟨Or.inr ht', hr'', fun p hp => ?_⟩
      obtain rfl := Option.some.inj hp
      exact hspared

theorem step_sound (hb : Beside k r) {s t : State} {n : ℕ} (hs : Sound k r s)
    (h : Step (arena k r) s n t) : Sound k r t := by
  cases h with
  | returns hm =>
    obtain ⟨⟨hblocks, hwrites⟩, hlist⟩ := hs
    obtain ⟨hlist', hwrites', hq⟩ := mallocBlock_sound hb (hlist rfl) hwrites hm
    refine ⟨⟨fun b hmem => ?_, hwrites'⟩, fun _ => hlist'⟩
    obtain hnew | hold := List.mem_append.mp hmem
    · obtain ⟨p, hp, rfl⟩ := Option.map_eq_some_iff.mp (Option.mem_toList.mp hnew)
      exact hq p hp
    · exact hblocks b hold
  | searches _ =>
    obtain ⟨⟨hblocks, hwrites⟩, hlist⟩ := hs
    obtain ⟨-, hwrites'⟩ := ready_tailed hb (hlist rfl) hwrites
    exact ⟨⟨hblocks, hwrites'⟩, nofun⟩

theorem start_sound (k : Image) (r : Region) (m : Mem) : Sound k r (start m) :=
  ⟨⟨nofun, nofun⟩, fun _ => Or.inl rfl⟩

theorem Beside.clear (hb : Beside k r) : Clear k r where
  region := hb.2.mono (Nat.le_max_left _ _)
  runs _ _ _ hrun :=
    (hrun.invariant (fun _ _ _ hs hst => step_sound hb hs hst) (start_sound k r _)).safe

theorem Clear.header (hc : Clear k r) (hne : r.ptr ≠ k.base) : k.Spared r.ptr blocksiz := by
  have hcall : mallocBlock (arena k r) 0 (⟨⟨fun _ => 0, []⟩, 0⟩ : Heap Traced) 1 = none := rfl
  have hstep : Step (arena k r) (start fun _ => 0) 1
      ⟨ready (arena k r) ⟨⟨fun _ => 0, []⟩, 0⟩, [], true⟩ := Step.searches hcall
  have hw := (hc.runs _ _ _ (Run.cons hstep (Run.nil _))).writes
  have hnext : k.Spared r.ptr 4 := hw (r.ptr, r.ptr) (by simp [ready, mallocInit, setNext, setSize,
    arena]) hne
  have hsize : k.Spared (r.ptr + 4) 4 := hw (r.ptr, r.ptr + 4) (by simp [ready, mallocInit, setNext,
    setSize, arena]) hne
  intro i hi
  by_cases hlow : i < 4
  · exact hnext i hlow
  · have hi' : i - 4 < 4 := by
      simp only [blocksiz] at hi
      omega
    have hcell := hsize (i - 4) hi'
    rwa [Nat.add_assoc, Nat.add_sub_cancel' (Nat.le_of_not_lt hlow)] at hcell

theorem arena_clear_iff (k : Image) (t : MemoryMap) :
    ∃ r, Initialises t.mem t.mmapAddr t.mmapLength r ∧ (Clear k r ↔ Harmless k t) := by
  refine ⟨_, t.initialises, fun hc e he => ?_, fun hh => ?_⟩
  · rw [he.picked] at hc
    have hregion : k.Spared (u32 e.addr) e.len := hc.region
    have hfirst := hregion 0 he.1
    rw [u32_add, Nat.add_zero] at hfirst
    have hne : u32 e.addr ≠ k.base := fun heq => hfirst (heq ▸ base_held k (j := 0) (by decide))
    have hheader : k.Spared (u32 e.addr) blocksiz := hc.header hne
    rw [← spared_u32]
    intro i hi
    by_cases hlen : i < e.len
    · exact hregion i hlen
    · exact hheader i (by omega)
  · refine Beside.clear ?_
    obtain hzero | ⟨e, he⟩ := longest_cases t.visited
    · -- nothing was found: the Header is written to address 0
      rw [pick_none fun x hx => Nat.le_of_eq (hzero x hx)]
      refine ⟨by decide, fun i hi hheld => ?_⟩
      have hlow : i < 8 := hi
      have hge := hheld.1
      simp only [unset, u32] at hge
      omega
    · rw [he.picked]
      exact ⟨Nat.mod_lt _ (by decide), spared_u32.mpr (hh e he)⟩

def usualMem : Mem := fun a =>
  ([20, 0, 0, 0, 0, 0, 0, 0, 0, 0, 0, 0, 0x00, 0xFC, 0x09, 0, 0, 0, 0, 0, 1, 0, 0, 0,
    20, 0, 0, 0, 0, 0, 0x10, 0, 0, 0, 0, 0, 0, 0, 0xF0, 0x07, 0, 0, 0, 0, 1, 0, 0, 0] :
    List UInt8).getD (a - 0x8000) 0

def usualMap : MemoryMap where
  mem := usualMem
  mmapAddr := 0x8000
  mmapLength := 48
  entries := [entryAt usualMem 0x8000, entryAt usualMem 0x8018]
  laid := Laid.cons (by decide) (Laid.cons (by decide) (Laid.nil _))
  fits := by decide

theorem arena_holds_kernel :
    ∃ k t r, Image.Available k t ∧ Initialises t.mem t.mmapAddr t.mmapLength r ∧ ¬Clear k r := by
  have hpicked : usualMap.visited.foldl pick unset = ⟨0x100000, 0x7F00000⟩ := by decide
  refine ⟨⟨0x120000, 0x130000, by decide, by decide, by decide⟩, usualMap, _, ?_,
    usualMap.initialises, fun hc => ?_⟩
  · exact ⟨entryAt usualMem 0x8018, List.mem_cons_of_mem _ List.mem_cons_self, by decide⟩
  · rw [hpicked] at hc
    exact hc.region 0 (by decide) (by decide)

end Runs

end Jiauliyan.KernelImage
