import Jiauliyan.HeapSafety

namespace Jiauliyan.MallocSize

open Jiauliyan.Execution Jiauliyan.Memory Jiauliyan.Malloc Jiauliyan.Malloc.HeaderMemory
open Jiauliyan.Ring Jiauliyan.FreeList Jiauliyan.HeapSafety

/-- The circular list of `base` and the free blocks `l`, by the Headers in memory. -/
structure FreeBlocks (A : Arena) (h : Heap Mem) (l : List ℕ) : Prop where
  ring : IsRing (next h.mem) (A.base :: l)
  freep : h.freep ∈ A.base :: l
  freep_ne : h.freep ≠ 0
  apart : (A.base :: l).Pairwise fun p q => p + blocksiz ≤ q ∨ q + blocksiz ≤ p
  baseSize : size h.mem A.base = 0
  fits : ∀ p ∈ l, p + blocksiz * size h.mem p ≤ 4294967296

def ready (A : Arena) (h : Heap Mem) : Heap Mem := if h.freep = 0 then mallocInit A h else h

/-- A heap before its first call, or with a free list. -/
structure FreeState where
  arena : Arena
  heap : Heap Mem
  blocks : List ℕ
  formed : (heap.freep = 0 ∧ Arena.Separate arena ∧ blocks = [arena.memloc]) ∨
    FreeBlocks arena heap blocks

def FreeState.size (s : FreeState) (p : ℕ) : ℕ := HeaderMemory.size (ready s.arena s.heap).mem p

/-- A request for some bytes gets a block with room for them and a Header, or NULL exactly
when no free block has that room. -/
def SizedRight (s : FreeState) (nbytes : ℕ) : Prop :=
  0 < nbytes → ∃ fuel r h', mallocBlock s.arena fuel s.heap nbytes = some (r, h') ∧
    (∀ p, r = some p → nbytes + blocksiz ≤ blocksiz * size h'.mem p) ∧
    (r = none ↔ ∀ p ∈ s.blocks, blocksiz * s.size p < nbytes + blocksiz)

variable {A : Arena} {h : Heap Mem} {l : List ℕ} {n : ℕ}

theorem FreeBlocks.nodup (hf : FreeBlocks A h l) : (A.base :: l).Nodup := by
  refine hf.apart.imp fun hpq => ?_
  simp only [blocksiz] at hpq
  omega

theorem ready_formed (s : FreeState) : FreeBlocks s.arena (ready s.arena s.heap) s.blocks := by
  obtain ⟨h0, hA, hl⟩ | hf := s.formed
  · have hw := whole_init hA.toApart s.heap
    have hfits := hA.fits
    have hap := hA.apart
    rw [ready, if_pos h0, hl]
    refine ⟨?_, ?_, ?_, ?_, hw.sizeBase, ?_⟩
    · rw [isRing_cons, List.map_cons, List.map_singleton, hw.nextBase, hw.nextArena]
      rfl
    · rw [hw.freep]
      exact List.mem_cons_self
    · rw [hw.freep]
      exact hA.base_ne
    · refine List.pairwise_pair.mpr ?_
      obtain hlow | hhigh := hap
      · exact .inl hlow
      · exact .inr hhigh
    · intro p hp
      rw [List.mem_singleton.mp hp, hw.sizeArena]
      exact hfits
  · rw [ready, if_neg hf.freep_ne]
    exact hf

theorem carve_size (hn : n < 4294967296) {a p : ℕ} (hap : p + blocksiz ≤ a ∨ a ≤ p) :
    size (carve h n a p).2.mem (carve h n a p).1 = n := by
  by_cases he : size h.mem p = n
  · rw [carve, if_pos he]
    refine (mem_words.size_setNext_of_apart h.mem _ ?_).trans he
    simp only [blocksiz] at hap
    omega
  · rw [carve, if_neg he]
    exact (mem_words.size_setSize _ _ n).trans (u32_eq hn)

/-- The search for some units ends with a block of just as many, or with none where every
block is smaller. -/
theorem search_sized (hf : FreeBlocks A h l) (h0 : 0 < n) (hn : n < 4294967296) :
    ∃ fuel r h', mallocSearch fuel h n = some (r, h') ∧ (∀ p, r = some p → size h'.mem p = n) ∧
      (r = none ↔ ∀ p ∈ l, size h.mem p < n) := by
  obtain ⟨he, hall⟩ | ⟨a, ha, hsz, he⟩ := ring_search hf.ring hf.nodup hf.freep
  · obtain ⟨fuel, hs⟩ := search_of_exits he
    refine ⟨fuel, none, h, hs, fun p hp => absurd hp (by simp), ?_⟩
    exact iff_of_true rfl fun p hp => hall p (List.mem_cons_of_mem _ hp)
  · obtain ⟨fuel, hs⟩ := search_of_exits he
    have hmem := hf.ring.next_mem ha
    have hl : next h.mem a ∈ l := by
      refine (List.mem_cons.mp hmem).resolve_left fun hb => ?_
      rw [hb, hf.baseSize] at hsz
      omega
    have hap : next h.mem a + blocksiz ≤ a ∨ a ≤ next h.mem a := by
      by_cases hne : a = next h.mem a
      · exact .inr hne.le
      · have hsym : Std.Symm fun p q => p + blocksiz ≤ q ∨ q + blocksiz ≤ p := ⟨fun _ _ => Or.symm⟩
        obtain hlow | hhigh := hf.apart.forall ha hmem hne
        · exact .inr (by omega)
        · exact .inl hhigh
    refine ⟨fuel, _, _, hs, fun p hp => ?_, ?_⟩
    · rw [← Option.some.inj hp]
      exact carve_size hn hap
    · refine iff_of_false (by simp) fun hall => ?_
      have hlt := hall _ hl
      omega

theorem mallocBlock_sized (s : FreeState) {nbytes : ℕ} (h0 : nbytes ≠ 0) :
    ∃ fuel r h', mallocBlock s.arena fuel s.heap nbytes = some (r, h') ∧
      (∀ p, r = some p → size h'.mem p = blockAlign nbytes) ∧
      (r = none ↔ ∀ p ∈ s.blocks, s.size p < blockAlign nbytes) := by
  obtain ⟨fuel, r, h', hs, hsize, hnone⟩ :=
    search_sized (ready_formed s) (blockAlign_pos nbytes) (Nat.mod_lt _ (by decide))
  refine ⟨fuel, r, h', ?_, hsize, hnone⟩
  rw [mallocBlock, if_neg h0]
  exact hs

theorem blockAlign_exact {nbytes : ℕ} (h0 : 0 < nbytes) (h : nbytes + 7 < 4294967296) :
    nbytes + blocksiz ≤ blocksiz * blockAlign nbytes ∧
      ∀ k, k < blockAlign nbytes ↔ blocksiz * k < nbytes + blocksiz := by
  have hsum : u32 (nbytes + 8 - 1) = nbytes + 7 := u32_eq h
  have hu : blockAlign nbytes = (nbytes + 7) / 8 + 1 := by
    rw [blockAlign, blocksiz, hsum]
    exact u32_eq (by omega)
  rw [hu]
  simp only [blocksiz]
  exact ⟨by omega, fun k => by omega⟩

theorem blockAlign_wrapped {nbytes : ℕ} (hn : nbytes < 4294967296) (h : 4294967296 ≤ nbytes + 7) :
    blockAlign nbytes = 1 := by
  have hsum : u32 (nbytes + 8 - 1) = nbytes + 7 - 4294967296 := by
    rw [u32]
    omega
  rw [blockAlign, blocksiz, hsum, Nat.div_eq_of_lt (by omega)]
  rfl

theorem too_large (s : FreeState) {nbytes : ℕ} (h : 4294967296 ≤ nbytes + 7) :
    ∀ p ∈ s.blocks, blocksiz * s.size p < nbytes + blocksiz := by
  intro p hp
  have hfits := (ready_formed s).fits p hp
  rw [FreeState.size]
  simp only [blocksiz] at *
  omega

theorem wrapped_small (s : FreeState) {nbytes p : ℕ} (hn : nbytes < 4294967296)
    (hw : 4294967296 ≤ nbytes + 7) (hp : p ∈ s.blocks) (hsize : s.size p ≠ 0) :
    ¬SizedRight s nbytes := by
  intro h
  obtain ⟨fuel, r, h', hr, -, hnone⟩ := h (by omega)
  obtain ⟨fuel', r', h'', hr', -, hnone'⟩ := mallocBlock_sized s (by omega : nbytes ≠ 0)
  obtain ⟨rfl, rfl⟩ := Prod.mk.inj (mallocBlock_unique hr hr')
  have hsmall := hnone'.mp (hnone.mpr (too_large s hw)) p hp
  rw [blockAlign_wrapped hn hw] at hsmall
  omega

/-- Allocation sizes are right up to the top of the range, and there as long as the free list
holds no unit. -/
theorem sized_right_iff (s : FreeState) (nbytes : UInt32) :
    SizedRight s nbytes.toNat ↔
      nbytes.toNat + 7 < 4294967296 ∨ ∀ p ∈ s.blocks, s.size p = 0 := by
  have hn : nbytes.toNat < 4294967296 := nbytes.toNat_lt
  refine ⟨fun h => ?_, fun h h0 => ?_⟩
  · by_contra hcon
    rw [not_or, not_forall] at hcon
    obtain ⟨hw, p, hp⟩ := hcon
    rw [not_forall] at hp
    obtain ⟨hp, hsize⟩ := hp
    exact wrapped_small s hn (by omega) hp hsize h
  · obtain ⟨fuel, r, h', hr, hsize, hnone⟩ := mallocBlock_sized s (Nat.ne_of_gt h0)
    refine ⟨fuel, r, h', hr, ?_⟩
    obtain hlt | hge := Nat.lt_or_ge (nbytes.toNat + 7) 4294967296
    · obtain ⟨hroom, hexact⟩ := blockAlign_exact h0 hlt
      refine ⟨fun p hp => ?_, ?_⟩
      · rw [hsize p hp]
        exact hroom
      · simp only [hnone, hexact]
    · -- nothing is found, and nothing would have been large enough
      have hzero := h.resolve_left (by omega)
      have hr0 : r = none := hnone.mpr fun p hp => hzero p hp ▸ blockAlign_pos _
      exact ⟨fun p hp => absurd (hr0.symm.trans hp) (by simp),
        iff_of_true hr0 (too_large s hge)⟩

def freshState : FreeState :=
  ⟨HeapSafety.sampleArena, ⟨fun _ => 0, 0⟩, [HeapSafety.sampleArena.memloc],
    .inl ⟨rfl, sampleArena_separate, rfl⟩⟩

/-- Almost 4 GiB are asked for, and a block of one unit is handed out. -/
theorem wrapped_request : ∃ s, ∃ nbytes : UInt32, ¬SizedRight s nbytes.toNat :=
  ⟨freshState, 4294967295, wrapped_small freshState (by decide) (by decide)
    (List.mem_singleton.mpr rfl) (by decide)⟩

end Jiauliyan.MallocSize
