import Jiauliyan.Malloc
import Jiauliyan.Ring
import Jiauliyan.Tiling

namespace Jiauliyan.FreeList

open Jiauliyan.Execution Jiauliyan.Memory Jiauliyan.Malloc Jiauliyan.Malloc.HeaderMemory
open Jiauliyan.Ring Jiauliyan.Tiling

structure Header where
  next : ℕ
  size : ℕ

/-- Memory seen as the Headers it holds, one to an address. -/
abbrev HeaderMap := ℕ → Header

instance : HeaderMemory HeaderMap where
  next m p := (m p).next
  size m p := (m p).size
  setNext m p v := Function.update m p ⟨v, (m p).size⟩
  setSize m p v := Function.update m p ⟨(m p).next, v⟩

theorem next_setNext (m : HeaderMap) (p v : ℕ) :
    next (setNext m p v) = Function.update (next m) p v := by
  funext x
  by_cases h : x = p
  · subst h; simp [next, setNext]
  · simp [next, setNext, h]

theorem size_setSize (m : HeaderMap) (p v : ℕ) :
    size (setSize m p v) = Function.update (size m) p v := by
  funext x
  by_cases h : x = p
  · subst h; simp [size, setSize]
  · simp [size, setSize, h]

@[simp] theorem next_setSize (m : HeaderMap) (p v : ℕ) : next (setSize m p v) = next m := by
  funext x
  by_cases h : x = p
  · subst h; simp [next, setSize]
  · simp [next, setSize, h]

@[simp] theorem size_setNext (m : HeaderMap) (p v : ℕ) : size (setNext m p v) = size m := by
  funext x
  by_cases h : x = p
  · subst h; simp [size, setNext]
  · simp [size, setNext, h]

/-- The interval of the arena lies in the 32-bit address space, and `base`
is an object outside the closed interval. -/
structure Arena.Outside (A : Arena) : Prop where
  fits : A.fin ≤ 4294967296
  base_lt : A.base < 4294967296
  base_ne : A.base ≠ 0
  outside : A.base < A.memloc ∨ A.fin < A.base

/-- The heap holds exactly the blocks `ts`: they tile the arena, and the free
ones with `base` in front form the circular list. -/
structure Represents (A : Arena) (h : Heap HeaderMap) (ts : List Tile) : Prop where
  tiles : Tiles blocksiz A.memloc ts A.fin
  room : (∀ t ∈ ts, 0 < t.size) ∨ ∃ t, ts = [t] ∧ t.free = true
  sizes : ∀ t ∈ ts, size h.mem t.addr = t.size
  ring : IsRing (next h.mem) (A.base :: freeAddrs ts)
  baseSize : size h.mem A.base = 0
  freep : h.freep ∈ A.base :: freeAddrs ts
  apart : Apart ts

section Blocks

variable {A : Arena} {h : Heap HeaderMap} {ts : List Tile}

theorem Represents.sorted (hr : Represents A h ts) : (addrs ts).Pairwise (· < ·) := by
  obtain hp | ⟨t, rfl, _⟩ := hr.room
  · exact hr.tiles.sorted (by decide) hp
  · exact List.pairwise_singleton _ _

theorem Represents.base_notMem (hA : Arena.Outside A) (hr : Represents A h ts) :
    A.base ∉ addrs ts := by
  intro hm
  obtain ⟨t, ht, he⟩ := mem_addrs.mp hm
  have hb := hr.tiles.bounds ht
  obtain ho | ho := hA.outside <;> omega

theorem Represents.nodup (hA : Arena.Outside A) (hr : Represents A h ts) :
    (A.base :: addrs ts).Nodup :=
  List.nodup_cons.mpr ⟨hr.base_notMem hA, hr.sorted.imp Nat.ne_of_lt⟩

theorem Represents.ring_nodup (hA : Arena.Outside A) (hr : Represents A h ts) :
    (A.base :: freeAddrs ts).Nodup :=
  (hr.nodup hA).sublist (freeAddrs_sublist.cons_cons _)

theorem Represents.positive (hr : Represents A h ts) {t : Tile} (ht : t ∈ ts) (h0 : 0 < t.size) :
    ∀ s ∈ ts, 0 < s.size := by
  obtain hp | ⟨u, rfl, _⟩ := hr.room
  · exact hp
  · intro s hs
    rw [List.mem_singleton.mp hs, ← List.mem_singleton.mp ht]
    exact h0

end Blocks

section Search

variable {M : Type} [HeaderMemory M]

/-- The call of malloc's search ends, with this result and this heap. -/
def Search (h : Heap M) (nunits : ℕ) (r : Option ℕ) (h' : Heap M) : Prop :=
  ∃ fuel, mallocSearch fuel h nunits = some (r, h')

/-- The call of free's insertion ends in this heap. -/
def Insert (h : Heap M) (bp : ℕ) (h' : Heap M) : Prop := ∃ fuel, freeInsert fuel h bp = some h'

theorem search_of_exits {h : Heap M} {n : ℕ} {r : Option (ℕ × ℕ)}
    (he : Exits (searchBody h n) (h.freep, next h.mem h.freep) r) :
    Search h n (r.map fun q => (carve h n q.1 q.2).1)
      (r.elim h fun q => (carve h n q.1 q.2).2) := by
  obtain ⟨fuel, hf⟩ := he
  refine ⟨fuel, ?_⟩
  rw [mallocSearch, hf]
  cases r <;> rfl

theorem Search.unique {h h₁ h₂ : Heap M} {n : ℕ} {r₁ r₂ : Option ℕ}
    (he₁ : Search h n r₁ h₁) (he₂ : Search h n r₂ h₂) : r₁ = r₂ ∧ h₁ = h₂ := by
  obtain ⟨k, hk⟩ := he₁
  obtain ⟨l, hl⟩ := he₂
  rw [mallocSearch] at hk hl
  exact Prod.mk.inj (loop_map_unique hk hl)

theorem mallocBlock_unique {A : Arena} {h : Heap M} {nbytes k l : ℕ}
    {r r' : Option ℕ × Heap M} (hk : mallocBlock A k h nbytes = some r)
    (hl : mallocBlock A l h nbytes = some r') : r = r' := by
  by_cases h0 : nbytes = 0
  · rw [mallocBlock, if_pos h0] at hk hl
    exact Option.some.inj (hk.symm.trans hl)
  · rw [mallocBlock, if_neg h0] at hk hl
    obtain ⟨hr, hh⟩ := Search.unique ⟨k, hk⟩ ⟨l, hl⟩
    exact Prod.ext hr hh

theorem Insert.unique {h h₁ h₂ : Heap M} {bp : ℕ} (he₁ : Insert h bp h₁) (he₂ : Insert h bp h₂) :
    h₁ = h₂ := by
  obtain ⟨k, hk⟩ := he₁
  obtain ⟨l, hl⟩ := he₂
  rw [freeInsert] at hk hl
  exact loop_map_unique hk hl

/-- The search from `prevp` along a chain that ends at `freep` stops at the
first block that is large enough, or at `freep`. -/
theorem search_exits {h : Heap M} {n : ℕ} {prevp : ℕ} {l : List ℕ}
    (hc : List.IsChain (fun a b => next h.mem a = b) (prevp :: l ++ [h.freep]))
    (hl : h.freep ∉ l) :
    (Exits (searchBody h n) (prevp, next h.mem prevp) none ∧
      ∀ q ∈ l ++ [h.freep], size h.mem q < n) ∨
    ∃ a ∈ prevp :: l, n ≤ size h.mem (next h.mem a) ∧
      Exits (searchBody h n) (prevp, next h.mem prevp) (some (a, next h.mem a)) := by
  induction l generalizing prevp with
  | nil =>
    have hn : next h.mem prevp = h.freep := by simpa using hc
    by_cases hs : n ≤ size h.mem h.freep
    · exact .inr ⟨prevp, List.mem_cons_self, by rw [hn]; exact hs,
        exits_of_inr (by simp [searchBody, hn, hs])⟩
    · exact .inl ⟨exits_of_inr (by simp [searchBody, hn, hs]), by simpa using hs⟩
  | cons w l ih =>
    obtain ⟨hn, ht⟩ := List.isChain_cons_cons.mp hc
    have hw : w ≠ h.freep := fun he => hl (he ▸ List.mem_cons_self)
    by_cases hs : n ≤ size h.mem w
    · exact .inr ⟨prevp, List.mem_cons_self, by rw [hn]; exact hs,
        exits_of_inr (by simp [searchBody, hn, hs])⟩
    · have hb : searchBody h n (prevp, next h.mem prevp) = .inl (w, next h.mem w) := by
        simp [searchBody, hn, hs, hw]
      obtain ⟨he, ha⟩ | ⟨a, ha, hna, he⟩ := ih ht (fun hm => hl (List.mem_cons_of_mem _ hm))
      · refine .inl ⟨exits_of_inl hb he, ?_⟩
        intro q hq
        obtain rfl | hq := List.mem_cons.mp hq
        · exact Nat.lt_of_not_le hs
        · exact ha q hq
      · exact .inr ⟨a, List.mem_cons_of_mem _ ha, hna, exits_of_inl hb he⟩

theorem ring_search {h : Heap M} {n : ℕ} {l : List ℕ} (hr : IsRing (next h.mem) l)
    (hn : l.Nodup) (hf : h.freep ∈ l) :
    (Exits (searchBody h n) (h.freep, next h.mem h.freep) none ∧ ∀ q ∈ l, size h.mem q < n) ∨
    ∃ a ∈ l, n ≤ size h.mem (next h.mem a) ∧
      Exits (searchBody h n) (h.freep, next h.mem h.freep) (some (a, next h.mem a)) := by
  obtain ⟨m, hrot, hc⟩ := hr.chain_from hf
  have hm : h.freep ∉ m := (List.nodup_cons.mp (hrot.nodup_iff.mpr hn)).1
  obtain ⟨he, ha⟩ | ⟨a, ha, hna, he⟩ := search_exits hc hm
  · refine .inl ⟨he, fun q hq => ha q ?_⟩
    have hq' := hrot.mem_iff.mpr hq
    simp only [List.mem_cons, List.mem_append] at hq' ⊢
    tauto
  · exact .inr ⟨a, hrot.mem_iff.mp ha, hna, he⟩

end Search

end Jiauliyan.FreeList
