import Jiauliyan.Coalescing

namespace Jiauliyan.FreeList

open Jiauliyan.Execution Jiauliyan.Memory Jiauliyan.Malloc Jiauliyan.Malloc.HeaderMemory
open Jiauliyan.Ring Jiauliyan.Tiling

/-- The allocator's memory, with the Headers of the carved blocks on record. -/
structure State where
  heap : Heap HeaderMap
  carved : List ℕ

inductive Op where
  | malloc (nbytes : ℕ)
  | free (bp : ℕ)
  | write (p : ℕ) (v : Header)

/-- One operation at header level. A `write` is what the program may do to any
memory off the free list: it keeps the size fields of the carved blocks. -/
inductive Step : State → Op → State → Prop
  | malloc_null {s : State} {nbytes : ℕ} {h' : Heap HeaderMap} :
      0 < nbytes → nbytes ≤ 4294967295 - blocksiz →
      Search s.heap (blockAlign nbytes) none h' → Step s (.malloc nbytes) ⟨h', s.carved⟩
  | malloc_some {s : State} {nbytes p : ℕ} {h' : Heap HeaderMap} :
      0 < nbytes → nbytes ≤ 4294967295 - blocksiz →
      Search s.heap (blockAlign nbytes) (some p) h' → Step s (.malloc nbytes) ⟨h', p :: s.carved⟩
  | free {s : State} {bp : ℕ} {h' : Heap HeaderMap} :
      bp ∈ s.carved → Insert s.heap bp h' → Step s (.free bp) ⟨h', s.carved.erase bp⟩
  | write {s : State} {p : ℕ} {v : Header} :
      (∀ ns, IsRing (next s.heap.mem) ns → s.heap.freep ∈ ns → p ∉ ns) →
      (p ∈ s.carved → v.size = size s.heap.mem p) →
      Step s (.write p v) ⟨⟨Function.update s.heap.mem p v, s.heap.freep⟩, s.carved⟩

def start (A : Arena) (m : HeaderMap) : State := ⟨mallocInit A ⟨m, 0⟩, []⟩

def blocks (A : Arena) (s : State) (ns : List ℕ) : List ℕ := ns.erase A.base ++ s.carved

/-- The list read off from `freep` is `ns`, and with the carved blocks it
accounts for the whole arena. -/
structure Conserved (A : Arena) (s : State) (ns : List ℕ) : Prop where
  head : ns.head? = some s.heap.freep
  circular : IsRing (next s.heap.mem) ns
  base_mem : A.base ∈ ns
  sorted : ∃ k, (ns.rotate k).Pairwise (· < ·)
  wrap : ∃! x, x ∈ ns ∧ next s.heap.mem x ≤ x
  nodup : (blocks A s ns).Nodup
  inside : ∀ b ∈ blocks A s ns, A.memloc ≤ b ∧ b + blocksiz * size s.heap.mem b ≤ A.fin
  partition : ∀ u < A.allocsiz, ∃! b, b ∈ blocks A s ns ∧ b ≤ A.memloc + blocksiz * u ∧
    A.memloc + blocksiz * u < b + blocksiz * size s.heap.mem b
  units : ((blocks A s ns).map (size s.heap.mem)).sum = A.allocsiz
  apart : ∀ a ∈ ns.erase A.base, ∀ b ∈ ns.erase A.base, a ≠ b →
    a + blocksiz * size s.heap.mem a ≠ b

/-- The invariant of the runs: some tiling is represented, and its taken tiles
are the carved blocks. -/
def Good (A : Arena) (s : State) : Prop :=
  ∃ ts, Represents A s.heap ts ∧ s.carved.Perm (takenAddrs ts)

variable {A : Arena} {s : State}

theorem good_start (hA : Arena.Outside A) (m : HeaderMap) : Good A (start A m) := by
  have hfit := hA.fits
  have hne : A.memloc ≠ A.base := by
    have ho := hA.outside
    unfold Arena.fin at ho
    omega
  have hsz : u32 A.allocsiz = A.allocsiz := by
    refine u32_eq ?_
    simp only [Arena.fin, blocksiz] at hfit
    omega
  refine ⟨[⟨A.memloc, A.allocsiz, true⟩], ⟨⟨rfl, rfl⟩, .inr ⟨_, rfl, rfl⟩, ?_, ?_, ?_, ?_, ?_⟩,
    List.Perm.refl _⟩
  · intro t ht
    obtain rfl := List.mem_singleton.mp ht
    simp [start, mallocInit, size_setSize, hne, hsz]
  · rw [freeAddrs_cons, if_pos rfl, freeAddrs_nil, isRing_cons]
    simp [start, mallocInit, next_setNext, hne]
  · simp [start, mallocInit, size_setSize]
  · exact List.mem_cons_self
  · exact List.IsChain.singleton _

theorem taken_positive {ts : List Tile} (hr : Represents A s.heap ts) {t : Tile} (ht : t ∈ ts)
    (hf : t.free = false) : 0 < t.size := by
  obtain hp | ⟨u, rfl, hu⟩ := hr.room
  · exact hp t ht
  · rw [List.mem_singleton.mp ht, hu] at hf
    exact absurd hf (by decide)

/-- A write off the list that keeps the sizes of the taken blocks changes
nothing the representation reads. -/
theorem write_represents {ts : List Tile} (hr : Represents A s.heap ts)
    {p : ℕ} {v : Header} (hp : p ∉ A.base :: freeAddrs ts)
    (hv : p ∈ takenAddrs ts → v.size = size s.heap.mem p) :
    Represents A ⟨Function.update s.heap.mem p v, s.heap.freep⟩ ts := by
  have hnext : ∀ x, x ≠ p → next (Function.update s.heap.mem p v) x = next s.heap.mem x := by
    intro x hx
    simp [next, hx]
  have hsize : ∀ x, x ≠ p → size (Function.update s.heap.mem p v) x = size s.heap.mem x := by
    intro x hx
    simp [size, hx]
  refine ⟨hr.tiles, hr.room, ?_, ?_, ?_, hr.freep, hr.apart⟩
  · intro t ht
    by_cases htp : t.addr = p
    · have hf : t.free = false := by
        by_contra hc
        exact hp (List.mem_cons_of_mem _ (mem_freeAddrs.mpr ⟨t, ht, by simpa using hc, htp⟩))
      have hvs := hv (mem_takenAddrs.mpr ⟨t, ht, hf, htp⟩)
      rw [← hr.sizes t ht, htp, ← hvs]
      simp [size]
    · exact (hsize _ htp).trans (hr.sizes t ht)
  · exact hr.ring.congr fun x hx => hnext x fun he => hp (he ▸ hx)
  · rw [hsize _ fun he => hp (he ▸ List.mem_cons_self)]
    exact hr.baseSize

theorem good_step (hA : Arena.Outside A) {o : Op} {s' : State} (hg : Good A s)
    (hs : Step s o s') : Good A s' := by
  obtain ⟨ts, hr, hc⟩ := hg
  cases hs with
  | malloc_null _ _ he =>
    obtain ⟨he', _⟩ | ⟨p, h', ts', he', _⟩ := search_represents hA hr (blockAlign_pos _)
    · obtain ⟨_, rfl⟩ := he.unique he'
      exact ⟨ts, hr, hc⟩
    · exact absurd (he.unique he').1 (by simp)
  | malloc_some _ _ he =>
    obtain ⟨he', _⟩ | ⟨p, h', ts', he', _, hr', ht⟩ := search_represents hA hr (blockAlign_pos _)
    · exact absurd (he.unique he').1 (by simp)
    · obtain ⟨hp, rfl⟩ := he.unique he'
      obtain rfl := Option.some.inj hp
      exact ⟨ts', hr', (hc.cons _).trans ht.symm⟩
  | free hb he =>
    obtain ⟨t, ht, hf, rfl⟩ := mem_takenAddrs.mp (hc.mem_iff.mp hb)
    obtain ⟨T₁, T₂, rfl⟩ := List.append_of_mem ht
    obtain ⟨h', ts', he', hr', htk⟩ := insert_represents hA hr hf (taken_positive hr ht hf)
    obtain rfl := he.unique he'
    refine ⟨ts', hr', ?_⟩
    have hce := hc.erase t.addr
    rw [takenAddrs_append, takenAddrs_cons, if_neg (by simp [hf])] at hce
    rw [htk]
    exact hce.trans ((List.perm_middle.erase _).trans (by simp))
  | write hp hv =>
    have hp' := hp _ hr.ring hr.freep
    exact ⟨ts, write_represents hr hp' fun hm => hv (hc.mem_iff.mpr hm), hc⟩

theorem Represents.sorted_ring (hA : Arena.Outside A) {h : Heap HeaderMap} {ts : List Tile}
    (hr : Represents A h ts) :
    ∃ l, l ~r A.base :: freeAddrs ts ∧ l.Pairwise (· < ·) := by
  have hs : (freeAddrs ts).Pairwise (· < ·) := hr.sorted.sublist freeAddrs_sublist
  have hb : ∀ x ∈ freeAddrs ts, A.memloc ≤ x ∧ x ≤ A.fin := by
    intro x hx
    obtain ⟨t, ht, _, rfl⟩ := mem_freeAddrs.mp hx
    have hbt := hr.tiles.bounds ht
    omega
  obtain ho | ho := hA.outside
  · refine ⟨_, List.IsRotated.refl _, List.pairwise_cons.mpr ⟨fun x hx => ?_, hs⟩⟩
    have hbx := hb x hx
    omega
  · refine ⟨freeAddrs ts ++ [A.base], List.isRotated_concat _ _, ?_⟩
    refine List.pairwise_append.mpr ⟨hs, List.pairwise_singleton _ _, fun x hx y hy => ?_⟩
    have hbx := hb x hx
    rw [List.mem_singleton.mp hy]
    omega

theorem blocks_perm {ts : List Tile} {ns : List ℕ} (hns : ns ~r A.base :: freeAddrs ts)
    (hc : s.carved.Perm (takenAddrs ts)) : (blocks A s ns).Perm (addrs ts) := by
  have he : (ns.erase A.base).Perm (freeAddrs ts) := by
    simpa using hns.perm.erase A.base
  exact (he.append hc).trans free_append_taken_perm

theorem mem_blocks {ts : List Tile} {ns : List ℕ} (hr : Represents A s.heap ts)
    (hp : (blocks A s ns).Perm (addrs ts)) {b : ℕ} :
    b ∈ blocks A s ns ↔ ∃ t ∈ ts, t.addr = b ∧ size s.heap.mem b = t.size := by
  rw [hp.mem_iff, mem_addrs]
  constructor
  · rintro ⟨t, ht, rfl⟩
    exact ⟨t, ht, rfl, hr.sizes t ht⟩
  · rintro ⟨t, ht, hb, _⟩
    exact ⟨t, ht, hb⟩

theorem blocks_units {ts : List Tile} {ns : List ℕ} (hr : Represents A s.heap ts)
    (hp : (blocks A s ns).Perm (addrs ts)) :
    ((blocks A s ns).map (size s.heap.mem)).sum = A.allocsiz := by
  have hm : (addrs ts).map (size s.heap.mem) = ts.map Tile.size := by
    rw [addrs, List.map_map]
    exact List.map_congr_left hr.sizes
  rw [(hp.map _).sum_nat, hm]
  have hsum := hr.tiles.sum
  simp only [Arena.fin, blocksiz] at hsum
  omega

theorem blocks_partition {ts : List Tile} {ns : List ℕ} (hr : Represents A s.heap ts)
    (hp : (blocks A s ns).Perm (addrs ts)) {u : ℕ} (hu : u < A.allocsiz) :
    ∃! b, b ∈ blocks A s ns ∧ b ≤ A.memloc + blocksiz * u ∧
      A.memloc + blocksiz * u < b + blocksiz * size s.heap.mem b := by
  obtain ⟨t, ⟨ht, hle, hlt⟩, huniq⟩ :=
    hr.tiles.cover (x := A.memloc + blocksiz * u) (Nat.le_add_right _ _)
      (by simp only [Arena.fin, blocksiz]; omega)
  refine ⟨t.addr, ⟨(mem_blocks hr hp).mpr ⟨t, ht, rfl, hr.sizes t ht⟩, hle, ?_⟩, ?_⟩
  · show _ < t.addr + blocksiz * size s.heap.mem t.addr
    rw [hr.sizes t ht]
    exact hlt
  · rintro b ⟨hb, hble, hblt⟩
    obtain ⟨t', ht', rfl, hsz⟩ := (mem_blocks hr hp).mp hb
    rw [hsz] at hblt
    rw [huniq t' ⟨ht', hble, hblt⟩]

theorem free_apart {ts : List Tile} (hr : Represents A s.heap ts) {a b : ℕ}
    (ha : a ∈ freeAddrs ts) (hb : b ∈ freeAddrs ts) (hab : a ≠ b) :
    a + blocksiz * size s.heap.mem a ≠ b := by
  intro he
  obtain ⟨t, ht, htf, rfl⟩ := mem_freeAddrs.mp ha
  obtain ⟨v, hv, hvf, rfl⟩ := mem_freeAddrs.mp hb
  rw [hr.sizes t ht] at he
  obtain hp | ⟨u, rfl, _⟩ := hr.room
  · obtain ⟨T₁, T₂, rfl⟩ := List.append_of_mem ht
    have hh := hr.tiles.neighbour (by decide) hp hv he
    have hap := ((apart_append_cons.mp hr.apart).2.2 htf).2 v hh
    rw [hvf] at hap
    exact absurd hap (by decide)
  · rw [List.mem_singleton.mp ht, List.mem_singleton.mp hv] at hab
    exact hab rfl

theorem Represents.conserved (hA : Arena.Outside A) {ts : List Tile}
    (hr : Represents A s.heap ts) (hc : s.carved.Perm (takenAddrs ts)) :
    ∃ ns, ns ~r A.base :: freeAddrs ts ∧ Conserved A s ns := by
  obtain ⟨m, hrot, _⟩ := hr.ring.chain_from hr.freep
  obtain ⟨k, hk⟩ := id hrot
  have hring : IsRing (next s.heap.mem) (s.heap.freep :: m) := by
    rw [← isRing_rotate_iff k, hk]
    exact hr.ring
  have hperm := blocks_perm hrot hc
  obtain ⟨l, hl, hsorted⟩ := hr.sorted_ring hA
  obtain ⟨j, hj⟩ := hrot.trans hl.symm
  have hmem : ∀ x, x ∈ l ↔ x ∈ s.heap.freep :: m := fun x => (hrot.trans hl.symm).mem_iff.symm
  have hfree : ∀ x, x ∈ (s.heap.freep :: m).erase A.base → x ∈ freeAddrs ts := by
    intro x hx
    have he := (hrot.perm.erase A.base).mem_iff.mp hx
    simpa using he
  refine ⟨s.heap.freep :: m, hrot, rfl, hring, hrot.mem_iff.mpr List.mem_cons_self,
    ⟨j, hj ▸ hsorted⟩, ?_, ?_, ?_, fun u hu => blocks_partition hr hperm hu, blocks_units hr hperm,
    fun a ha b hb hab => free_apart hr (hfree a ha) (hfree b hb) hab⟩
  · have hlr : IsRing (next s.heap.mem) l := by
      rw [← hj]
      exact hring.rotate j
    have hne : l ≠ [] := List.ne_nil_of_mem ((hmem _).mpr List.mem_cons_self)
    simpa only [hmem] using hlr.one_wrap hne hsorted
  · exact hperm.nodup_iff.mpr (hr.sorted.imp Nat.ne_of_lt)
  · intro b hb
    obtain ⟨t, ht, rfl, hsz⟩ := (mem_blocks hr hperm).mp hb
    rw [hsz]
    exact hr.tiles.bounds ht

theorem good_run (hA : Arena.Outside A) {m : HeaderMap} {os : List Op}
    (h : Run Step (start A m) os s) : Good A s :=
  h.invariant (P := Good A) (fun _ _ _ hg hs => good_step hA hg hs) (good_start hA m)

/-- The free list over any run: it stays a circular list with one wrap that
partitions the arena together with the carved blocks; the search ends, and it
fails exactly when every node is too small, changing nothing; the insertion of
a carved block ends. -/
theorem free_list_conserved (hA : Arena.Outside A) {m : HeaderMap} {os : List Op}
    (h : Run Step (start A m) os s) :
    ∃ ns, Conserved A s ns ∧
      (∀ nbytes, 0 < nbytes → nbytes ≤ 4294967295 - blocksiz →
        ∃ r h', Search s.heap (blockAlign nbytes) r h' ∧
          (r = none ↔ ∀ b ∈ ns, size s.heap.mem b < blockAlign nbytes) ∧
          (r = none → h' = s.heap)) ∧
      ∀ bp ∈ s.carved, ∃ h', Insert s.heap bp h' := by
  obtain ⟨ts, hr, hc⟩ := good_run hA h
  obtain ⟨ns, hrot, hns⟩ := hr.conserved hA hc
  refine ⟨ns, hns, fun nbytes _ _ => ?_, fun bp hbp => ?_⟩
  · obtain ⟨he, hall⟩ | ⟨p, h', ts', he, ⟨q, hq, hqs⟩, _⟩ :=
      search_represents hA hr (blockAlign_pos nbytes)
    · exact ⟨none, s.heap, he, by simpa [hrot.mem_iff] using hall, fun _ => rfl⟩
    · refine ⟨some p, h', he, ⟨fun hc => absurd hc (by simp), fun hall => ?_⟩,
        fun hc => absurd hc (by simp)⟩
      exact absurd (hall q (hrot.mem_iff.mpr hq)) hqs.not_gt
  · obtain ⟨t, ht, hf, rfl⟩ := mem_takenAddrs.mp (hc.mem_iff.mp hbp)
    obtain ⟨T₁, T₂, rfl⟩ := List.append_of_mem ht
    obtain ⟨h', _, he, _⟩ := insert_represents hA hr hf (taken_positive hr ht hf)
    exact ⟨h', he⟩

def sampleArena : Arena := ⟨4096, 65536, 16⟩

theorem sampleArena_outside : Arena.Outside sampleArena :=
  ⟨by decide, by decide, by decide, by decide⟩

theorem free_list_conserved_sample :
    ∃ s, Run Step (start sampleArena fun _ => ⟨0, 0⟩)
        [.malloc 8, .malloc 20, .free 65648, .free 65616] s ∧
      ∃ ns, Conserved sampleArena s ns := by
  have h : ∃ s, Run Step (start sampleArena fun _ => ⟨0, 0⟩)
      [.malloc 8, .malloc 20, .free 65648, .free 65616] s :=
    ⟨_, .cons (.malloc_some (by decide) (by decide) ⟨3, rfl⟩)
      (.cons (.malloc_some (by decide) (by decide) ⟨3, rfl⟩)
        (.cons (.free (by decide) ⟨3, rfl⟩) (.cons (.free (by decide) ⟨3, rfl⟩) (.nil _))))⟩
  obtain ⟨s, hs⟩ := h
  obtain ⟨ns, hns, _⟩ := free_list_conserved sampleArena_outside hs
  exact ⟨s, hs, ns, hns⟩

end Jiauliyan.FreeList
