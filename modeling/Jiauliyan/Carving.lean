import Jiauliyan.FreeList

namespace Jiauliyan.FreeList

open Jiauliyan.Execution Jiauliyan.Memory Jiauliyan.Malloc Jiauliyan.Malloc.HeaderMemory
open Jiauliyan.Ring Jiauliyan.Tiling

variable {A : Arena} {h : Heap HeaderMap} {T₁ T₂ : List Tile} {t : Tile} {a n : ℕ}

/-- The node of the list that points at a free block stands right before it
in address order, or is `base`. -/
theorem Represents.pred (hA : Arena.Outside A) (hr : Represents A h (T₁ ++ t :: T₂))
    (ht : t.free = true) (ha : a ∈ A.base :: freeAddrs (T₁ ++ t :: T₂))
    (hn : next h.mem a = t.addr) : ∃ G, A.base :: freeAddrs T₁ = G ++ [a] := by
  obtain ⟨G, y, hG⟩ : ∃ G y, A.base :: freeAddrs T₁ = G ++ [y] :=
    ⟨_, _, (List.dropLast_append_getLast (List.cons_ne_nil _ _)).symm⟩
  have hl : A.base :: freeAddrs (T₁ ++ t :: T₂) = G ++ y :: t.addr :: freeAddrs T₂ := by
    rw [freeAddrs_append, freeAddrs_cons, if_pos ht, ← List.cons_append, hG, List.append_assoc,
      List.singleton_append]
  have hring := hr.ring
  rw [hl] at hring
  have hym : y ∈ A.base :: freeAddrs (T₁ ++ t :: T₂) := by
    rw [hl]
    exact List.mem_append_right _ List.mem_cons_self
  have hay := hr.ring.next_inj (hr.ring_nodup hA) ha hym (hn.trans hring.next_eq.symm)
  exact ⟨G, hay ▸ hG⟩

theorem tile_positive (hr : Represents A h (T₁ ++ t :: T₂)) (h0 : 0 < t.size) :
    (∀ s ∈ T₁, 0 < s.size) ∧ ∀ s ∈ T₂, 0 < s.size := by
  have hp := hr.positive (List.mem_append_right _ List.mem_cons_self) h0
  exact ⟨fun s hs => hp s (List.mem_append_left _ hs),
    fun s hs => hp s (List.mem_append_right _ (List.mem_cons_of_mem _ hs))⟩

theorem tiles_middle {u x z : ℕ} (ht : Tiles u x (T₁ ++ t :: T₂) z) :
    Tiles u x T₁ t.addr ∧ Tiles u (t.addr + u * t.size) T₂ z := by
  obtain ⟨b, h1, hb, h2⟩ := tiles_append.mp ht
  rw [hb]
  exact ⟨h1, h2⟩

theorem carve_exact (hA : Arena.Outside A) (hr : Represents A h (T₁ ++ t :: T₂))
    (hn : 0 < n) (hf : t.free = true) (hs : t.size = n)
    (ha : a ∈ A.base :: freeAddrs (T₁ ++ t :: T₂)) (hna : next h.mem a = t.addr) :
    Represents A ⟨setNext h.mem a (next h.mem t.addr), a⟩ (T₁ ++ ⟨t.addr, n, false⟩ :: T₂) := by
  obtain ⟨h1, h2⟩ := tiles_middle hr.tiles
  obtain ⟨hp1, hp2⟩ := tile_positive hr (hs ▸ hn)
  obtain ⟨G, hG⟩ := hr.pred hA hf ha hna
  have hnodup := hr.ring_nodup hA
  have hring := hr.ring
  rw [freeAddrs_append, freeAddrs_cons, if_pos hf, ← List.cons_append, hG, List.append_assoc,
    List.singleton_append] at hring hnodup
  have hfree : A.base :: freeAddrs (T₁ ++ ⟨t.addr, n, false⟩ :: T₂) = G ++ a :: freeAddrs T₂ := by
    rw [freeAddrs_append, freeAddrs_cons, ← List.cons_append, hG]
    simp
  refine ⟨?_, .inl ?_, ?_, ?_, ?_, ?_, ?_⟩
  · exact tiles_append.mpr ⟨_, h1, rfl, hs ▸ h2⟩
  · intro s hs'
    obtain hm | hm := List.mem_append.mp hs'
    · exact hp1 s hm
    · obtain rfl | hm := List.mem_cons.mp hm
      · exact hn
      · exact hp2 s hm
  · intro s hs'
    rw [size_setNext]
    obtain hm | hm := List.mem_append.mp hs'
    · exact hr.sizes s (List.mem_append_left _ hm)
    · obtain rfl | hm := List.mem_cons.mp hm
      · exact (hr.sizes t (List.mem_append_right _ List.mem_cons_self)).trans hs
      · exact hr.sizes s (List.mem_append_right _ (List.mem_cons_of_mem _ hm))
  · rw [hfree, next_setNext]
    refine hring.remove (Function.update_self _ _ _) fun z hz => Function.update_of_ne ?_ _ _
    rintro rfl
    have hd := (List.nodup_middle.mp hnodup).notMem
    simp only [List.mem_append, List.mem_cons] at hz hd
    tauto
  · rw [size_setNext]
    exact hr.baseSize
  · rw [hfree]
    simp
  · have hap := apart_append_cons.mp hr.apart
    exact apart_append_cons.mpr ⟨hap.1, hap.2.1, fun hc => absurd hc (by simp)⟩

theorem carve_tail (hA : Arena.Outside A) (hr : Represents A h (T₁ ++ t :: T₂))
    (hn : 0 < n) (hf : t.free = true) (hs : n < t.size)
    (ha : a ∈ A.base :: freeAddrs (T₁ ++ t :: T₂)) :
    Represents A
      ⟨setSize (setSize h.mem t.addr (t.size - n)) (t.addr + blocksiz * (t.size - n)) n, a⟩
      (T₁ ++ ⟨t.addr, t.size - n, true⟩ ::
        ⟨t.addr + blocksiz * (t.size - n), n, false⟩ :: T₂) := by
  obtain ⟨h1, h2⟩ := tiles_middle hr.tiles
  obtain ⟨hp1, hp2⟩ := tile_positive hr (by omega)
  have hbt := hr.tiles.bounds (List.mem_append_right _ List.mem_cons_self)
  have hfree : freeAddrs (T₁ ++ ⟨t.addr, t.size - n, true⟩ ::
      ⟨t.addr + blocksiz * (t.size - n), n, false⟩ :: T₂) = freeAddrs (T₁ ++ t :: T₂) := by
    simp [freeAddrs_cons, hf]
  have hq : t.addr ≠ t.addr + blocksiz * (t.size - n) := by
    simp only [blocksiz]
    omega
  have hb : A.base ≠ t.addr ∧ A.base ≠ t.addr + blocksiz * (t.size - n) := by
    have ho := hA.outside
    simp only [blocksiz] at *
    omega
  refine ⟨?_, .inl ?_, ?_, ?_, ?_, ?_, ?_⟩
  · refine tiles_append.mpr ⟨_, h1, rfl, rfl, ?_⟩
    have he : t.addr + blocksiz * (t.size - n) + blocksiz * n = t.addr + blocksiz * t.size := by
      simp only [blocksiz]
      omega
    exact he ▸ h2
  · intro s hs'
    simp only [List.mem_append, List.mem_cons] at hs'
    obtain hm | rfl | rfl | hm := hs'
    · exact hp1 s hm
    · exact Nat.sub_pos_of_lt hs
    · exact hn
    · exact hp2 s hm
  · intro s hs'
    rw [size_setSize, size_setSize]
    simp only [List.mem_append, List.mem_cons] at hs'
    obtain hm | rfl | rfl | hm := hs'
    · have hb := h1.bounds hm
      have hpos := hp1 s hm
      simp only [blocksiz] at *
      rw [Function.update_of_ne (by omega), Function.update_of_ne (by omega)]
      exact hr.sizes s (List.mem_append_left _ hm)
    · rw [Function.update_of_ne hq, Function.update_self]
    · exact Function.update_self _ _ _
    · have hb := h2.bounds hm
      simp only [blocksiz] at *
      rw [Function.update_of_ne (by omega), Function.update_of_ne (by omega)]
      exact hr.sizes s (List.mem_append_right _ (List.mem_cons_of_mem _ hm))
  · rw [hfree, next_setSize, next_setSize]
    exact hr.ring
  · rw [size_setSize, size_setSize, Function.update_of_ne hb.2, Function.update_of_ne hb.1]
    exact hr.baseSize
  · rw [hfree]
    exact ha
  · have hap := apart_append_cons.mp hr.apart
    refine apart_append_cons.mpr ⟨hap.1, ?_, fun _ => ⟨(hap.2.2 hf).1, by simp⟩⟩
    exact apart_cons.mpr ⟨hap.2.1, fun hc => absurd hc (by simp)⟩

/-- One call of malloc's search: it ends; it finds nothing exactly when every
node of the list is too small, and then changes nothing; otherwise the block it
yields moves from the free to the taken blocks. -/
theorem search_represents (hA : Arena.Outside A) {ts : List Tile} (hr : Represents A h ts)
    (hn : 0 < n) :
    (Search h n none h ∧ ∀ q ∈ A.base :: freeAddrs ts, size h.mem q < n) ∨
    ∃ p h' ts', Search h n (some p) h' ∧ (∃ q ∈ A.base :: freeAddrs ts, n ≤ size h.mem q) ∧
      Represents A h' ts' ∧ (takenAddrs ts').Perm (p :: takenAddrs ts) := by
  obtain ⟨he, hall⟩ | ⟨a, ha, hsz, he⟩ := ring_search hr.ring (hr.ring_nodup hA) hr.freep
  · exact .inl ⟨search_of_exits he, hall⟩
  · right
    have hmem := hr.ring.next_mem ha
    have hfa : next h.mem a ∈ freeAddrs ts := by
      refine (List.mem_cons.mp hmem).resolve_left fun hb => ?_
      rw [hb, hr.baseSize] at hsz
      omega
    obtain ⟨t, ht, hf, hta⟩ := mem_freeAddrs.mp hfa
    have hts := hr.sizes t ht
    rw [← hta] at hsz he
    obtain ⟨T₁, T₂, rfl⟩ := List.append_of_mem ht
    have hbt := hr.tiles.bounds ht
    have hfit := hA.fits
    by_cases hx : t.size = n
    · refine ⟨_, _, T₁ ++ ⟨t.addr, n, false⟩ :: T₂, search_of_exits he, ⟨_, hta ▸ hmem, hsz⟩,
        ?_, ?_⟩
      · simpa [carve, hts, hx] using carve_exact hA hr hn hf hx ha hta.symm
      · simp [carve, hts, hx, takenAddrs_cons, hf]
    · have hlt : n < t.size := by omega
      have hq : addUnits t.addr (t.size - n) = t.addr + blocksiz * (t.size - n) := by
        refine u32_eq ?_
        simp only [blocksiz] at *
        omega
      refine ⟨_, _, T₁ ++ ⟨t.addr, t.size - n, true⟩ ::
        ⟨t.addr + blocksiz * (t.size - n), n, false⟩ :: T₂,
        search_of_exits he, ⟨_, hta ▸ hmem, hsz⟩, ?_, ?_⟩
      · simpa [carve, hts, hx, hq, size_setSize] using carve_tail hA hr hn hf hlt ha
      · simp [carve, hts, hx, hq, size_setSize, takenAddrs_cons, hf]

end Jiauliyan.FreeList
