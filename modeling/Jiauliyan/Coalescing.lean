import Jiauliyan.Carving

namespace Jiauliyan.FreeList

open Jiauliyan.Execution Jiauliyan.Memory Jiauliyan.Malloc Jiauliyan.Malloc.HeaderMemory
open Jiauliyan.Ring Jiauliyan.Tiling

variable {A : Arena} {h : Heap HeaderMap} {T₁ T₂ : List Tile} {t : Tile} {p : ℕ} {G : List ℕ}

/-- A ring of free blocks split at the place of the block `t`: `p` is the
last node before it. -/
structure Place (A : Arena) (m : HeaderMap) (T₁ T₂ : List Tile) (t : Tile)
    (G : List ℕ) (p : ℕ) : Prop where
  before : A.base :: freeAddrs T₁ = G ++ [p]
  ring : IsRing (next m) (G ++ p :: freeAddrs T₂)
  lower : ∀ x ∈ freeAddrs T₁, A.memloc ≤ x ∧ x < t.addr
  upper : ∀ x ∈ freeAddrs T₂, t.addr < x ∧ x < A.fin
  sorted₁ : (freeAddrs T₁).Pairwise (· < ·)
  sorted₂ : (freeAddrs T₂).Pairwise (· < ·)
  inside : A.memloc ≤ t.addr ∧ t.addr < A.fin

theorem Represents.place (hr : Represents A h (T₁ ++ t :: T₂)) (ht : t.free = false)
    (h0 : 0 < t.size) : ∃ G p, Place A h.mem T₁ T₂ t G p := by
  obtain ⟨G, p, hG⟩ : ∃ G p, A.base :: freeAddrs T₁ = G ++ [p] :=
    ⟨_, _, (List.dropLast_append_getLast (List.cons_ne_nil _ _)).symm⟩
  obtain ⟨h1, h2⟩ := tiles_middle hr.tiles
  obtain ⟨hp1, hp2⟩ := tile_positive hr h0
  have hbt := hr.tiles.bounds (List.mem_append_right _ List.mem_cons_self)
  have hl : A.base :: freeAddrs (T₁ ++ t :: T₂) = G ++ p :: freeAddrs T₂ := by
    rw [freeAddrs_append, freeAddrs_cons, ht, ← List.cons_append, hG, List.append_assoc]
    rfl
  refine ⟨G, p, hG, hl ▸ hr.ring, ?_, ?_, ?_, ?_, ?_⟩
  · intro x hx
    obtain ⟨s, hs, _, rfl⟩ := mem_freeAddrs.mp hx
    have hb := h1.bounds hs
    have hpos := hp1 s hs
    simp only [blocksiz] at hb
    omega
  · intro x hx
    obtain ⟨s, hs, _, rfl⟩ := mem_freeAddrs.mp hx
    have hb := h2.bounds hs
    have hpos := hp2 s hs
    simp only [blocksiz] at hb
    omega
  · exact (h1.sorted (by decide) hp1).sublist freeAddrs_sublist
  · exact (h2.sorted (by decide) hp2).sublist freeAddrs_sublist
  · simp only [blocksiz] at hbt
    omega

theorem Place.mem_before {m : HeaderMap} (hp : Place A m T₁ T₂ t G p) {x : ℕ} :
    x ∈ G ++ [p] ↔ x = A.base ∨ x ∈ freeAddrs T₁ := by
  rw [← hp.before, List.mem_cons]

theorem Place.next_p {m : HeaderMap} (hp : Place A m T₁ T₂ t G p) :
    (freeAddrs T₂ = [] ∧ next m p = A.base) ∨ ∃ F, freeAddrs T₂ = next m p :: F := by
  have hring := hp.ring
  cases hF : freeAddrs T₂ with
  | nil =>
    rw [hF] at hring
    exact .inl ⟨rfl, hring.next_last hp.before.symm⟩
  | cons y F =>
    rw [hF] at hring
    exact .inr ⟨F, by rw [hring.next_eq]⟩

theorem Place.next_before {m : HeaderMap} (hp : Place A m T₁ T₂ t G p) {x : ℕ}
    (hx : x ∈ G ++ [p]) (hne : x ≠ p) :
    next m x ∈ freeAddrs T₁ ∧ (x = A.base ∨ x < next m x) := by
  obtain ⟨C, D, hCD⟩ := List.append_of_mem hx
  cases D with
  | nil =>
    have hlast := congrArg List.getLast? hCD
    exact absurd (by simpa using hlast.symm) hne
  | cons d D =>
    have hring := hp.ring
    rw [List.append_cons, hCD, List.append_assoc, List.cons_append, List.cons_append] at hring
    have hb := hp.before
    rw [hCD] at hb
    rw [hring.next_eq]
    cases C with
    | nil =>
      obtain ⟨hbase, hT⟩ := List.cons.inj hb
      exact ⟨hT ▸ List.mem_cons_self, .inl hbase.symm⟩
    | cons c C =>
      have hT : freeAddrs T₁ = C ++ x :: d :: D := (List.cons.inj hb).2
      have hs := hp.sorted₁
      rw [hT] at hs ⊢
      have ht := (List.pairwise_append.mp hs).2.1
      exact ⟨by simp, .inr ((List.pairwise_cons.mp ht).1 d List.mem_cons_self)⟩

theorem Place.next_above {m : HeaderMap} (hp : Place A m T₁ T₂ t G p) {x : ℕ}
    (hx : x ∈ freeAddrs T₂) : next m x = A.base ∨ x < next m x := by
  obtain ⟨C, D, hCD⟩ := List.append_of_mem hx
  have hring := hp.ring
  have hs := hp.sorted₂
  rw [hCD] at hring hs
  cases D with
  | nil =>
    rw [List.append_cons, ← hp.before, ← List.append_assoc] at hring
    exact .inl (hring.next_last rfl)
  | cons d D =>
    rw [← List.cons_append, ← List.append_assoc] at hring
    rw [hring.next_eq]
    exact .inr ((List.pairwise_cons.mp (List.pairwise_append.mp hs).2.1).1 d List.mem_cons_self)

theorem Place.insertsAt_iff (hA : Arena.Outside A) (hp : Place A h.mem T₁ T₂ t G p) {x : ℕ}
    (hx : x ∈ G ++ p :: freeAddrs T₂) : insertsAt h t.addr x ↔ x = p := by
  have hin := hp.inside
  have hout := hA.outside
  constructor
  · intro hs
    unfold insertsAt at hs
    rw [List.append_cons, List.mem_append] at hx
    obtain hx | hx := hx
    · by_contra hne
      obtain ⟨hmem, hord⟩ := hp.next_before hx hne
      have hlow := hp.lower _ hmem
      omega
    · have hup := hp.upper x hx
      have hnext := hp.next_above hx
      omega
  · rintro rfl
    have hpm := hp.mem_before.mp (List.mem_append_right G List.mem_cons_self)
    have hlow := hp.lower
    unfold insertsAt
    obtain ⟨_, hn⟩ | ⟨F, hF⟩ := hp.next_p
    · rw [hn]
      obtain hb | hl := hpm
      · omega
      · have hll := hlow _ hl
        omega
    · have hup := hp.upper (next h.mem x) (by rw [hF]; exact List.mem_cons_self)
      obtain hb | hl := hpm
      · omega
      · have hll := hlow _ hl
        omega

/-- The state between the two joins: `t` has grown to `n` units over the first
free block above it, `T` are the blocks that remain above, and what `t` points
at would close the ring behind `p`. -/
structure UpperJoined (A : Arena) (m m' : HeaderMap) (T₂ : List Tile) (t : Tile)
    (G : List ℕ) (p n : ℕ) (T : List Tile) : Prop where
  tiles : Tiles blocksiz (t.addr + blocksiz * n) T A.fin
  grown : 0 < n
  room : ∀ s ∈ T, 0 < s.size
  size_t : size m' t.addr = n
  size_frame : ∀ x, x ≠ t.addr → size m' x = size m x
  next_frame : ∀ x, x ≠ t.addr → next m' x = next m x
  ring : IsRing (Function.update (next m) p (next m' t.addr)) (G ++ p :: freeAddrs T)
  sublist : T.Sublist T₂
  taken : takenAddrs T = takenAddrs T₂
  apart : Apart T
  head : ∀ s ∈ T.head?, s.free = false

theorem Place.nodup (hA : Arena.Outside A) {m : HeaderMap} (hp : Place A m T₁ T₂ t G p) :
    (G ++ p :: freeAddrs T₂).Nodup := by
  have hin := hp.inside
  have hout := hA.outside
  have hlow := hp.lower
  have hup := hp.upper
  rw [List.append_cons, ← hp.before, List.cons_append, List.nodup_cons, List.mem_append]
  refine ⟨?_, List.Nodup.append (hp.sorted₁.imp Nat.ne_of_lt) (hp.sorted₂.imp Nat.ne_of_lt) ?_⟩
  · rintro (hb | hb)
    · have hl := hlow _ hb
      omega
    · have hl := hup _ hb
      omega
  · intro x hx hx'
    have h1 := hlow x hx
    have h2 := hup x hx'
    omega

/-- Where no free block starts at the end of `t`, `t` does not reach the node
behind `p`. -/
theorem Place.not_upper (hA : Arena.Outside A) (hr : Represents A h (T₁ ++ t :: T₂))
    (h0 : 0 < t.size) (hp : Place A h.mem T₁ T₂ t G p) (hh : ∀ s ∈ T₂.head?, s.free = false) :
    addUnits t.addr t.size ≠ next h.mem p := by
  obtain ⟨_, h2⟩ := tiles_middle hr.tiles
  obtain ⟨_, hp2⟩ := tile_positive hr h0
  have hin := hp.inside
  have hout := hA.outside
  have hfit := hA.fits
  have hb0 := hA.base_ne
  have hle := h2.le
  unfold addUnits u32
  obtain ⟨_, hn⟩ | ⟨F, hF⟩ := hp.next_p
  · rw [hn]
    simp only [blocksiz] at *
    omega
  · have hm : next h.mem p ∈ freeAddrs T₂ := by
      rw [hF]
      exact List.mem_cons_self
    obtain ⟨v, hv, hvf, hva⟩ := mem_freeAddrs.mp hm
    have hup := hp.upper _ hm
    cases T₂ with
    | nil => simp at hv
    | cons u T =>
      have huf := hh u rfl
      have hvT : v ∈ T := by
        obtain rfl | hvT := List.mem_cons.mp hv
        · rw [huf] at hvf
          exact absurd hvf (by decide)
        · exact hvT
      have hvb := (h2.2.bounds hvT).1
      have hu0 := hp2 u List.mem_cons_self
      have hua := h2.1
      simp only [blocksiz] at *
      omega

theorem joinUpper_grown (hA : Arena.Outside A) {u : Tile} {T : List Tile}
    (hr : Represents A h (T₁ ++ t :: u :: T)) (h0 : 0 < t.size)
    (hp : Place A h.mem T₁ (u :: T) t G p) (huf : u.free = true) :
    joinUpper h.mem t.addr p =
      setNext (setSize h.mem t.addr (t.size + u.size)) t.addr (next h.mem u.addr) := by
  obtain ⟨_, h2⟩ := tiles_middle hr.tiles
  obtain ⟨_, hp2⟩ := tile_positive hr h0
  have hts := hr.sizes t (List.mem_append_right _ List.mem_cons_self)
  have hus := hr.sizes u (List.mem_append_right _ (by simp))
  have hnp : next h.mem p = u.addr := by
    have hring := hp.ring
    rw [freeAddrs_cons, if_pos huf] at hring
    exact hring.next_eq
  have hua := h2.1
  have hub := h2.bounds List.mem_cons_self
  have hu0 := hp2 u List.mem_cons_self
  have hfit := hA.fits
  have hc : addUnits t.addr t.size = u.addr := by
    rw [hua]
    refine u32_eq ?_
    simp only [blocksiz] at *
    omega
  have hsum : u32 (t.size + u.size) = t.size + u.size := by
    refine u32_eq ?_
    simp only [blocksiz] at *
    omega
  rw [joinUpper, hts, hnp, if_pos hc]
  simp only [next_setSize, hnp, hus, hsum]

theorem joinUpper_joined (hA : Arena.Outside A) (hr : Represents A h (T₁ ++ t :: T₂))
    (h0 : 0 < t.size) (hp : Place A h.mem T₁ T₂ t G p) :
    ∃ n T, UpperJoined A h.mem (joinUpper h.mem t.addr p) T₂ t G p n T := by
  obtain ⟨_, h2⟩ := tiles_middle hr.tiles
  obtain ⟨_, hp2⟩ := tile_positive hr h0
  have hts := hr.sizes t (List.mem_append_right _ List.mem_cons_self)
  have hap := (apart_append_cons.mp hr.apart).2.1
  by_cases hh : ∀ s ∈ T₂.head?, s.free = false
  · have hc := hp.not_upper hA hr h0 hh
    have hj : joinUpper h.mem t.addr p = setNext h.mem t.addr (next h.mem p) := by
      rw [joinUpper, hts, if_neg hc]
    rw [hj]
    refine ⟨t.size, T₂, h2, h0, hp2, ?_, ?_, ?_, ?_, List.Sublist.refl _, rfl, hap, hh⟩
    · rw [size_setNext, hts]
    · intro x _
      rw [size_setNext]
    · intro x hx
      rw [next_setNext, Function.update_of_ne hx]
    · rw [next_setNext, Function.update_self, Function.update_eq_self]
      exact hp.ring
  · -- the first block above is free and starts where `t` ends
    cases T₂ with
    | nil => simp at hh
    | cons u T =>
      have huf : u.free = true := by simpa using hh
      have hF : freeAddrs (u :: T) = u.addr :: freeAddrs T := by rw [freeAddrs_cons, if_pos huf]
      rw [joinUpper_grown hA hr h0 hp huf]
      have ha := apart_cons.mp hap
      refine ⟨t.size + u.size, T, ?_, by omega, fun s hs => hp2 s (List.mem_cons_of_mem _ hs),
        ?_, ?_, ?_, ?_, List.sublist_cons_self _ _, ?_, ha.1, ha.2 huf⟩
      · have he : t.addr + blocksiz * (t.size + u.size) =
            t.addr + blocksiz * t.size + blocksiz * u.size := by
          simp only [blocksiz]
          omega
        rw [he]
        exact h2.2
      · rw [size_setNext, size_setSize, Function.update_self]
      · intro x hx
        rw [size_setNext, size_setSize, Function.update_of_ne hx]
      · intro x hx
        rw [next_setNext, Function.update_of_ne hx, next_setSize]
      · rw [next_setNext, Function.update_self]
        have hring := hp.ring
        have hnd := hp.nodup hA
        rw [hF] at hring hnd
        refine hring.remove (Function.update_self _ _ _) fun z hz => Function.update_of_ne ?_ _ _
        rintro rfl
        have hd := (List.nodup_middle.mp hnd).notMem
        simp only [List.mem_append, List.mem_cons] at hz hd
        tauto
      · rw [takenAddrs_cons, if_pos huf]

section Lower

variable {m' : HeaderMap} {n : ℕ} {T : List Tile}

theorem Place.p_ne (hA : Arena.Outside A) {m : HeaderMap} (hp : Place A m T₁ T₂ t G p) :
    p ≠ t.addr := by
  have hin := hp.inside
  have hout := hA.outside
  obtain hb | hl := hp.mem_before.mp (List.mem_append_right G List.mem_cons_self)
  · omega
  · have hll := hp.lower _ hl
    omega

/-- Where no free block ends at the start of `t`, the node `p` does not reach
`t`. -/
theorem Place.not_lower (hA : Arena.Outside A) (hr : Represents A h (T₁ ++ t :: T₂))
    (h0 : 0 < t.size) (hp : Place A h.mem T₁ T₂ t G p)
    (hl : ∀ s ∈ T₁.getLast?, s.free = false) : addUnits p (size h.mem p) ≠ t.addr := by
  obtain ⟨h1, _⟩ := tiles_middle hr.tiles
  obtain ⟨hp1, _⟩ := tile_positive hr h0
  have hin := hp.inside
  have hout := hA.outside
  have hlt := hA.base_lt
  have hfit := hA.fits
  unfold addUnits u32
  obtain hb | hm := hp.mem_before.mp (List.mem_append_right G List.mem_cons_self)
  · rw [hb, hr.baseSize]
    simp only [blocksiz] at *
    omega
  · obtain ⟨v, hv, hvf, hva⟩ := mem_freeAddrs.mp hm
    have hvs := hr.sizes v (List.mem_append_left _ hv)
    rw [← hva, hvs]
    obtain rfl | ⟨T', u, hTu⟩ := List.eq_nil_or_concat T₁
    · simp at hv
    · rw [List.concat_eq_append] at hTu
      subst hTu
      have huf := hl u (by simp)
      obtain ⟨b, hb1, hb2, hb3⟩ := tiles_append.mp h1
      have hu0 := hp1 u (by simp)
      have hb4 : b + blocksiz * u.size = t.addr := hb3
      have hvT : v ∈ T' := by
        obtain hvT | hvu := List.mem_append.mp hv
        · exact hvT
        · rw [List.mem_singleton.mp hvu, huf] at hvf
          exact absurd hvf (by decide)
      have hvb := (hb1.bounds hvT).2
      simp only [blocksiz] at *
      omega

theorem UpperJoined.node_ne (hA : Arena.Outside A) (hp : Place A h.mem T₁ T₂ t G p)
    (hu : UpperJoined A h.mem m' T₂ t G p n T) {z : ℕ} (hz : z ∈ G ++ p :: freeAddrs T) :
    z ≠ t.addr := by
  have hin := hp.inside
  have hout := hA.outside
  rintro rfl
  rw [List.append_cons, List.mem_append, hp.mem_before] at hz
  obtain (hz | hz) | hz := hz
  · omega
  · have hlo := hp.lower _ hz
    omega
  · obtain ⟨s, hs, _, hsa⟩ := mem_freeAddrs.mp hz
    have hsb := (hu.tiles.bounds hs).1
    have hg := hu.grown
    simp only [blocksiz] at hsb
    omega

theorem Place.lower_node {T' : List Tile} {l : Tile} {m : HeaderMap}
    (hp : Place A m (T' ++ [l]) T₂ t G p) (hl : l.free = true) : p = l.addr := by
  have hb := hp.before
  rw [freeAddrs_append, freeAddrs_cons, if_pos hl, freeAddrs_nil, ← List.cons_append] at hb
  exact (List.cons.inj (List.append_inj' hb rfl).2).1.symm

theorem joinLower_lower (hA : Arena.Outside A) {T' : List Tile} {l : Tile}
    (hr : Represents A h ((T' ++ [l]) ++ t :: T₂)) (hp : Place A h.mem (T' ++ [l]) T₂ t G p)
    (hu : UpperJoined A h.mem m' T₂ t G p n T) (hl : l.free = true) :
    joinLower m' t.addr p = setNext (setSize m' p (l.size + n)) p (next m' t.addr) := by
  obtain ⟨h1, _⟩ := tiles_middle hr.tiles
  obtain ⟨b, hb1, hb2, hb3⟩ := tiles_append.mp h1
  have hb4 : l.addr + blocksiz * l.size = t.addr := hb2 ▸ hb3
  have hpl := hp.lower_node hl
  have hls : size m' p = l.size := by
    rw [hu.size_frame p (hp.p_ne hA), hpl]
    exact hr.sizes l (List.mem_append_left _ (by simp))
  have hin := hp.inside
  have hfit := hA.fits
  have hc : addUnits p l.size = t.addr := by
    rw [← hb4, hpl]
    refine u32_eq ?_
    omega
  have htl := hu.tiles.le
  have hsum : u32 (l.size + n) = l.size + n := by
    refine u32_eq ?_
    simp only [blocksiz] at *
    omega
  rw [joinLower, hls, if_pos hc]
  simp only [hu.size_t, hsum, next_setSize]

theorem lower_join (hA : Arena.Outside A) {T' : List Tile} {l : Tile}
    (hr : Represents A h ((T' ++ [l]) ++ t :: T₂)) (h0 : 0 < t.size)
    (hp : Place A h.mem (T' ++ [l]) T₂ t G p)
    (hu : UpperJoined A h.mem m' T₂ t G p n T) (hl : l.free = true) :
    Represents A ⟨joinLower m' t.addr p, p⟩ (T' ++ ⟨l.addr, l.size + n, true⟩ :: T) := by
  obtain ⟨h1, h2⟩ := tiles_middle hr.tiles
  obtain ⟨hp1, _⟩ := tile_positive hr h0
  obtain ⟨b, hb1, hb2, hb3⟩ := tiles_append.mp h1
  have hb4 : l.addr + blocksiz * l.size = t.addr := hb2 ▸ hb3
  have hl0 := hp1 l (by simp)
  have hpl := hp.lower_node hl
  have hin := hp.inside
  have hfree : A.base :: freeAddrs (T' ++ ⟨l.addr, l.size + n, true⟩ :: T) =
      G ++ p :: freeAddrs T := by
    have hb := hp.before
    rw [freeAddrs_append, freeAddrs_cons, if_pos hl, freeAddrs_nil] at hb
    rw [freeAddrs_append, freeAddrs_cons, if_pos rfl, List.append_cons G, ← hb]
    simp
  have hout := hA.outside
  have hlb := hr.tiles.bounds (t := l) (by simp)
  rw [joinLower_lower hA hr hp hu hl]
  refine ⟨?_, .inl ?_, ?_, ?_, ?_, ?_, ?_⟩
  · refine tiles_append.mpr ⟨b, hb1, hb2.symm ▸ rfl, ?_⟩
    have he : b + blocksiz * (l.size + n) = t.addr + blocksiz * n := by
      rw [← hb4, hb2]
      simp only [blocksiz]
      omega
    exact he ▸ hu.tiles
  · intro s hs
    obtain hm | hm := List.mem_append.mp hs
    · exact hp1 s (List.mem_append_left _ hm)
    · obtain rfl | hm := List.mem_cons.mp hm
      · exact Nat.add_pos_left hl0 _
      · exact hu.room s hm
  · intro s hs
    rw [size_setNext, size_setSize]
    obtain hm | hm := List.mem_append.mp hs
    · have hsb := (hb1.bounds hm).2
      have hs0 := hp1 s (List.mem_append_left _ hm)
      simp only [blocksiz] at *
      rw [Function.update_of_ne (by omega), hu.size_frame _ (by omega)]
      exact hr.sizes s (by simp [hm])
    · obtain rfl | hm := List.mem_cons.mp hm
      · rw [← hpl, Function.update_self]
      · have hsb := (hu.tiles.bounds hm).1
        have hg := hu.grown
        simp only [blocksiz] at *
        rw [Function.update_of_ne (by omega), hu.size_frame _ (by omega)]
        exact hr.sizes s (by simp [hu.sublist.subset hm])
  · rw [hfree, next_setNext, next_setSize]
    refine hu.ring.congr fun z hz => ?_
    by_cases hzp : z = p
    · subst hzp
      simp
    · rw [Function.update_of_ne hzp, Function.update_of_ne hzp]
      exact hu.next_frame z (hu.node_ne hA hp hz)
  · rw [size_setNext, size_setSize]
    have hbp : A.base ≠ p := by omega
    rw [Function.update_of_ne hbp, hu.size_frame _ (by omega)]
    exact hr.baseSize
  · rw [hfree]
    simp
  · have hap := (apart_append_cons.mp hr.apart).1
    have hap' := apart_append_cons.mp hap
    exact apart_append_cons.mpr ⟨hap'.1, hu.apart, fun _ => ⟨(hap'.2.2 hl).1, hu.head⟩⟩

theorem lower_apart (hA : Arena.Outside A) (hr : Represents A h (T₁ ++ t :: T₂))
    (h0 : 0 < t.size) (hp : Place A h.mem T₁ T₂ t G p)
    (hu : UpperJoined A h.mem m' T₂ t G p n T) (hl : ∀ s ∈ T₁.getLast?, s.free = false) :
    Represents A ⟨joinLower m' t.addr p, p⟩ (T₁ ++ ⟨t.addr, n, true⟩ :: T) := by
  obtain ⟨h1, h2⟩ := tiles_middle hr.tiles
  obtain ⟨hp1, _⟩ := tile_positive hr h0
  have hc := hp.not_lower hA hr h0 hl
  rw [← hu.size_frame p (hp.p_ne hA)] at hc
  have hj : joinLower m' t.addr p = setNext m' p t.addr := by rw [joinLower, if_neg hc]
  have hfree : A.base :: freeAddrs (T₁ ++ ⟨t.addr, n, true⟩ :: T) =
      G ++ p :: t.addr :: freeAddrs T := by
    rw [freeAddrs_append, freeAddrs_cons, if_pos rfl, ← List.cons_append, hp.before,
      List.append_assoc, List.singleton_append]
  have hin := hp.inside
  have hout := hA.outside
  have hg := hu.grown
  have hnd : (G ++ p :: freeAddrs T).Nodup := by
    have hsub : (freeAddrs T).Sublist (freeAddrs T₂) := (hu.sublist.filter _).map _
    exact (hp.nodup hA).sublist ((hsub.cons_cons p).append_left G)
  rw [hj]
  refine ⟨?_, .inl ?_, ?_, ?_, ?_, ?_, ?_⟩
  · exact tiles_append.mpr ⟨_, h1, rfl, hu.tiles⟩
  · intro s hs
    obtain hm | hm := List.mem_append.mp hs
    · exact hp1 s hm
    · obtain rfl | hm := List.mem_cons.mp hm
      · exact hg
      · exact hu.room s hm
  · intro s hs
    rw [size_setNext]
    obtain hm | hm := List.mem_append.mp hs
    · have hsb := (h1.bounds hm).2
      have hs0 := hp1 s hm
      simp only [blocksiz] at hsb
      rw [hu.size_frame _ (by omega)]
      exact hr.sizes s (List.mem_append_left _ hm)
    · obtain rfl | hm := List.mem_cons.mp hm
      · exact hu.size_t
      · have hsb := (hu.tiles.bounds hm).1
        simp only [blocksiz] at hsb
        rw [hu.size_frame _ (by omega)]
        exact hr.sizes s (by simp [hu.sublist.subset hm])
  · rw [hfree, next_setNext]
    refine hu.ring.insert (Function.update_self _ _ _) ?_ fun z hz => ?_
    · rw [Function.update_of_ne (hp.p_ne hA).symm, Function.update_self]
    · have hzp : z ≠ p := by
        rintro rfl
        have hd := (List.nodup_middle.mp hnd).notMem
        simp only [List.mem_append] at hz hd
        tauto
      rw [Function.update_of_ne hzp, Function.update_of_ne hzp]
      refine hu.next_frame z (hu.node_ne hA hp ?_)
      obtain hz | hz := List.mem_append.mp hz
      · exact List.mem_append_right G (List.mem_cons_of_mem p hz)
      · exact List.mem_append_left _ hz
  · rw [size_setNext, hu.size_frame _ (by omega)]
    exact hr.baseSize
  · rw [hfree]
    simp
  · have hap := apart_append_cons.mp hr.apart
    exact apart_append_cons.mpr ⟨hap.1, hu.apart, fun _ => ⟨hl, hu.head⟩⟩

end Lower

/-- One call of free's insertion on the Header of a taken block: it ends, and
the block moves from the taken to the free blocks. -/
theorem insert_represents (hA : Arena.Outside A) (hr : Represents A h (T₁ ++ t :: T₂))
    (ht : t.free = false) (h0 : 0 < t.size) :
    ∃ h' ts', Insert h t.addr h' ∧ Represents A h' ts' ∧
      takenAddrs ts' = takenAddrs T₁ ++ takenAddrs T₂ := by
  obtain ⟨G, p, hp⟩ := hr.place ht h0
  have hl : A.base :: freeAddrs (T₁ ++ t :: T₂) = G ++ p :: freeAddrs T₂ := by
    rw [freeAddrs_append, freeAddrs_cons, ht, ← List.cons_append, hp.before, List.append_assoc]
    rfl
  have hmem : p ∈ G ++ p :: freeAddrs T₂ := by simp
  have hf := hr.freep
  rw [hl] at hf
  have hstops : ∃ z ∈ G ++ p :: freeAddrs T₂, insertsAt h t.addr z :=
    ⟨p, hmem, (hp.insertsAt_iff hA hmem).mpr rfl⟩
  obtain ⟨y, hy, hstop, fuel, hex⟩ := hp.ring.walk hf hstops
  obtain rfl := (hp.insertsAt_iff hA hy).mp hstop
  obtain ⟨n, T, hu⟩ := joinUpper_joined hA hr h0 hp
  have hins : Insert h t.addr ⟨joinLower (joinUpper h.mem t.addr y) t.addr y, y⟩ :=
    ⟨fuel, by rw [freeInsert]; exact Option.map_eq_some_iff.mpr ⟨y, hex, rfl⟩⟩
  by_cases hlow : ∀ s ∈ T₁.getLast?, s.free = false
  · refine ⟨_, _, hins, lower_apart hA hr h0 hp hu hlow, ?_⟩
    rw [takenAddrs_append, takenAddrs_cons, if_pos rfl, hu.taken]
  · obtain rfl | ⟨T', l, hTl⟩ := List.eq_nil_or_concat T₁
    · simp at hlow
    · rw [List.concat_eq_append] at hTl
      subst hTl
      have hlf : l.free = true := by simpa using hlow
      refine ⟨_, _, hins, lower_join hA hr h0 hp hu hlf, ?_⟩
      simp [takenAddrs_cons, hlf, hu.taken]

end Jiauliyan.FreeList
