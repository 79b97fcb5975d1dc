import Mathlib.Data.List.Chain
import Mathlib.Data.List.Nodup
import Mathlib.Data.Nat.Notation
import Mathlib.Tactic.Linarith

namespace Jiauliyan.Tiling

/-- A block of `size` units at address `addr`, free or taken. -/
structure Tile where
  addr : ℕ
  size : ℕ
  free : Bool
  deriving DecidableEq

def Tiles (u : ℕ) : ℕ → List Tile → ℕ → Prop
  | a, [], z => a = z
  | a, t :: ts, z => t.addr = a ∧ Tiles u (a + u * t.size) ts z

def addrs (ts : List Tile) : List ℕ := ts.map Tile.addr

def freeAddrs (ts : List Tile) : List ℕ := addrs (ts.filter (·.free))

def takenAddrs (ts : List Tile) : List ℕ := addrs (ts.filter (!·.free))

/-- No two neighbours are both free. -/
def Apart (ts : List Tile) : Prop := ts.IsChain (fun s t => ¬(s.free = true ∧ t.free = true))

variable {u a z x : ℕ} {t : Tile} {ts ss : List Tile}

theorem tiles_append : Tiles u a (ss ++ ts) z ↔ ∃ b, Tiles u a ss b ∧ Tiles u b ts z := by
  induction ss generalizing a with
  | nil => simp [Tiles]
  | cons t ss ih =>
    simp only [List.cons_append, Tiles, ih]
    constructor
    · rintro ⟨ha, b, hb, ht⟩
      exact ⟨b, ⟨ha, hb⟩, ht⟩
    · rintro ⟨b, ⟨ha, hb⟩, ht⟩
      exact ⟨ha, b, hb, ht⟩

theorem Tiles.le (h : Tiles u a ts z) : a ≤ z := by
  induction ts generalizing a with
  | nil => exact h.le
  | cons t ts ih => exact (Nat.le_add_right _ _).trans (ih h.2)

theorem Tiles.bounds (h : Tiles u a ts z) (ht : t ∈ ts) : a ≤ t.addr ∧ t.addr + u * t.size ≤ z := by
  induction ts generalizing a with
  | nil => simp at ht
  | cons s ts ih =>
    obtain ⟨ha, hr⟩ := h
    obtain rfl | hm := List.mem_cons.mp ht
    · exact ⟨ha.ge, ha ▸ hr.le⟩
    · obtain ⟨h1, h2⟩ := ih hr hm
      exact ⟨(Nat.le_add_right _ _).trans h1, h2⟩

theorem Tiles.aligned (h : Tiles u a ts z) (ht : t ∈ ts) : t.addr % u = a % u := by
  induction ts generalizing a with
  | nil => simp at ht
  | cons s ts ih =>
    obtain ⟨ha, hr⟩ := h
    obtain rfl | hm := List.mem_cons.mp ht
    · rw [ha]
    · rw [ih hr hm, Nat.add_mul_mod_self_left]

theorem Tiles.sorted (hu : 0 < u) (h : Tiles u a ts z) (hp : ∀ t ∈ ts, 0 < t.size) :
    (addrs ts).Pairwise (· < ·) := by
  induction ts generalizing a with
  | nil => exact List.Pairwise.nil
  | cons s ts ih =>
    obtain ⟨rfl, hr⟩ := h
    refine List.pairwise_cons.mpr ⟨?_, ih hr (fun t ht => hp t (List.mem_cons_of_mem _ ht))⟩
    intro b hb
    obtain ⟨t, ht, rfl⟩ := List.mem_map.mp hb
    have hpos := Nat.mul_pos hu (hp s List.mem_cons_self)
    have hle := (hr.bounds ht).1
    omega

theorem Tiles.cover (h : Tiles u a ts z) (ha : a ≤ x) (hz : x < z) :
    ∃! t, t ∈ ts ∧ t.addr ≤ x ∧ x < t.addr + u * t.size := by
  induction ts generalizing a with
  | nil =>
    have hn : a = z := h
    omega
  | cons s ts ih =>
    obtain ⟨rfl, hr⟩ := h
    by_cases hx : x < s.addr + u * s.size
    · refine ⟨s, ⟨List.mem_cons_self, ha, hx⟩, ?_⟩
      rintro t ⟨ht, hle, hlt⟩
      obtain rfl | hm := List.mem_cons.mp ht
      · rfl
      · have hb := (hr.bounds hm).1
        omega
    · obtain ⟨t, ⟨ht, hle, hlt⟩, huniq⟩ := ih hr (by omega)
      refine ⟨t, ⟨List.mem_cons_of_mem _ ht, hle, hlt⟩, ?_⟩
      rintro t' ⟨ht', hle', hlt'⟩
      obtain rfl | hm := List.mem_cons.mp ht'
      · exact absurd hlt' hx
      · exact huniq t' ⟨hm, hle', hlt'⟩

theorem Tiles.sum (h : Tiles u a ts z) : a + u * (ts.map Tile.size).sum = z := by
  induction ts generalizing a with
  | nil => exact h
  | cons s ts ih =>
    have hr := ih h.2
    rw [List.map_cons, List.sum_cons, Nat.mul_add, ← Nat.add_assoc]
    exact hr

theorem Tiles.neighbour (hu : 0 < u) (h : Tiles u a (ss ++ t :: ts) z)
    (hp : ∀ s ∈ ss ++ t :: ts, 0 < s.size) {s : Tile} (hs : s ∈ ss ++ t :: ts)
    (he : t.addr + u * t.size = s.addr) : s ∈ ts.head? := by
  obtain ⟨b, h1, hb, h2⟩ := tiles_append.mp h
  have hmem : s ∈ ts := by
    have ht0 := Nat.mul_pos hu (hp t (by simp))
    obtain hm | hm := List.mem_append.mp hs
    · have hsb := (h1.bounds hm).2
      omega
    · obtain rfl | hm := List.mem_cons.mp hm
      · omega
      · exact hm
  cases ts with
  | nil => simp at hmem
  | cons v ts =>
    obtain rfl | hm := List.mem_cons.mp hmem
    · rfl
    · have hv0 := Nat.mul_pos hu (hp v (by simp))
      have hva := h2.1
      have hsb := (h2.2.bounds hm).1
      omega

@[simp] theorem addrs_append : addrs (ss ++ ts) = addrs ss ++ addrs ts := List.map_append

@[simp] theorem addrs_cons : addrs (t :: ts) = t.addr :: addrs ts := rfl

@[simp] theorem freeAddrs_append : freeAddrs (ss ++ ts) = freeAddrs ss ++ freeAddrs ts := by
  simp [freeAddrs]

@[simp] theorem takenAddrs_append : takenAddrs (ss ++ ts) = takenAddrs ss ++ takenAddrs ts := by
  simp [takenAddrs]

@[simp] theorem freeAddrs_nil : freeAddrs [] = [] := rfl

@[simp] theorem takenAddrs_nil : takenAddrs [] = [] := rfl

theorem freeAddrs_cons :
    freeAddrs (t :: ts) = if t.free then t.addr :: freeAddrs ts else freeAddrs ts := by
  cases h : t.free <;> simp [freeAddrs, h]

theorem takenAddrs_cons :
    takenAddrs (t :: ts) = if t.free then takenAddrs ts else t.addr :: takenAddrs ts := by
  cases h : t.free <;> simp [takenAddrs, h]

theorem mem_addrs : x ∈ addrs ts ↔ ∃ t ∈ ts, t.addr = x := List.mem_map

theorem mem_freeAddrs : x ∈ freeAddrs ts ↔ ∃ t ∈ ts, t.free = true ∧ t.addr = x := by
  simp [freeAddrs, addrs, and_assoc]

theorem mem_takenAddrs : x ∈ takenAddrs ts ↔ ∃ t ∈ ts, t.free = false ∧ t.addr = x := by
  simp [takenAddrs, addrs, and_assoc]

theorem freeAddrs_sublist : (freeAddrs ts).Sublist (addrs ts) := List.filter_sublist.map _

theorem free_append_taken_perm : (freeAddrs ts ++ takenAddrs ts).Perm (addrs ts) := by
  unfold freeAddrs takenAddrs addrs
  rw [← List.map_append]
  exact (List.filter_append_perm _ ts).map _

theorem apart_cons :
    Apart (t :: ts) ↔ Apart ts ∧ (t.free = true → ∀ s ∈ ts.head?, s.free = false) := by
  simp only [Apart, List.isChain_cons, not_and, Bool.not_eq_true]
  constructor
  · rintro ⟨h1, h2⟩
    exact ⟨h2, fun ht s hs => h1 s hs ht⟩
  · rintro ⟨h1, h2⟩
    exact ⟨fun s hs ht => h2 ht s hs, h1⟩

theorem apart_append_cons :
    Apart (ss ++ t :: ts) ↔ Apart ss ∧ Apart ts ∧
      (t.free = true → (∀ s ∈ ss.getLast?, s.free = false) ∧ ∀ s ∈ ts.head?, s.free = false) := by
  simp only [Apart, List.isChain_append, List.isChain_cons, List.head?_cons, Option.mem_some_iff,
    forall_eq', not_and, Bool.not_eq_true]
  constructor
  · rintro ⟨h1, ⟨h2, h3⟩, h4⟩
    refine ⟨h1, h3, fun ht => ⟨fun s hs => ?_, fun s hs => h2 s hs ht⟩⟩
    by_contra hc
    have hn := h4 s hs (by simpa using hc)
    simp [ht] at hn
  · rintro ⟨h1, h2, h3⟩
    refine ⟨h1, ⟨fun s hs ht => (h3 ht).2 s hs, h2⟩, fun s hs hf => ?_⟩
    cases ht : t.free with
    | false => rfl
    | true =>
      have hn := (h3 ht).1 s hs
      simp [hf] at hn

end Jiauliyan.Tiling
