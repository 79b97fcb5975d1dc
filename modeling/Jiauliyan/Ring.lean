import Mathlib.Data.List.Rotate
import Mathlib.Data.List.Chain
import Mathlib.Order.Defs.LinearOrder
import Jiauliyan.Execution

namespace Jiauliyan.Ring

open Jiauliyan.Execution

variable {α : Type*} {next next' : α → α}

def IsRing (next : α → α) (l : List α) : Prop := l.map next = l.rotate 1

theorem isRing_cons {x : α} {l : List α} : IsRing next (x :: l) ↔ (x :: l).map next = l ++ [x] := by
  simp [IsRing]

theorem IsRing.rotate {l : List α} (h : IsRing next l) (n : ℕ) : IsRing next (l.rotate n) := by
  unfold IsRing at *
  rw [List.map_rotate, h, List.rotate_rotate, List.rotate_rotate, Nat.add_comm]

theorem isRing_rotate_iff {l : List α} (n : ℕ) : IsRing next (l.rotate n) ↔ IsRing next l := by
  refine ⟨fun h => ?_, fun h => h.rotate n⟩
  unfold IsRing at *
  rw [List.map_rotate, List.rotate_rotate, Nat.add_comm, ← List.rotate_rotate] at h
  exact List.rotate_injective n h

theorem isRing_append_comm {l m : List α} : IsRing next (l ++ m) ↔ IsRing next (m ++ l) := by
  rw [← List.rotate_append_length_eq l m, isRing_rotate_iff]

theorem IsRing.congr {l : List α} (h : IsRing next l) (he : ∀ x ∈ l, next' x = next x) :
    IsRing next' l := by
  unfold IsRing at *
  rw [← h]
  exact List.map_congr_left he

theorem IsRing.next_mem {l : List α} (h : IsRing next l) {x : α} (hx : x ∈ l) : next x ∈ l := by
  have hm : next x ∈ l.map next := List.mem_map_of_mem hx
  rw [h] at hm
  exact List.mem_rotate.mp hm

theorem IsRing.next_inj {l : List α} (h : IsRing next l) (hn : l.Nodup) {x y : α}
    (hx : x ∈ l) (hy : y ∈ l) (he : next x = next y) : x = y := by
  have hm : (l.map next).Nodup := by
    rw [h]
    exact List.nodup_rotate.mpr hn
  exact List.inj_on_of_nodup_map hm hx hy he

theorem IsRing.next_eq {l m : List α} {x y : α} (h : IsRing next (l ++ x :: y :: m)) :
    next x = y := by
  rw [isRing_append_comm, List.cons_append, isRing_cons] at h
  simpa using congrArg List.head? h

theorem IsRing.next_last {l m : List α} {x b : α} (h : IsRing next (l ++ [x]))
    (hb : l ++ [x] = b :: m) : next x = b := by
  rw [isRing_append_comm, List.singleton_append, isRing_cons, hb] at h
  simpa using congrArg List.head? h

theorem IsRing.insert {l m : List α} {x y : α} (h : IsRing next (l ++ x :: m))
    (hx : next' x = y) (hy : next' y = next x) (he : ∀ z ∈ m ++ l, next' z = next z) :
    IsRing next' (l ++ x :: y :: m) := by
  rw [isRing_append_comm, List.cons_append, isRing_cons] at h ⊢
  have hm : (m ++ l).map next' = (m ++ l).map next := List.map_congr_left he
  simp only [List.cons_append, List.map_cons, hx, hy, hm]
  simpa using h

theorem IsRing.remove {l m : List α} {x y : α} (h : IsRing next (l ++ x :: y :: m))
    (hx : next' x = next y) (he : ∀ z ∈ m ++ l, next' z = next z) :
    IsRing next' (l ++ x :: m) := by
  rw [isRing_append_comm, List.cons_append, isRing_cons] at h ⊢
  have hm : (m ++ l).map next' = (m ++ l).map next := List.map_congr_left he
  have ht := congrArg List.tail h
  simp only [List.map_cons, hx, hm]
  simpa using ht

/-- Following `next` from a node of the ring passes every node once and
comes back to it. -/
theorem IsRing.chain_from {l : List α} (h : IsRing next l) {x : α} (hx : x ∈ l) :
    ∃ m, (x :: m) ~r l ∧ List.IsChain (fun a b => next a = b) (x :: m ++ [x]) := by
  obtain ⟨a, b, rfl⟩ := List.append_of_mem hx
  refine ⟨b ++ a, ?_, ?_⟩
  · exact (List.isRotated_append : (x :: b) ++ a ~r a ++ (x :: b))
  · rw [isRing_append_comm, List.cons_append, isRing_cons] at h
    have hchain : ∀ (m : List α) (y z : α), (y :: m).map next = m ++ [z] →
        List.IsChain (fun a b => next a = b) (y :: m ++ [z]) := by
      intro m
      induction m with
      | nil =>
        intro y z hy
        simpa using hy
      | cons w m ih =>
        intro y z hy
        simp only [List.map_cons, List.cons_append, List.cons.injEq] at hy
        have hw := ih w z (by simpa using hy.2)
        simp only [List.cons_append] at hw ⊢
        exact List.isChain_cons_cons.mpr ⟨hy.1, hw⟩
    exact hchain _ _ _ h

/-- A walk along a chain stops at one of its nodes as soon as one of them
asks for it. -/
theorem walk_exits {stop : α → Prop} [DecidablePred stop] {x : α} {l : List α}
    (h : List.IsChain (fun a b => next a = b) (x :: l)) (hs : ∃ y ∈ x :: l, stop y) :
    ∃ y ∈ x :: l, stop y ∧
      Exits (fun z => if stop z then .inr z else .inl (next z)) x y := by
  induction l generalizing x with
  | nil =>
    obtain ⟨y, hy, hst⟩ := hs
    obtain rfl := List.mem_singleton.mp hy
    exact ⟨y, hy, hst, exits_of_inr (by simp [hst])⟩
  | cons w l ih =>
    by_cases hx : stop x
    · exact ⟨x, List.mem_cons_self, hx, exits_of_inr (by simp [hx])⟩
    · obtain ⟨hw, ht⟩ := List.isChain_cons_cons.mp h
      have hs' : ∃ y ∈ w :: l, stop y := by
        obtain ⟨y, hy, hst⟩ := hs
        obtain rfl | hy := List.mem_cons.mp hy
        · exact absurd hst hx
        · exact ⟨y, hy, hst⟩
      obtain ⟨y, hy, hst, hex⟩ := ih ht hs'
      exact ⟨y, List.mem_cons_of_mem _ hy, hst, exits_of_inl (by simp [hx, hw]) hex⟩

theorem IsRing.walk {stop : α → Prop} [DecidablePred stop] {l : List α} (h : IsRing next l) {x : α}
    (hx : x ∈ l) (hs : ∃ y ∈ l, stop y) :
    ∃ y ∈ l, stop y ∧ Exits (fun z => if stop z then .inr z else .inl (next z)) x y := by
  obtain ⟨m, hr, hc⟩ := h.chain_from hx
  have hmem : ∀ y, y ∈ x :: m ++ [x] ↔ y ∈ l := by
    intro y
    rw [← hr.mem_iff]
    simp only [List.cons_append, List.mem_cons, List.mem_append, List.not_mem_nil, or_false]
    tauto
  obtain ⟨y, hy, hst⟩ := hs
  obtain ⟨z, hz, hsz, hex⟩ := walk_exits hc ⟨y, (hmem y).mpr hy, hst⟩
  exact ⟨z, (hmem z).mp hz, hsz, hex⟩

theorem IsRing.one_wrap [Preorder α] {l : List α} (h : IsRing next l) (hl : l ≠ [])
    (hs : l.Pairwise (· < ·)) : ∃! x, x ∈ l ∧ next x ≤ x := by
  obtain ⟨m, z, rfl⟩ : ∃ m z, l = m ++ [z] := ⟨_, _, (List.dropLast_append_getLast hl).symm⟩
  refine ⟨z, ⟨by simp, ?_⟩, ?_⟩
  · cases m with
    | nil => exact (h.next_last rfl).le
    | cons b m =>
      rw [h.next_last rfl]
      exact ((List.pairwise_cons.mp hs).1 z (by simp)).le
  · rintro x ⟨hx, hle⟩
    obtain ⟨c, d, hcd⟩ := List.append_of_mem hx
    cases d with
    | nil => exact (List.cons.inj (List.append_inj' hcd rfl).2).1.symm
    | cons y d =>
      rw [hcd] at h hs
      have hlt := (List.pairwise_cons.mp (List.pairwise_append.mp hs).2.1).1 y List.mem_cons_self
      rw [h.next_eq] at hle
      exact absurd hlt hle.not_gt

end Jiauliyan.Ring
