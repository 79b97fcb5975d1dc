import Mathlib.Logic.Function.Basic
import Mathlib.Order.Lattice
import Jiauliyan.Execution

namespace Jiauliyan.Cursors

open Jiauliyan.Execution

variable {K α : Type*} [DecidableEq K]

inductive Op (K α : Type*)
  | put (k : K) (c : α)
  | get (k : K)
  | seek (k : K) (pos : ℕ)

structure Cells (K α : Type*) where
  item : ℕ → α
  size : ℕ
  cursor : K → ℕ

def Cells.empty (blank : α) : Cells K α := ⟨fun _ => blank, 0, fun _ => 0⟩

/-- The reply is the item read, if there is one. -/
def Cells.step (s : Cells K α) : Op K α → Option α × Cells K α
  | .put k c =>
    (none, ⟨Function.update s.item (s.cursor k) c, max s.size (s.cursor k + 1),
      Function.update s.cursor k (s.cursor k + 1)⟩)
  | .get k =>
    if s.cursor k < s.size then
      (some (s.item (s.cursor k)),
        { s with cursor := Function.update s.cursor k (s.cursor k + 1) })
    else (none, s)
  | .seek k pos => (none, { s with cursor := Function.update s.cursor k pos })

/-- A buffer that holds an array, with room behind it. -/
structure Buffer (K α : Type*) where
  buf : ℕ → α
  size : ℕ
  capacity : ℕ
  cursor : K → ℕ

section Growth

variable (grow : (ℕ → α) → ℕ → ℕ → ℕ → α) (chunk : ℕ)

def Buffer.room (b : Buffer K α) (k : K) : Buffer K α :=
  if b.capacity ≤ b.cursor k then
    { b with capacity := b.capacity + chunk, buf := grow b.buf b.capacity (b.capacity + chunk) }
  else b

def Buffer.step (b : Buffer K α) : Op K α → Option α × Buffer K α
  | .put k c =>
    let r := b.room grow chunk k
    (none, ⟨Function.update r.buf (b.cursor k) c, max b.size (b.cursor k + 1), r.capacity,
      Function.update b.cursor k (b.cursor k + 1)⟩)
  | .get k =>
    if b.cursor k < b.size then
      (some (b.buf (b.cursor k)),
        { b with cursor := Function.update b.cursor k (b.cursor k + 1) })
    else (none, b)
  | .seek k pos => (none, { b with cursor := Function.update b.cursor k pos })

end Growth

def Buffer.touches (b : Buffer K α) : Op K α → List ℕ
  | .put k _ => [b.cursor k]
  | .get k => if b.cursor k < b.size then [b.cursor k] else []
  | .seek _ _ => []

def Buffer.cells (blank : α) (b : Buffer K α) : Cells K α :=
  ⟨fun i => if i < b.size then b.buf i else blank, b.size, b.cursor⟩

def Buffer.Fits (b : Buffer K α) : Prop := b.size ≤ b.capacity

/-- The operation does to the array what it is meant to, inside of the buffer. -/
structure Simulates (blank : α) (b : Buffer K α) (op : Op K α) (b' : Buffer K α) : Prop where
  cells : b'.cells blank = ((b.cells blank).step op).2
  inside : ∀ i ∈ b.touches op, i < b'.capacity

/-- A chunk is enough to reach the cursor of a `put`, and what it skips is blank. -/
def Reaches (grow : (ℕ → α) → ℕ → ℕ → ℕ → α) (chunk : ℕ) (blank : α) (b : Buffer K α) :
    Op K α → Prop
  | .put k _ =>
    b.cursor k < b.capacity + chunk ∧
      ∀ i, b.size ≤ i → i < b.cursor k → (b.room grow chunk k).buf i = blank
  | _ => True

section Simulation

variable {grow : (ℕ → α) → ℕ → ℕ → ℕ → α} {chunk : ℕ} {blank : α}

omit [DecidableEq K] in
theorem reaches_of_le (hc : 0 < chunk) {b : Buffer K α} (hb : b.Fits) {op : Op K α}
    (h : ∀ k c, op = .put k c → b.cursor k ≤ b.size) : Reaches grow chunk blank b op := by
  cases op with
  | put k c =>
    have hle := h k c rfl
    have hfit : b.size ≤ b.capacity := hb
    exact ⟨by omega, fun i hi hlt => by omega⟩
  | get k => trivial
  | seek k pos => trivial

theorem Simulates.fits {b b' : Buffer K α} {op : Op K α}
    (h : Simulates blank b op b') (hb : b.Fits) (hle : b.capacity ≤ b'.capacity) :
    b'.Fits := by
  have hsize : b'.size = ((b.cells blank).step op).2.size := congrArg Cells.size h.cells
  have hfit : b.size ≤ b.capacity := hb
  unfold Buffer.Fits
  cases op with
  | put k c =>
    have hin := h.inside (b.cursor k) List.mem_cons_self
    have hmax : b'.size = max b.size (b.cursor k + 1) := hsize
    omega
  | get k =>
    have hsame : b'.size = b.size := by
      rw [hsize, Cells.step]
      split_ifs <;> rfl
    omega
  | seek k pos =>
    have hsame : b'.size = b.size := hsize
    omega

omit [DecidableEq K] in
theorem room_capacity (b : Buffer K α) (k : K) :
    b.capacity ≤ (b.room grow chunk k).capacity ∧
      (b.cursor k < (b.room grow chunk k).capacity ↔ b.cursor k < b.capacity + chunk) := by
  unfold Buffer.room
  split_ifs with h
  · exact ⟨Nat.le_add_right _ _, Iff.rfl⟩
  · exact ⟨le_rfl, iff_of_true (by omega) (by omega)⟩

variable (hkeep : ∀ data old new i, i < old → i < new → grow data old new i = data i)

include hkeep in
omit [DecidableEq K] in
theorem room_keeps (b : Buffer K α) (k : K) {i : ℕ} (hi : i < b.capacity) :
    (b.room grow chunk k).buf i = b.buf i := by
  unfold Buffer.room
  split_ifs
  · exact hkeep _ _ _ _ hi (by omega)
  · rfl

omit hkeep in
theorem put_item (b : Buffer K α) (k : K) (c : α) (i : ℕ) :
    ((b.step grow chunk (.put k c)).2.cells blank).item i =
      if i < max b.size (b.cursor k + 1) then
        Function.update (b.room grow chunk k).buf (b.cursor k) c i else blank := rfl

include hkeep in
theorem put_cells_iff {b : Buffer K α} (hb : b.Fits) (k : K) (c : α) :
    ((b.step grow chunk (.put k c)).2.cells blank = ((b.cells blank).step (.put k c)).2) ↔
      ∀ i, b.size ≤ i → i < b.cursor k → (b.room grow chunk k).buf i = blank := by
  have hfit : b.size ≤ b.capacity := hb
  have hput : ∀ i, ((b.cells blank).step (.put k c)).2.item i =
      Function.update (b.cells blank).item (b.cursor k) c i := fun i => rfl
  have hcell : ∀ i, (b.cells blank).item i = if i < b.size then b.buf i else blank := fun i => rfl
  constructor
  · intro h i hlo hhi
    have hi := congrFun (congrArg Cells.item h) i
    have hne : i ≠ b.cursor k := by omega
    have hlt : i < max b.size (b.cursor k + 1) := by omega
    have hold : ¬i < b.size := by omega
    rwa [put_item, if_pos hlt, Function.update_of_ne hne, hput, Function.update_of_ne hne, hcell,
      if_neg hold] at hi
  · intro h
    have hitem : ((b.step grow chunk (.put k c)).2.cells blank).item =
        ((b.cells blank).step (.put k c)).2.item := by
      funext i
      rw [put_item, hput]
      by_cases hi : i = b.cursor k
      · have hlt : i < max b.size (b.cursor k + 1) := by omega
        rw [if_pos hlt, hi, Function.update_self, Function.update_self]
      rw [Function.update_of_ne hi, Function.update_of_ne hi, hcell]
      by_cases hold : i < b.size
      · have hlt : i < max b.size (b.cursor k + 1) := by omega
        rw [if_pos hlt, if_pos hold, room_keeps hkeep b k (by omega)]
      rw [if_neg hold]
      by_cases hgap : i < b.cursor k
      · have hlt : i < max b.size (b.cursor k + 1) := by omega
        rw [if_pos hlt, h i (by omega) hgap]
      · have hge : ¬i < max b.size (b.cursor k + 1) := by omega
        rw [if_neg hge]
    unfold Buffer.cells Cells.step at hitem ⊢
    exact congrArg (Cells.mk · _ _) hitem

theorem step_reply (b : Buffer K α) (op : Op K α) :
    (b.step grow chunk op).1 = ((b.cells blank).step op).1 := by
  cases op with
  | put k c => rfl
  | get k =>
    by_cases hlt : b.cursor k < b.size <;> simp [Buffer.step, Buffer.cells, Cells.step, hlt]
  | seek k pos => rfl

include hkeep in
/-- An operation on a buffer simulates that on the array exactly if it reaches
its place. -/
theorem simulates_iff {b : Buffer K α} (hb : b.Fits) (op : Op K α) :
    Simulates blank b op (b.step grow chunk op).2 ↔
      Reaches grow chunk blank b op := by
  cases op with
  | put k c =>
    have hcap : b.cursor k < (b.room grow chunk k).capacity ↔ b.cursor k < b.capacity + chunk :=
      (room_capacity b k).2
    rw [Reaches, ← put_cells_iff hkeep hb k c, ← hcap]
    exact ⟨fun h => ⟨h.inside _ List.mem_cons_self, h.cells⟩,
      fun h => ⟨h.2, fun i hi => List.mem_singleton.mp hi ▸ h.1⟩⟩
  | get k =>
    have hfit : b.size ≤ b.capacity := hb
    refine iff_of_true ⟨?_, fun i hi => ?_⟩ trivial
    · by_cases hlt : b.cursor k < b.size <;> simp [Buffer.step, Buffer.cells, Cells.step, hlt]
    · by_cases hlt : b.cursor k < b.size
      · have hi' : i = b.cursor k := by simpa [Buffer.touches, hlt] using hi
        simp only [Buffer.step, if_pos hlt]
        omega
      · simp [Buffer.touches, hlt] at hi
  | seek k pos =>
    refine iff_of_true ⟨rfl, fun i hi => ?_⟩ trivial
    cases hi

theorem step_capacity (b : Buffer K α) (op : Op K α) :
    b.capacity ≤ (b.step grow chunk op).2.capacity := by
  cases op with
  | put k c => exact (room_capacity b k).1
  | get k =>
    rw [Buffer.step]
    split_ifs <;> exact le_rfl
  | seek k pos => exact le_rfl

end Simulation

end Jiauliyan.Cursors
