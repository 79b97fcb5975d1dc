import Mathlib.Data.List.Basic
import Jiauliyan.Execution
import Jiauliyan.Memory

namespace Jiauliyan.MemoryInit

open Jiauliyan.Execution Jiauliyan.Memory

/-- A `multiboot_memory_map_t`, which is packed. -/
structure Entry where
  size : ℕ
  addr : ℕ
  len : ℕ
  type : ℕ
  deriving DecidableEq

def entryAt (m : Mem) (a : ℕ) : Entry :=
  ⟨load32 m a, load64 m (a + 4), load64 m (a + 12), load32 m (a + 20)⟩

def MULTIBOOT_MEMORY_AVAILABLE : ℕ := 1

structure Region where
  ptr : ℕ
  size : ℕ
  deriving DecidableEq

def unset : Region := ⟨0, 0⟩

/-- The pointer keeps the low half of the address. -/
def pick (r : Region) (e : Entry) : Region := if r.size < e.len then ⟨u32 e.addr, e.len⟩ else r

/-- The loop of `memory_init`: the next entry is the one that is looked at. -/
def memoryInitBody (m : Mem) (mmapAddr mmapLength : ℕ) :
    ℕ × Region → (ℕ × Region) ⊕ Region
  | (mmap, r) =>
    if mmap < u32 (mmapAddr + mmapLength) then
      let mmap' := u32 (mmap + (entryAt m mmap).size + 4)
      .inl (mmap', pick r (entryAt m mmap'))
    else .inr r

/-- The call of `memory_init` ends with these values of the statics. -/
def Initialises (m : Mem) (mmapAddr mmapLength : ℕ) (r : Region) : Prop :=
  Exits (memoryInitBody m mmapAddr mmapLength) (mmapAddr, unset) r

inductive Laid (m : Mem) : ℕ → List Entry → ℕ → Prop
  | nil (a : ℕ) : Laid m a [] a
  | cons {a z : ℕ} {es : List Entry} : 20 ≤ (entryAt m a).size →
      Laid m (a + (entryAt m a).size + 4) es z → Laid m a (entryAt m a :: es) z

/-- A memory map as the boot loader leaves it. -/
structure MemoryMap where
  mem : Mem
  mmapAddr : ℕ
  mmapLength : ℕ
  entries : List Entry
  laid : Laid mem mmapAddr entries (mmapAddr + mmapLength)
  fits : mmapAddr + mmapLength < 4294967296

/-- The entries that `memory_init` looks at: all but the first, and what
stands behind the map, which ends at `z`. -/
def visited (m : Mem) (z : ℕ) : List Entry → List Entry
  | [] => []
  | _ :: es => es ++ [entryAt m z]

def MemoryMap.visited (t : MemoryMap) : List Entry :=
  MemoryInit.visited t.mem (t.mmapAddr + t.mmapLength) t.entries

/-- The first of the longest entries of a list. -/
def Longest (es : List Entry) (e : Entry) : Prop :=
  0 < e.len ∧ ∃ l r, es = l ++ e :: r ∧ (∀ x ∈ l, x.len < e.len) ∧ ∀ x ∈ r, x.len ≤ e.len

section Picking

variable {es l : List Entry} {e : Entry} {r : Region}

theorem pick_none (h : ∀ x ∈ l, x.len ≤ r.size) : l.foldl pick r = r := by
  induction l with
  | nil => rfl
  | cons x l ih =>
    have hx : ¬r.size < x.len := Nat.not_lt.mpr (h x List.mem_cons_self)
    rw [List.foldl_cons, pick, if_neg hx]
    exact ih fun y hy => h y (List.mem_cons_of_mem x hy)

theorem pick_below {n : ℕ} (hr : r.size < n) (h : ∀ x ∈ l, x.len < n) :
    (l.foldl pick r).size < n := by
  induction l generalizing r with
  | nil => exact hr
  | cons x l ih =>
    refine ih ?_ fun y hy => h y (List.mem_cons_of_mem x hy)
    rw [pick]
    split
    · exact h x List.mem_cons_self
    · exact hr

theorem Longest.picked (h : Longest es e) : es.foldl pick unset = ⟨u32 e.addr, e.len⟩ := by
  obtain ⟨hpos, l, r, rfl, hl, hr⟩ := h
  have hbelow : (l.foldl pick unset).size < e.len := pick_below hpos hl
  rw [List.foldl_append, List.foldl_cons, pick, if_pos hbelow]
  exact pick_none hr

theorem Longest.le (h : Longest es e) : ∀ x ∈ es, x.len ≤ e.len := by
  obtain ⟨-, l, r, rfl, hl, hr⟩ := h
  intro x hx
  obtain hx | hx := List.mem_append.mp hx
  · exact Nat.le_of_lt (hl x hx)
  · obtain rfl | hx := List.mem_cons.mp hx
    · exact Nat.le_refl _
    · exact hr x hx

theorem longest_cases (es : List Entry) : (∀ x ∈ es, x.len = 0) ∨ ∃ e, Longest es e := by
  induction es using List.reverseRecOn with
  | nil => exact Or.inl nofun
  | append_singleton es e ih =>
    obtain hzero | ⟨y, hy⟩ := ih
    · obtain h0 | hpos := Nat.eq_zero_or_pos e.len
      · left
        intro x hx
        obtain hx | hx := List.mem_append.mp hx
        · exact hzero x hx
        · rw [List.mem_singleton.mp hx]
          exact h0
      · exact Or.inr ⟨e, hpos, es, [], rfl, fun x hx => (hzero x hx).symm ▸ hpos, nofun⟩
    · right
      have hle := hy.le
      obtain ⟨hpos, l, r, rfl, hl, hr⟩ := hy
      by_cases hlt : y.len < e.len
      · exact ⟨e, hpos.trans hlt, _, [], rfl, fun x hx => (hle x hx).trans_lt hlt, nofun⟩
      · refine ⟨y, hpos, l, r ++ [e], by simp, hl, fun x hx => ?_⟩
        obtain hx | hx := List.mem_append.mp hx
        · exact hr x hx
        · rw [List.mem_singleton.mp hx]
          exact Nat.le_of_not_lt hlt

end Picking

section Loop

variable {m : Mem} {a z mmapAddr mmapLength : ℕ} {es : List Entry}

theorem Laid.le (h : Laid m a es z) : a ≤ z := by
  induction h with
  | nil a => exact Nat.le_refl a
  | cons _ _ ih => omega

theorem Laid.exits (h : Laid m a es z) (hz : u32 (mmapAddr + mmapLength) = z) (r : Region) :
    Exits (memoryInitBody m mmapAddr mmapLength) (a, r) ((visited m z es).foldl pick r) := by
  have hlt : z < 4294967296 := by
    rw [← hz]
    exact Nat.mod_lt _ (by decide)
  induction h generalizing r with
  | nil a =>
    have hend : ¬a < u32 (mmapAddr + mmapLength) := by omega
    exact exits_of_inr (by simp only [memoryInitBody, if_neg hend]; rfl)
  | @cons a z es hsize hrest ih =>
    have hle := hrest.le
    have hin : a < u32 (mmapAddr + mmapLength) := by omega
    have hnext : u32 (a + (entryAt m a).size + 4) = a + (entryAt m a).size + 4 := u32_eq (by omega)
    have hbody : memoryInitBody m mmapAddr mmapLength (a, r) =
        .inl (a + (entryAt m a).size + 4, pick r (entryAt m (a + (entryAt m a).size + 4))) := by
      simp only [memoryInitBody, if_pos hin, hnext]
    refine exits_of_inl hbody ?_
    have hexits := ih hz (pick r (entryAt m (a + (entryAt m a).size + 4))) hlt
    cases hrest with
    | nil => exact hexits
    | cons _ _ => exact hexits

theorem MemoryMap.initialises (t : MemoryMap) :
    Initialises t.mem t.mmapAddr t.mmapLength (t.visited.foldl pick unset) :=
  t.laid.exits (u32_eq t.fits) unset

end Loop

end Jiauliyan.MemoryInit
