import Jiauliyan.CString

namespace Jiauliyan.MemMove

open Jiauliyan.Memory Jiauliyan.CString

/-- The loop over words, with those below `i` to go. -/
def moveWords (m : Mem) (dest src : ℕ) : ℕ → Mem
  | 0 => m
  | i + 1 =>
    moveWords (store32 m (u32 (dest + 4 * i)) (load32 m (u32 (src + 4 * i)))) dest src i

/-- The loop over bytes, with those below `i` to go. -/
def moveBytes (m : Mem) (dest src : ℕ) : ℕ → Mem
  | 0 => m
  | i + 1 => moveBytes (Function.update m (u32 (dest + i)) (m (u32 (src + i)))) dest src i

def memmove (m : Mem) (dest src count : ℕ) : Mem :=
  if dest < src then memcpy m dest src count
  else if dest % 4 = 0 ∧ src % 4 = 0 ∧ count % 4 = 0 then moveWords m dest src (count / 4)
  else moveBytes m dest src count

def moved (m : Mem) (dest src count : ℕ) : Mem := fun x =>
  if dest ≤ x ∧ x < dest + count then m (src + (x - dest)) else m x

/-- The destination holds what the source held, and nothing else has changed. -/
structure Moves (m m' : Mem) (dest src count : ℕ) : Prop where
  copied : ∀ i < count, m' (dest + i) = m (src + i)
  frame : ∀ x, ¬(dest ≤ x ∧ x < dest + count) → m' x = m x

variable {dest src count : ℕ}

theorem moved_moves (m : Mem) (dest src count : ℕ) :
    Moves m (moved m dest src count) dest src count where
  copied i hi := by
    rw [moved, if_pos (by omega), Nat.add_sub_cancel_left]
  frame _ hx := if_neg hx

theorem moved_zero (m : Mem) (dest src : ℕ) : moved m dest src 0 = m := by
  funext x
  exact if_neg (by omega)

theorem moved_add {m m' : Mem} {n k : ℕ} (hle : src ≤ dest)
    (h : Moves m m' (dest + n) (src + n) k) :
    moved m' dest src n = moved m dest src (n + k) := by
  funext x
  by_cases hlow : dest ≤ x ∧ x < dest + n
  · have hread : m' (src + (x - dest)) = m (src + (x - dest)) := h.frame _ (by omega)
    rw [moved, moved, if_pos hlow, if_pos (by omega), hread]
  · rw [moved, moved, if_neg hlow]
    by_cases hhigh : dest ≤ x ∧ x < dest + (n + k)
    · obtain ⟨i, rfl⟩ : ∃ i, x = dest + n + i := ⟨x - (dest + n), by omega⟩
      have hoffset : src + (dest + n + i - dest) = src + n + i := by omega
      rw [if_pos hhigh, h.copied i (by omega), hoffset]
    · rw [if_neg hhigh, h.frame x (by omega)]

theorem byte_moves (m : Mem) (dest src : ℕ) :
    Moves m (Function.update m dest (m src)) dest src 1 where
  copied i hi := by
    obtain rfl : i = 0 := by omega
    exact Function.update_self ..
  frame x hx := Function.update_of_ne (by omega) ..

theorem load32_bytes (m : Mem) (a : ℕ) :
    UInt8.ofNat (load32 m a) = m a ∧ UInt8.ofNat (load32 m a / 256) = m (a + 1) ∧
      UInt8.ofNat (load32 m a / 65536) = m (a + 2) ∧
      UInt8.ofNat (load32 m a / 16777216) = m (a + 3) := by
  have h0 := (m a).toNat_lt
  have h1 := (m (a + 1)).toNat_lt
  have h2 := (m (a + 2)).toNat_lt
  have h3 := (m (a + 3)).toNat_lt
  refine ⟨?_, ?_, ?_, ?_⟩
  all_goals
    apply UInt8.toNat.inj
    rw [UInt8.toNat_ofNat', load32]
    omega

theorem word_moves (m : Mem) (dest src : ℕ) :
    Moves m (store32 m dest (load32 m src)) dest src 4 where
  copied i hi := by
    obtain ⟨h0, h1, h2, h3⟩ := load32_bytes m src
    obtain rfl | rfl | rfl | rfl : i = 0 ∨ i = 1 ∨ i = 2 ∨ i = 3 := by omega
    · simpa [store32] using h0
    · simpa [store32] using h1
    · simpa [store32] using h2
    · simpa [store32] using h3
  frame _ hx := store32_frame m _ (by omega)

theorem moveBytes_eq (m : Mem) (hle : src ≤ dest) (hd : dest + count ≤ 4294967296) :
    moveBytes m dest src count = moved m dest src count := by
  induction count generalizing m with
  | zero => exact (moved_zero m dest src).symm
  | succ n ih =>
    have hdest : u32 (dest + n) = dest + n := u32_eq (by omega)
    have hsrc : u32 (src + n) = src + n := u32_eq (by omega)
    rw [moveBytes, hdest, hsrc, ih _ (by omega)]
    exact moved_add hle (byte_moves m (dest + n) (src + n))

theorem moveWords_eq (m : Mem) {n : ℕ} (hle : src ≤ dest) (hd : dest + 4 * n ≤ 4294967296) :
    moveWords m dest src n = moved m dest src (4 * n) := by
  induction n generalizing m with
  | zero => exact (moved_zero m dest src).symm
  | succ n ih =>
    have hdest : u32 (dest + 4 * n) = dest + 4 * n := u32_eq (by omega)
    have hsrc : u32 (src + 4 * n) = src + 4 * n := u32_eq (by omega)
    rw [moveWords, hdest, hsrc, ih _ (by omega)]
    exact moved_add hle (word_moves m (dest + 4 * n) (src + 4 * n))

theorem memcpy_eq (m : Mem) (hle : dest ≤ src) (hs : src + count ≤ 4294967296) :
    memcpy m dest src count = moved m dest src count := by
  funext x
  exact memcpy_down m hle hs x

theorem memmove_eq (m : Mem) (hd : dest + count ≤ 4294967296) (hs : src + count ≤ 4294967296) :
    memmove m dest src count = moved m dest src count := by
  unfold memmove
  by_cases hlt : dest < src
  · rw [if_pos hlt]
    exact memcpy_eq m hlt.le hs
  · rw [if_neg hlt]
    by_cases ha : dest % 4 = 0 ∧ src % 4 = 0 ∧ count % 4 = 0
    · have hcount : 4 * (count / 4) = count := by omega
      rw [if_pos ha, moveWords_eq m (not_lt.mp hlt) (by omega), hcount]
    · rw [if_neg ha]
      exact moveBytes_eq m (not_lt.mp hlt) hd

/-- Blocks are moved right for every overlap, and where words can be moved instead of bytes the
result is the same. -/
theorem memmove_moves (m : Mem) (dest src count : ℕ) (hd : dest + count ≤ 4294967296)
    (hs : src + count ≤ 4294967296) :
    Moves m (memmove m dest src count) dest src count ∧
      (src ≤ dest → count % 4 = 0 →
        moveWords m dest src (count / 4) = moveBytes m dest src count) := by
  refine ⟨?_, fun hle hcount => ?_⟩
  · rw [memmove_eq m hd hs]
    exact moved_moves m dest src count
  · have hwords : 4 * (count / 4) = count := by omega
    rw [moveWords_eq m hle (by omega), moveBytes_eq m hle hd, hwords]

theorem memmove_up :
    Moves (fun a => UInt8.ofNat a) (memmove (fun a => UInt8.ofNat a) 5 4 6) 5 4 6 :=
  (memmove_moves _ 5 4 6 (by decide) (by decide)).1

end Jiauliyan.MemMove
