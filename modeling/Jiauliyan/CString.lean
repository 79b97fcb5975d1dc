import Mathlib.Data.Int.Notation
import Jiauliyan.Execution
import Jiauliyan.Memory

namespace Jiauliyan.CString

open Jiauliyan.Execution Jiauliyan.Memory

/-- `char` is signed. -/
def schar (c : UInt8) : ℤ := if c.toNat < 128 then c.toNat else (c.toNat : ℤ) - 256

/-- The value of a 32-bit pattern read as a signed `int`. -/
def i32 (n : ℕ) : ℤ := if u32 n < 2147483648 then u32 n else (u32 n : ℤ) - 4294967296

def memcpy (m : Mem) (dest src : ℕ) : ℕ → Mem
  | 0 => m
  | i + 1 =>
    let m' := memcpy m dest src i
    Function.update m' (u32 (dest + i)) (m' (u32 (src + i)))

/-- The count is a signed `int`: a negative one stores nothing. -/
def memset (m : Mem) (dest : ℕ) (val : UInt8) (count : ℤ) : Mem :=
  Nat.rec m (fun i m' => Function.update m' (u32 (dest + i)) val) count.toNat

def memsetwBody (dest : ℕ) (val : ℕ) (count : ℤ) : ℕ × Mem → (ℕ × Mem) ⊕ Mem
  | (i, m) =>
    if (i : ℤ) < count then .inl ((i + 1) % 65536, store16 m (u32 (dest + 2 * i)) val)
    else .inr m

/-- The index is an `unsigned short`, so a loop that has not ended after
65537 tests never ends. -/
def memsetw (m : Mem) (dest : ℕ) (val : ℕ) (count : ℤ) : Option Mem :=
  loop (memsetwBody dest val count) 65537 (0, m)

theorem memcpy_frame {m : Mem} {dest src n x : ℕ} (hx : ∀ i < n, x ≠ u32 (dest + i)) :
    memcpy m dest src n x = m x := by
  induction n with
  | zero => rfl
  | succ n ih =>
    rw [memcpy, Function.update_of_ne (hx n (Nat.lt_succ_self n))]
    exact ih fun i hi => hx i (Nat.lt_succ_of_lt hi)

theorem memset_frame {m : Mem} {dest x : ℕ} {val : UInt8} {count : ℤ}
    (hx : ∀ i < count.toNat, x ≠ u32 (dest + i)) : memset m dest val count x = m x := by
  unfold memset
  generalize count.toNat = n at hx
  induction n with
  | zero => rfl
  | succ n ih =>
    exact (Function.update_of_ne (hx n (Nat.lt_succ_self n)) _ _).trans
      (ih fun i hi => hx i (Nat.lt_succ_of_lt hi))

/-- A forward copy to lower addresses moves the block as it was, also when the
two ranges overlap. -/
theorem memcpy_down (m : Mem) {dest src n : ℕ} (hd : dest ≤ src) (hs : src + n ≤ 4294967296)
    (x : ℕ) :
    memcpy m dest src n x = if dest ≤ x ∧ x < dest + n then m (src + (x - dest)) else m x := by
  induction n generalizing x with
  | zero =>
    have hx : ¬(dest ≤ x ∧ x < dest + 0) := by omega
    rw [if_neg hx]
    rfl
  | succ n ih =>
    have hdn : u32 (dest + n) = dest + n := u32_eq (by omega)
    have hsn : u32 (src + n) = src + n := u32_eq (by omega)
    have hread : memcpy m dest src n (src + n) = m (src + n) := by
      rw [ih (by omega), if_neg (by omega)]
    simp only [memcpy, hdn, hsn, hread]
    by_cases hx : x = dest + n
    · subst hx
      rw [Function.update_self, if_pos (by omega), Nat.add_sub_cancel_left]
    · rw [Function.update_of_ne hx, ih (by omega)]
      by_cases hin : dest ≤ x ∧ x < dest + n
      · rw [if_pos hin, if_pos (by omega)]
      · rw [if_neg hin, if_neg (by omega)]

/-- Word `j` of the destination; the addresses wrap. -/
def wordAddr (dest j : ℕ) : ℕ := u32 (dest + 2 * j)

/-- What a run of 16-bit stores leaves: words `i` up to `n` hold `val`. -/
structure Stored (m m' : Mem) (dest val i n : ℕ) : Prop where
  low : ∀ j, i ≤ j → j < n → m' (wordAddr dest j) = UInt8.ofNat val
  high : ∀ j, i ≤ j → j < n → m' (wordAddr dest j + 1) = UInt8.ofNat (val / 256)
  frame : ∀ x, (∀ j, i ≤ j → j < n → x ≠ wordAddr dest j ∧ x ≠ wordAddr dest j + 1) → m' x = m x

section Words

variable {m m' : Mem} {dest val i n : ℕ}

theorem wordAddr_apart {j : ℕ} (hi : i < 65536) (hj : j < 65536) (hne : i ≠ j) :
    wordAddr dest i ≠ wordAddr dest j ∧ wordAddr dest i ≠ wordAddr dest j + 1 ∧
      wordAddr dest i + 1 ≠ wordAddr dest j := by
  unfold wordAddr u32
  omega

theorem memsetwBody_step (hi : i < n) (hn : n < 65536) :
    memsetwBody dest val n (i, m) = .inl (i + 1, store16 m (wordAddr dest i) val) := by
  have hlt : (i : ℤ) < n := by omega
  have hwrap : (i + 1) % 65536 = i + 1 := Nat.mod_eq_of_lt (by omega)
  rw [memsetwBody, if_pos hlt, hwrap, wordAddr]

theorem Stored.cons (hi : i < n) (hn : n < 65536)
    (h : Stored (store16 m (wordAddr dest i) val) m' dest val (i + 1) n) :
    Stored m m' dest val i n where
  low j hj hjn := by
    obtain rfl | hlt := Nat.eq_or_lt_of_le hj
    · have hkept := h.frame (wordAddr dest i) fun k hk hkn => by
        obtain ⟨hne, hnext, -⟩ :=
          wordAddr_apart (show i < 65536 by omega) (show k < 65536 by omega) (show i ≠ k by omega)
        exact ⟨hne, hnext⟩
      rw [hkept]
      simp [store16]
    · exact h.low j hlt hjn
  high j hj hjn := by
    obtain rfl | hlt := Nat.eq_or_lt_of_le hj
    · have hkept := h.frame (wordAddr dest i + 1) fun k hk hkn => by
        obtain ⟨hne, -, hnext⟩ :=
          wordAddr_apart (show i < 65536 by omega) (show k < 65536 by omega) (show i ≠ k by omega)
        exact ⟨hnext, fun he => hne (Nat.succ.inj he)⟩
      rw [hkept]
      simp [store16]
    · exact h.high j hlt hjn
  frame x hx := by
    rw [h.frame x fun j hj hjn => hx j (by omega) hjn]
    obtain ⟨hlow, hhigh⟩ := hx i le_rfl hi
    simp [store16, hlow, hhigh]

theorem memsetw_loop (hn : n < 65536) {k fuel : ℕ} (hk : i + k = n) (hf : k < fuel) (m : Mem) :
    ∃ m', loop (memsetwBody dest val n) fuel (i, m) = some m' ∧ Stored m m' dest val i n := by
  induction k generalizing i m fuel with
  | zero =>
    obtain ⟨f, rfl⟩ : ∃ f, fuel = f + 1 := ⟨fuel - 1, by omega⟩
    have hi : ¬((i : ℤ) < n) := by omega
    refine ⟨m, by rw [loop, memsetwBody, if_neg hi], fun j _ _ => ?_, fun j _ _ => ?_,
      fun _ _ => rfl⟩
    · omega
    · omega
  | succ k ih =>
    obtain ⟨f, rfl⟩ : ∃ f, fuel = f + 1 := ⟨fuel - 1, by omega⟩
    obtain ⟨m', hm', hstored⟩ :=
      ih (show i + 1 + k = n by omega) (show k < f by omega) (store16 m (wordAddr dest i) val)
    refine ⟨m', ?_, hstored.cons (by omega) hn⟩
    rw [loop, memsetwBody_step (by omega) hn]
    exact hm'

end Words

structure Filled (m m' : Mem) (dest val i n : ℕ) : Prop where
  low : ∀ j, i ≤ j → j < n → m' (dest + 2 * j) = UInt8.ofNat val
  high : ∀ j, i ≤ j → j < n → m' (dest + 2 * j + 1) = UInt8.ofNat (val / 256)
  frame : ∀ x, x < dest + 2 * i ∨ dest + 2 * n ≤ x → m' x = m x

theorem memsetw_fills (m : Mem) {dest n : ℕ} (val : ℕ) (hn : n < 65536)
    (hd : dest + 2 * n ≤ 4294967296) :
    ∃ m', memsetw m dest val n = some m' ∧ Filled m m' dest val 0 n := by
  obtain ⟨m', hm', hstored⟩ : ∃ m', memsetw m dest val n = some m' ∧ Stored m m' dest val 0 n :=
    memsetw_loop hn (Nat.zero_add n) (by omega) m
  have haddr : ∀ j < n, wordAddr dest j = dest + 2 * j := fun j hj => u32_eq (by omega)
  refine ⟨m', hm', fun j hj hjn => ?_, fun j hj hjn => ?_, fun x hx => ?_⟩
  · rw [← haddr j hjn]
    exact hstored.low j hj hjn
  · rw [← haddr j hjn]
    exact hstored.high j hj hjn
  · refine hstored.frame x fun j _ hjn => ?_
    rw [haddr j hjn]
    omega

end Jiauliyan.CString
