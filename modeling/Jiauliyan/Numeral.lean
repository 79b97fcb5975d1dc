import Mathlib.Data.Nat.Digits.Lemmas

namespace Jiauliyan.Numeral

variable {b n : ℕ}

/-- The numeral of a number in base `b`, from the leading digit down: no leading
zeros, and a single digit for zero. -/
def numeral (b n : ℕ) : List ℕ := if n = 0 then [0] else (Nat.digits b n).reverse

def lowest (b n : ℕ) : ℕ → List ℕ
  | 0 => []
  | k + 1 => n / b ^ k % b :: lowest b n k

/-- Horner's rule. -/
def value (b : ℕ) (ds : List ℕ) : ℕ := ds.foldl (fun acc d => acc * b + d) 0

theorem numeral_zero (b : ℕ) : numeral b 0 = [0] := rfl

theorem numeral_pos (hn : 0 < n) : numeral b n = (Nat.digits b n).reverse :=
  if_neg (by omega)

theorem numeral_of_lt (h : n < b) : numeral b n = [n] := by
  obtain rfl | hn := Nat.eq_zero_or_pos n
  · rfl
  · rw [numeral_pos hn, Nat.digits_of_lt b n (by omega) h, List.reverse_singleton]

theorem numeral_step (hb : 1 < b) (h : b ≤ n) : numeral b n = numeral b (n / b) ++ [n % b] := by
  have hq : 0 < n / b := Nat.div_pos h (by omega)
  rw [numeral_pos (by omega), numeral_pos hq, Nat.digits_def' hb (by omega), List.reverse_cons]

theorem digit_lt (hb : 1 < b) (n : ℕ) : ∀ d ∈ numeral b n, d < b := by
  intro d hd
  obtain rfl | hn := Nat.eq_zero_or_pos n
  · rw [numeral_zero, List.mem_singleton] at hd
    omega
  · rw [numeral_pos hn, List.mem_reverse] at hd
    exact Nat.digits_lt_base hb hd

theorem numeral_ne_nil (hb : 1 < b) (n : ℕ) : numeral b n ≠ [] := by
  obtain h | h := Nat.lt_or_ge n b
  · rw [numeral_of_lt h]
    exact List.cons_ne_nil n []
  · rw [numeral_step hb h]
    exact List.append_ne_nil_of_right_ne_nil _ (List.cons_ne_nil _ _)

theorem leading_pos (hn : 0 < n) {d : ℕ} {ds : List ℕ} (h : numeral b n = d :: ds) : 0 < d := by
  rw [numeral_pos hn, List.reverse_eq_cons_iff] at h
  have hne : Nat.digits b n ≠ [] := Nat.digits_ne_nil_iff_ne_zero.mpr (by omega)
  have hd := Nat.getLast_digit_ne_zero b (m := n) (by omega)
  have he : (Nat.digits b n).getLast hne = d := by simp only [h, List.getLast_append_singleton]
  rw [he] at hd
  exact Nat.pos_of_ne_zero hd

theorem length_le {k : ℕ} (hb : 1 < b) (hk : 0 < k) (h : n < b ^ k) :
    (numeral b n).length ≤ k := by
  obtain rfl | hn := Nat.eq_zero_or_pos n
  · exact hk
  · rw [numeral_pos hn, List.length_reverse]
    exact (Nat.digits_length_le_iff hb n).mpr h

theorem one_lt_length (hb : 1 < b) (h : b ≤ n) : 1 < (numeral b n).length := by
  have hpos := List.length_pos_iff.mpr (numeral_ne_nil hb (n / b))
  rw [numeral_step hb h, List.length_append, List.length_singleton]
  omega

theorem lowest_succ (b n k : ℕ) : lowest b n (k + 1) = lowest b (n / b) k ++ [n % b] := by
  induction k with
  | zero => simp only [lowest, pow_zero, Nat.div_one, List.nil_append]
  | succ k ih =>
    have hd : n / b ^ (k + 1) = n / b / b ^ k := by rw [pow_succ', Nat.div_div_eq_div_mul]
    rw [lowest, ih, hd]
    rfl

theorem numeral_eq_lowest {k : ℕ} (hb : 1 < b) (hlow : b ^ k ≤ n) (hhigh : n < b ^ (k + 1)) :
    numeral b n = lowest b n (k + 1) := by
  induction k generalizing n with
  | zero =>
    have hn : n < b := by simpa only [Nat.zero_add, pow_one] using hhigh
    rw [numeral_of_lt hn, lowest_succ, Nat.mod_eq_of_lt hn]
    rfl
  | succ k ih =>
    have hbn : b ≤ n := (Nat.le_self_pow (by omega) b).trans hlow
    have hq : b ^ k ≤ n / b := by rwa [Nat.le_div_iff_mul_le (by omega), ← pow_succ]
    have hq' : n / b < b ^ (k + 1) := by rwa [Nat.div_lt_iff_lt_mul (by omega), ← pow_succ]
    rw [numeral_step hb hbn, lowest_succ, ih hq hq']

theorem value_append (b : ℕ) (ds : List ℕ) (d : ℕ) : value b (ds ++ [d]) = value b ds * b + d := by
  simp only [value, List.foldl_append, List.foldl_cons, List.foldl_nil]

theorem value_numeral (hb : 1 < b) (n : ℕ) : value b (numeral b n) = n := by
  induction n using Nat.strongRecOn with
  | ind n ih =>
    obtain h | h := Nat.lt_or_ge n b
    · rw [numeral_of_lt h]
      simp only [value, List.foldl_cons, List.foldl_nil, Nat.zero_mul, Nat.zero_add]
    · rw [numeral_step hb h, value_append, ih _ (Nat.div_lt_self (by omega) hb)]
      exact Nat.div_add_mod' n b

theorem foldl_strict {b c : ℕ} (hbc : b ≤ c) (hc : 0 < c) (ds : List ℕ) {m n : ℕ} (h : m < n) :
    ds.foldl (fun acc d => acc * b + d) m < ds.foldl (fun acc d => acc * c + d) n := by
  induction ds generalizing m n with
  | nil => exact h
  | cons d ds ih =>
    refine ih (Nat.add_lt_add_right ?_ d)
    calc m * b ≤ m * c := Nat.mul_le_mul_left m hbc
      _ < n * c := Nat.mul_lt_mul_of_pos_right h hc

theorem numeral_eq_iff {b c : ℕ} (hb : 1 < b) (hbc : b < c) (n : ℕ) :
    numeral b n = numeral c n ↔ n < b := by
  refine ⟨fun h => ?_, fun h => ?_⟩
  · by_contra hge
    have hlen := one_lt_length hb (not_lt.mp hge)
    have hvalue := value_numeral hb n
    have hvalue' := value_numeral (hb.trans hbc) n
    rw [← h] at hvalue'
    cases hds : numeral b n with
    | nil => exact numeral_ne_nil hb n hds
    | cons d ds =>
      have hd := leading_pos (by omega) hds
      cases ds with
      | nil =>
        rw [hds] at hlen
        exact absurd hlen (lt_irrefl _)
      | cons e ds =>
        rw [hds] at hvalue hvalue'
        have hsecond : (0 * b + d) * b + e < (0 * c + d) * c + e := by
          rw [Nat.zero_mul, Nat.zero_mul, Nat.zero_add]
          exact Nat.add_lt_add_right (Nat.mul_lt_mul_of_pos_left hbc hd) e
        have hlt := foldl_strict hbc.le (by omega) ds hsecond
        exact absurd (hvalue.trans hvalue'.symm) hlt.ne
  · rw [numeral_of_lt h, numeral_of_lt (h.trans hbc)]

end Jiauliyan.Numeral
