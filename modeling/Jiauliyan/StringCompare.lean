import Mathlib.Data.List.GetD
import Mathlib.Data.List.TakeWhile
import Jiauliyan.CString

namespace Jiauliyan.StringCompare

open Jiauliyan.CString

/-- The bytes from a `char` pointer on, up to the end of their array. -/
abbrev Chars := List UInt8

def strlen : Chars → ℕ
  | [] => 0
  | c :: s => if c ≠ 0 then strlen s + 1 else 0

def strcmpFrom (a b : Chars) (i : ℕ) : ℤ :=
  if i < strlen a ∧ i < strlen b then
    let val := schar (a.getD i 0) - schar (b.getD i 0)
    if val ≠ 0 then val else strcmpFrom a b (i + 1)
  else if i = strlen a ∧ i < strlen b then 0 - schar (b.getD i 0)
  -- the source tests the same condition a second time
  else if i = strlen a ∧ i < strlen b then schar (a.getD i 0) - 0
  else 0
termination_by strlen a - i

def strcmp (a b : Chars) : ℤ := strcmpFrom a b 0

def strncpy (src : Chars) : ℕ → Chars
  | 0 => []
  | n + 1 =>
    let c := src.headD 0
    if c = 0 then 0 :: List.replicate n 0 else c :: strncpy src.tail n

/-- The string that a pointer denotes. -/
def content (s : Chars) : Chars := s.takeWhile (· ≠ 0)

theorem strlen_eq (s : Chars) : strlen s = (content s).length := by
  induction s with
  | nil => rfl
  | cons c s ih =>
    by_cases hc : c = 0
    · simp [strlen, content, hc]
    · simpa [strlen, content, hc] using ih

theorem content_getElem {s : Chars} {i : ℕ} (h : i < (content s).length) :
    (content s)[i] = s.getD i 0 := by
  have hpre : content s <+: s := List.takeWhile_prefix _
  rw [hpre.getElem h, List.getD_eq_getElem _ _ (h.trans_le hpre.length_le)]

theorem content_ne_zero {s : Chars} {i : ℕ} (h : i < (content s).length) : s.getD i 0 ≠ 0 := by
  rw [← content_getElem h]
  have hmem := List.mem_takeWhile_imp (List.getElem_mem h)
  simpa using hmem

theorem content_no_zero (s : Chars) : 0 ∉ content s := by
  intro h
  have h0 := List.mem_takeWhile_imp h
  simp at h0

theorem content_append_mem {s : Chars} (h : 0 ∈ s) (t : Chars) : content (s ++ t) = content s := by
  induction s with
  | nil => cases h
  | cons c s ih =>
    by_cases hc : c = 0
    · simp [content, hc]
    · have hs := ih ((List.mem_cons.mp h).resolve_left (Ne.symm hc))
      simpa [content, hc] using hs

theorem content_append {s : Chars} (h : 0 ∉ s) (t : Chars) : content (s ++ t) = s ++ content t := by
  induction s with
  | nil => rfl
  | cons c s ih =>
    have hc : c ≠ 0 := fun h0 => h (h0 ▸ List.mem_cons_self)
    have hs := ih fun hm => h (List.mem_cons_of_mem c hm)
    simpa [content, hc] using hs

theorem content_getD_of_ne {s : Chars} {i : ℕ} (h : ∀ k ≤ i, s.getD k 0 ≠ 0) :
    (content s).getD i 0 = s.getD i 0 := by
  induction s generalizing i with
  | nil => rfl
  | cons c s ih =>
    have hc : c ≠ 0 := h 0 (Nat.zero_le i)
    have hcons : content (c :: s) = c :: content s :=
      List.takeWhile_cons_of_pos (by simpa using hc)
    rw [hcons]
    cases i with
    | zero => rfl
    | succ i => exact ih fun k hk => h (k + 1) (Nat.succ_le_succ hk)

theorem content_getD_of_eq {s : Chars} {k i : ℕ} (hk : k ≤ i) (h : s.getD k 0 = 0) :
    (content s).getD i 0 = 0 := by
  have hlen : ¬i < (content s).length := fun hi => content_ne_zero (hk.trans_lt hi) h
  exact List.getD_eq_default _ _ (Nat.le_of_not_lt hlen)

theorem schar_inj {x y : UInt8} (h : schar x = schar y) : x = y := by
  have hx := x.toNat_lt
  have hy := y.toNat_lt
  apply UInt8.toNat.inj
  unfold schar at h
  split_ifs at h <;> omega

theorem schar_eq_zero {x : UInt8} (h : schar x = 0) : x = 0 := schar_inj h

theorem drop_prefix_drop {l m : Chars} {i : ℕ} (hl : i < l.length) (hm : i < m.length) :
    l.drop i <+: m.drop i ↔ l[i] = m[i] ∧ l.drop (i + 1) <+: m.drop (i + 1) := by
  rw [List.drop_eq_getElem_cons hl, List.drop_eq_getElem_cons hm, List.cons_prefix_cons]

theorem strcmpFrom_eq_zero (a b : Chars) (i : ℕ) (ha : i ≤ (content a).length)
    (hb : i ≤ (content b).length) :
    strcmpFrom a b i = 0 ↔ (content b).drop i <+: (content a).drop i := by
  induction i using strcmpFrom.induct a b with
  | case1 i h val hval =>
    -- a difference at `i`
    rw [strlen_eq, strlen_eq] at h
    rw [strcmpFrom, strlen_eq, strlen_eq, if_pos h, drop_prefix_drop h.2 h.1, content_getElem,
      content_getElem]
    simp only [val] at hval
    simp only [hval, ne_eq, not_false_eq_true, if_true, false_iff]
    rintro ⟨heq, -⟩
    rw [heq, Int.sub_self] at hval
    exact hval rfl
  | case2 i h val hval ih =>
    rw [strlen_eq, strlen_eq] at h
    rw [strcmpFrom, strlen_eq, strlen_eq, if_pos h, drop_prefix_drop h.2 h.1, content_getElem,
      content_getElem]
    simp only [val] at hval
    have heq : b.getD i 0 = a.getD i 0 := (schar_inj (by omega)).symm
    simp only [hval, if_false]
    rw [ih h.1 h.2]
    exact ⟨fun hp => ⟨heq, hp⟩, fun hp => hp.2⟩
  | case3 i h h' =>
    -- the first string has ended, the second has not
    rw [strlen_eq, strlen_eq] at h h'
    rw [strcmpFrom, strlen_eq, strlen_eq, if_neg h, if_pos h']
    have hend : (content a).drop i = [] := by rw [h'.1, List.drop_length]
    rw [hend, List.prefix_nil, List.drop_eq_nil_iff]
    constructor
    · intro h0
      exact absurd (schar_eq_zero (by omega)) (content_ne_zero h'.2)
    · intro hle
      omega
  | case4 i _ h' h'' => exact absurd h'' h'
  | case5 i h h' _ =>
    rw [strlen_eq, strlen_eq] at h h'
    rw [strcmpFrom, strlen_eq, strlen_eq, if_neg h, if_neg h', if_neg h']
    have hend : (content b).drop i = [] := List.drop_eq_nil_of_le (by omega)
    simp [hend]

/-- `strcmp` finds no difference exactly if its second string is a prefix of the
first one, for a longer first string is not told apart. -/
theorem strcmp_eq_zero (a b : Chars) : strcmp a b = 0 ↔ content b <+: content a := by
  have h := strcmpFrom_eq_zero a b 0 (Nat.zero_le _) (Nat.zero_le _)
  rwa [List.drop_zero, List.drop_zero] at h

theorem content_terminated {s : Chars} (h : 0 ∉ s) (t : Chars) : content (s ++ 0 :: t) = s := by
  have hall : ∀ c ∈ s, decide (c ≠ 0) = true := by
    intro c hc
    rw [decide_eq_true_eq]
    rintro rfl
    exact h hc
  rw [content, List.takeWhile_append_of_pos hall]
  simp

theorem strncpy_eq {s : Chars} (h : 0 ∉ s) (t : Chars) (n : ℕ) :
    strncpy (s ++ 0 :: t) n = s.take n ++ List.replicate (n - s.length) 0 := by
  induction s generalizing n with
  | nil =>
    cases n with
    | zero => rfl
    | succ n => rfl
  | cons c s ih =>
    obtain ⟨hc, hs⟩ := not_or.mp (List.mem_cons.not.mp h)
    cases n with
    | zero => rw [strncpy, List.take_zero, Nat.zero_sub, List.replicate_zero, List.append_nil]
    | succ n =>
      rw [List.cons_append, strncpy, List.headD_cons, if_neg (Ne.symm hc), List.tail_cons, ih hs,
        List.take_succ_cons, List.cons_append, List.length_cons, Nat.add_sub_add_right]

theorem strncpy_short {s : Chars} (h : 0 ∉ s) {n : ℕ} (hn : s.length < n) :
    content (strncpy (s ++ [0]) n) = s := by
  obtain ⟨k, hk⟩ : ∃ k, n - s.length = k + 1 := ⟨n - s.length - 1, by omega⟩
  rw [strncpy_eq h, List.take_of_length_le hn.le, hk, List.replicate_succ, content_terminated h]

end Jiauliyan.StringCompare
