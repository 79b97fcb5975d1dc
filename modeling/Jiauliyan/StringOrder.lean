import Jiauliyan.StringCompare

namespace Jiauliyan.StringOrder

open Jiauliyan.CString Jiauliyan.StringCompare

def strcoll (a b : Chars) : ℤ := strcmp a b

def strstrFrom (s2 : Chars) (s1 : Chars) (l1 : ℤ) (k : ℕ) : Option ℕ :=
  if (strlen s2 : ℤ) ≤ l1 then
    if strcmp s1 s2 ≠ 0 then some k else strstrFrom s2 s1.tail (l1 - 1) (k + 1)
  else none
termination_by (l1 + 1 - strlen s2).toNat

def strstr (s1 s2 : Chars) : Option ℕ := strstrFrom s2 s1 (strlen s1) 0

/-- The result of a comparison agrees with the lexicographic order of unsigned bytes. -/
structure Compares (cmp : Chars → Chars → ℤ) (a b : Chars) : Prop where
  zero : cmp a b = 0 ↔ content a = content b
  neg : cmp a b < 0 ↔ content a < content b
  pos : 0 < cmp a b ↔ content b < content a

/-- `strcmp` and `strcoll` order these strings. -/
structure Orders (S : Set Chars) : Prop where
  strcmp : ∀ a ∈ S, ∀ b ∈ S, Compares strcmp a b
  strcoll : ∀ a ∈ S, ∀ b ∈ S, Compares strcoll a b
  antisymm : ∀ a ∈ S, ∀ b ∈ S, StringCompare.strcmp a b < 0 ↔ 0 < StringCompare.strcmp b a
  trans : ∀ a ∈ S, ∀ b ∈ S, ∀ c ∈ S, StringCompare.strcmp a b < 0 →
    StringCompare.strcmp b c < 0 → StringCompare.strcmp a c < 0

/-- The second string is no proper prefix of the first; where the first is one of the second,
the next byte is below 0x80; and of the first two bytes that differ both are below it or
neither is. -/
def Told : Chars → Chars → Prop
  | [], [] => True
  | [], y :: _ => y < 128
  | _ :: _, [] => False
  | x :: a, y :: b => if x = y then Told a b else (x < 128 ↔ y < 128)

def StartsFirst (s1 s2 : Chars) (k : ℕ) : Prop :=
  content s2 <+: (content s1).drop k ∧ ∀ j < k, ¬content s2 <+: (content s1).drop j

structure FindsFirst (s1 s2 : Chars) : Prop where
  found : ∀ k, strstr s1 s2 = some k ↔ StartsFirst s1 s2 k
  missed : strstr s1 s2 = none ↔ ∀ k, ¬content s2 <+: (content s1).drop k
  empty : content s2 = [] → strstr s1 s2 = some 0

def difference : Chars → Chars → ℤ
  | [], [] => 0
  | [], y :: _ => 0 - schar y
  | _ :: _, [] => 0
  | x :: a, y :: b => if schar x - schar y ≠ 0 then schar x - schar y else difference a b

theorem strcmpFrom_difference (a b : Chars) (i : ℕ) (ha : i ≤ (content a).length)
    (hb : i ≤ (content b).length) :
    strcmpFrom a b i = difference ((content a).drop i) ((content b).drop i) := by
  induction i using strcmpFrom.induct a b with
  | case1 i h val hval =>
    rw [strlen_eq, strlen_eq] at h
    rw [strcmpFrom, strlen_eq, strlen_eq, if_pos h, List.drop_eq_getElem_cons h.1,
      List.drop_eq_getElem_cons h.2, difference, content_getElem, content_getElem]
    exact (if_pos hval).trans (if_pos hval).symm
  | case2 i h val hval ih =>
    rw [strlen_eq, strlen_eq] at h
    rw [strcmpFrom, strlen_eq, strlen_eq, if_pos h, List.drop_eq_getElem_cons h.1,
      List.drop_eq_getElem_cons h.2, difference, content_getElem, content_getElem]
    exact ((if_neg hval).trans (ih h.1 h.2)).trans (if_neg hval).symm
  | case3 i h h' =>
    rw [strlen_eq, strlen_eq] at h h'
    have hend : (content a).drop i = [] := by rw [h'.1, List.drop_length]
    rw [strcmpFrom, strlen_eq, strlen_eq, if_neg h, if_pos h', hend,
      List.drop_eq_getElem_cons h'.2, difference, content_getElem]
  | case4 i _ h' h'' => exact absurd h'' h'
  | case5 i h h' _ =>
    rw [strlen_eq, strlen_eq] at h h'
    have hend : (content b).drop i = [] := List.drop_eq_nil_of_le (by omega)
    rw [strcmpFrom, strlen_eq, strlen_eq, if_neg h, if_neg h', if_neg h', hend]
    cases (content a).drop i <;> rfl

theorem strcmp_difference (a b : Chars) : strcmp a b = difference (content a) (content b) :=
  strcmpFrom_difference a b 0 (Nat.zero_le _) (Nat.zero_le _)

theorem schar_low {x : UInt8} (h : x < 128) : schar x = x.toNat :=
  if_pos (UInt8.lt_iff_toNat_lt.mp h)

theorem schar_high {x : UInt8} (h : ¬x < 128) : schar x = x.toNat - 256 :=
  if_neg fun hx => h (UInt8.lt_iff_toNat_lt.mpr hx)

/-- Two bytes of one half compare as signed characters as they do unsigned; two bytes of
different halves compare the other way. -/
theorem schar_lt_iff {x y : UInt8} (h : x < 128 ↔ y < 128) : schar x < schar y ↔ x < y := by
  rw [UInt8.lt_iff_toNat_lt]
  by_cases hx : x < 128
  · rw [schar_low hx, schar_low (h.mp hx)]
    omega
  · rw [schar_high hx, schar_high (fun hy => hx (h.mpr hy))]
    omega

theorem schar_swapped {x y : UInt8} (h : ¬(x < 128 ↔ y < 128)) : schar x < schar y ↔ y < x := by
  have hxn := x.toNat_lt
  have hyn := y.toNat_lt
  have h128 : (128 : UInt8).toNat = 128 := rfl
  simp only [UInt8.lt_iff_toNat_lt, h128] at h ⊢
  unfold schar
  split_ifs <;> omega

structure Signs (d : ℤ) (a b : Chars) : Prop where
  zero : d = 0 ↔ a = b
  neg : d < 0 ↔ a < b
  pos : 0 < d ↔ b < a

theorem signs_cons {x y : UInt8} (hxy : x ≠ y) (a b : Chars) :
    Signs (schar x - schar y) (x :: a) (y :: b) ↔ (x < 128 ↔ y < 128) := by
  have hne : schar x ≠ schar y := fun h => hxy (schar_inj h)
  have hless : schar x - schar y < 0 ↔ schar x < schar y := by omega
  have hmore : 0 < schar x - schar y ↔ schar y < schar x := by omega
  have hlt : x :: a < y :: b ↔ x < y := by
    rw [List.cons_lt_cons_iff]
    exact or_iff_left fun h => hxy h.1
  have hgt : y :: b < x :: a ↔ y < x := by
    rw [List.cons_lt_cons_iff]
    exact or_iff_left fun h => hxy h.1.symm
  constructor
  · intro h
    by_contra hhalf
    have hneg := h.neg
    rw [hlt, hless, schar_swapped hhalf] at hneg
    obtain hs | hs := Int.lt_or_gt_of_ne hne
    · have hyx := (schar_swapped hhalf).mp hs
      exact absurd (hneg.mp hyx) (UInt8.lt_asymm hyx)
    · have hxy' := (schar_swapped (fun hi => hhalf hi.symm)).mp hs
      exact absurd (hneg.mpr hxy') (UInt8.lt_asymm hxy')
  · intro hhalf
    refine ⟨iff_of_false (by omega) (by simp [hxy]), ?_, ?_⟩
    · rw [hlt, hless, schar_lt_iff hhalf]
    · rw [hgt, hmore, schar_lt_iff hhalf.symm]

theorem signs_iff {a b : Chars} (ha : 0 ∉ a) (hb : 0 ∉ b) :
    Signs (difference a b) a b ↔ Told a b := by
  induction a generalizing b with
  | nil =>
    cases b with
    | nil =>
      have heq : difference [] [] = 0 := rfl
      exact iff_of_true ⟨by simp [heq], by simp [heq], by simp [heq]⟩ trivial
    | cons y b =>
      have hy : y ≠ 0 := fun h => hb (h ▸ List.mem_cons_self)
      have hs : schar y ≠ 0 := fun h => hy (schar_eq_zero h)
      have hyn := y.toNat_lt
      constructor
      · intro h
        have hneg := h.neg.mpr (List.nil_lt_cons y b)
        rw [difference] at hneg
        by_contra hhigh
        rw [schar_high hhigh] at hneg
        omega
      · intro h
        have hlow := schar_low h
        refine ⟨?_, ?_, ?_⟩
        · rw [difference]
          exact iff_of_false (by omega) (List.cons_ne_nil y b).symm
        · rw [difference]
          exact iff_of_true (by omega) (List.nil_lt_cons y b)
        · rw [difference]
          exact iff_of_false (by omega) (List.not_lt_nil _)
  | cons x a ih =>
    cases b with
    | nil =>
      refine iff_of_false (fun h => ?_) id
      exact List.cons_ne_nil x a (h.zero.mp rfl)
    | cons y b =>
      rw [Told]
      by_cases hxy : x = y
      · subst hxy
        have hstep : difference (x :: a) (x :: b) = difference a b := by
          rw [difference, Int.sub_self]
          rfl
        have hlt : x :: a < x :: b ↔ a < b := List.cons_lt_cons_self
        have hgt : x :: b < x :: a ↔ b < a := List.cons_lt_cons_self
        rw [if_pos rfl, ← ih (fun h => ha (List.mem_cons_of_mem x h))
          (fun h => hb (List.mem_cons_of_mem x h)), hstep]
        constructor
        · intro h
          exact ⟨h.zero.trans (by simp), h.neg.trans hlt, h.pos.trans hgt⟩
        · intro h
          exact ⟨h.zero.trans (by simp), h.neg.trans hlt.symm, h.pos.trans hgt.symm⟩
      · have hne : schar x - schar y ≠ 0 := fun h => hxy (schar_inj (by omega))
        rw [if_neg hxy, difference, if_pos hne]
        exact signs_cons hxy a b

theorem compares_iff (a b : Chars) : Compares strcmp a b ↔ Told (content a) (content b) := by
  have hsigns : Compares strcmp a b ↔
      Signs (difference (content a) (content b)) (content a) (content b) := by
    rw [← strcmp_difference]
    exact ⟨fun h => ⟨h.zero, h.neg, h.pos⟩, fun h => ⟨h.zero, h.neg, h.pos⟩⟩
  rw [hsigns]
  exact signs_iff (content_no_zero a) (content_no_zero b)

theorem orders_iff (S : Set Chars) :
    Orders S ↔ ∀ a ∈ S, ∀ b ∈ S, Told (content a) (content b) := by
  constructor
  · intro h a ha b hb
    exact (compares_iff a b).mp (h.strcmp a ha b hb)
  · intro h
    have hcmp : ∀ a ∈ S, ∀ b ∈ S, Compares strcmp a b := fun a ha b hb =>
      (compares_iff a b).mpr (h a ha b hb)
    refine ⟨hcmp, hcmp, fun a ha b hb => ?_, fun a ha b hb c hc hab hbc => ?_⟩
    · rw [(hcmp a ha b hb).neg, (hcmp b hb a ha).pos]
    · have hlt := List.lt_trans ((hcmp a ha b hb).neg.mp hab) ((hcmp b hb c hc).neg.mp hbc)
      exact (hcmp a ha c hc).neg.mpr hlt

/-- A pair of strings is compared right exactly if it is told apart, and on a set of strings
the laws of an order hold exactly if all its pairs are. -/
theorem strcmp_lexicographic_iff (a b : Chars) (S : Set Chars) :
    (Compares strcmp a b ∧ Compares strcoll a b ↔ Told (content a) (content b)) ∧
      (Orders S ↔ ∀ s ∈ S, ∀ t ∈ S, Told (content s) (content t)) := by
  refine ⟨?_, orders_iff S⟩
  have hcoll : Compares strcoll a b ↔ Compares strcmp a b := Iff.rfl
  rw [hcoll, and_self]
  exact compares_iff a b

/-- The longer string does not come behind its prefix: `strcmp("ab", "a")` is 0. -/
theorem strcmp_prefix : ¬Compares strcmp [97, 98, 0] [97, 0] := by
  intro h
  have hz := h.zero.mp (by rw [strcmp_difference]; decide)
  exact absurd hz (by decide)

theorem content_cons_tail {s1 : Chars} (h : 0 < (content s1).length) :
    content s1.tail = (content s1).tail := by
  cases s1 with
  | nil => cases h
  | cons c s1 =>
    by_cases hc : c = 0
    · simp [content, hc] at h
    · simp [content, hc]

theorem strstrFrom_some {s2 s1 : Chars} {l1 : ℤ} {k k' : ℕ}
    (h : strstrFrom s2 s1 l1 k = some k') (hl : l1 = (content s1).length) :
    ∃ j, k' = k + j ∧ ¬content s2 <+: (content s1).drop j := by
  induction s1, l1, k using strstrFrom.induct s2 with
  | case1 s1 l1 k hle hne =>
    rw [strstrFrom, if_pos hle, if_pos hne] at h
    obtain rfl := Option.some.inj h
    exact ⟨0, rfl, fun hp => hne ((strcmp_eq_zero s1 s2).mpr hp)⟩
  | case2 s1 l1 k hle heq ih =>
    rw [strstrFrom, if_pos hle, if_neg heq] at h
    by_cases hpos : 0 < (content s1).length
    · have htail := content_cons_tail hpos
      have hlen : l1 - 1 = (content s1.tail).length := by
        rw [htail, List.length_tail]
        omega
      obtain ⟨j, rfl, hj⟩ := ih h hlen
      refine ⟨j + 1, by omega, ?_⟩
      rwa [htail, List.drop_tail] at hj
    · -- the string has ended, and so does the loop
      have hl0 : l1 - 1 < 0 := by omega
      rw [strstrFrom, if_neg (by omega)] at h
      cases h
  | case3 s1 l1 k hlt =>
    rw [strstrFrom, if_neg hlt] at h
    cases h

theorem strstr_some {s1 s2 : Chars} {k : ℕ} (h : strstr s1 s2 = some k) :
    ¬content s2 <+: (content s1).drop k := by
  obtain ⟨j, rfl, hj⟩ := strstrFrom_some h (by rw [strlen_eq])
  rwa [Nat.zero_add]

theorem strstr_wrong {s1 s2 : Chars} (h : strlen s2 ≤ strlen s1) : ¬FindsFirst s1 s2 := by
  intro hf
  cases hr : strstr s1 s2 with
  | some k => exact strstr_some hr ((hf.found k).mp hr).1
  | none =>
    -- no offset is returned, so that the string starts at the first
    have hle : (strlen s2 : ℤ) ≤ strlen s1 := by omega
    have heq : ¬strcmp s1 s2 ≠ 0 := by
      intro hne
      rw [strstr, strstrFrom, if_pos hle, if_pos hne] at hr
      cases hr
    have hp := (strcmp_eq_zero s1 s2).mp (not_not.mp heq)
    exact hf.missed.mp hr 0 hp

/-- The search is right exactly if the string looked for is too long to occur. -/
theorem strstr_finds_iff (s1 s2 : Chars) : FindsFirst s1 s2 ↔ strlen s1 < strlen s2 := by
  refine ⟨fun hf => Nat.not_le.mp fun hle => strstr_wrong hle hf, fun hlt => ?_⟩
  have hr : strstr s1 s2 = none := by
    rw [strstr, strstrFrom, if_neg (by omega)]
  have hnone : ∀ k, ¬content s2 <+: (content s1).drop k := by
    intro k hp
    have hlen := hp.length_le
    rw [List.length_drop, ← strlen_eq, ← strlen_eq] at hlen
    omega
  refine ⟨fun k => iff_of_false (by simp [hr]) fun hf => hnone k hf.1, iff_of_true hr hnone, ?_⟩
  intro he
  rw [strlen_eq s2, he] at hlt
  exact absurd hlt (Nat.not_lt_zero _)

/-- `strstr("ab", "b")` is the start of the string. -/
theorem strstr_mismatch : ¬FindsFirst [97, 98, 0] [98, 0] := strstr_wrong (by decide)

end Jiauliyan.StringOrder
