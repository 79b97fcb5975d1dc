import Jiauliyan.DkjsonReads

namespace Jiauliyan.DkjsonTables

open Jiauliyan.Framing (Bytes)
open Jiauliyan.Dkjson Jiauliyan.DkjsonReads

variable {ν : Type} {N : Numbers ν} {limit : ℕ}

/-- The integers up to a limit are told apart, from each other and from all other numbers. -/
structure Indexed (N : Numbers ν) (limit : ℕ) : Prop where
  left : ∀ i x, 1 ≤ i → i ≤ limit → (N.eq (N.ofNat i) x = true ↔ N.index x = some i)
  own : ∀ i, 1 ≤ i → i ≤ limit → N.index (N.ofNat i) = some i

def keyOf (N : Numbers ν) : Value ν → Option (Bytes ⊕ ℕ)
  | .string s => some (.inl s)
  | .number x => (N.index x).map .inr
  | _ => none

/-- The keys of the tables that are read. -/
inductive Key (N : Numbers ν) (limit : ℕ) : Value ν → Prop
  | string (s : Bytes) : Key N limit (.string s)
  | index (i : ℕ) (low : 1 ≤ i) (high : i ≤ limit) : Key N limit (.number (N.ofNat i))

theorem same_left (hN : Indexed N limit) {k : Value ν} (hk : Key N limit k) (k' : Value ν) :
    sameKey N k k' = true ↔ keyOf N k' = keyOf N k := by
  cases hk with
  | string s =>
    cases k' with
    | string t => simpa [sameKey, keyOf] using eq_comm
    | nil | jsonNull | bool b | number x | table t => simp [sameKey, keyOf]
  | index i low high =>
    cases k' <;> simp [sameKey, keyOf, hN.left i _ low high, hN.own i low high]

def Keyed (N : Numbers ν) (limit : ℕ) (t : Entries ν) : Prop := ∀ kv ∈ t, Key N limit kv.1

theorem set_keyed {t : Entries ν} {k : Value ν} (ht : Keyed N limit t) (hk : Key N limit k)
    (v : Value ν) : Keyed N limit (set N t k v) := by
  rw [Dkjson.set]
  split_ifs
  · exact fun kv hkv => ht kv (List.mem_filter.mp hkv).1
  · intro kv hkv
    obtain ⟨old, hold, rfl⟩ := List.mem_map.mp hkv
    split_ifs
    · exact ht old hold
    · exact ht old hold
  · intro kv hkv
    obtain hkv | hkv := List.mem_append.mp hkv
    · exact ht kv hkv
    · rw [List.mem_singleton.mp hkv]
      exact hk

theorem get_cons (kv : Value ν × Value ν) (t : Entries ν) (k : Value ν) :
    Dkjson.get N (kv :: t) k = if sameKey N kv.1 k then kv.2 else Dkjson.get N t k := by
  unfold Dkjson.get
  rw [List.find?_cons]
  by_cases h : sameKey N kv.1 k = true
  · rw [h, if_pos rfl]
  · rw [Bool.eq_false_iff.mpr h, if_neg Bool.false_ne_true]

theorem get_append {t : Entries ν} {kv : Value ν × Value ν} {k : Value ν} :
    Dkjson.get N (t ++ [kv]) k =
      if (t.any fun kv => sameKey N kv.1 k) = true then Dkjson.get N t k
      else if sameKey N kv.1 k = true then kv.2 else .nil := by
  induction t with
  | nil => rw [List.nil_append, get_cons]; rfl
  | cons e t ih =>
    rw [List.cons_append, get_cons, ih, get_cons, List.any_cons]
    by_cases h : sameKey N e.1 k = true
    · rw [if_pos h, h, Bool.true_or, if_pos rfl, if_pos rfl]
    · rw [if_neg h, if_neg h, Bool.eq_false_iff.mpr h, Bool.false_or]

section Set

variable (hN : Indexed N limit) {t : Entries ν} {k k' : Value ν}

include hN

theorem get_filter (ht : Keyed N limit t) :
    Dkjson.get N (t.filter fun kv => !sameKey N kv.1 k) k' =
      if keyOf N k' = keyOf N k then .nil else Dkjson.get N t k' := by
  induction t with
  | nil => rw [List.filter_nil]; split_ifs <;> rfl
  | cons kv t ih =>
    have hkey := ht kv List.mem_cons_self
    have ih := ih fun e he => ht e (List.mem_cons_of_mem kv he)
    have hk := same_left hN hkey k
    have hk' := same_left hN hkey k'
    by_cases hsame : sameKey N kv.1 k = true
    · have hgone : (kv :: t).filter (fun kv => !sameKey N kv.1 k) =
          t.filter fun kv => !sameKey N kv.1 k := List.filter_cons_of_neg (by simp [hsame])
      rw [hgone, ih, get_cons]
      split_ifs with h1 h2
      · rfl
      · exact absurd ((hk'.mp h2).trans (hk.mp hsame).symm) h1
      · rfl
    · have hstays : (kv :: t).filter (fun kv => !sameKey N kv.1 k) =
          kv :: t.filter fun kv => !sameKey N kv.1 k := List.filter_cons_of_pos (by simp [hsame])
      rw [hstays, get_cons, get_cons, ih]
      split_ifs with h1 h2
      · exact absurd (hk.mpr (h2.symm.trans (hk'.mp h1))) hsame
      · rfl
      · rfl
      · rfl

theorem get_map (ht : Keyed N limit t) (v : Value ν) :
    Dkjson.get N (t.map fun kv => if sameKey N kv.1 k then (kv.1, v) else kv) k' =
      if keyOf N k' = keyOf N k ∧ (t.any fun kv => sameKey N kv.1 k) = true then v
      else Dkjson.get N t k' := by
  induction t with
  | nil => simp
  | cons kv t ih =>
    have hkey := ht kv List.mem_cons_self
    have ih := ih fun e he => ht e (List.mem_cons_of_mem kv he)
    have hk := same_left hN hkey k
    have hk' := same_left hN hkey k'
    rw [List.map_cons, get_cons, ih, get_cons, List.any_cons]
    by_cases hsame : sameKey N kv.1 k = true
    · simp only [hsame, if_true, Bool.true_or, and_true]
      by_cases h : keyOf N k' = keyOf N k
      · have hfirst := hk'.mpr (h.trans (hk.mp hsame))
        simp only [hfirst, if_true, if_pos h]
      · have hother : ¬sameKey N kv.1 k' = true := fun h' =>
          h ((hk'.mp h').trans (hk.mp hsame).symm)
        simp only [hother, h, false_and, if_false, Bool.false_eq_true]
    · simp only [Bool.eq_false_iff.mpr hsame, Bool.false_or, Bool.false_eq_true, if_false]
      by_cases h : sameKey N kv.1 k' = true
      · have hne : ¬keyOf N k' = keyOf N k := fun heq =>
          hsame (hk.mpr (heq.symm.trans (hk'.mp h)))
        simp only [h, if_true, hne, false_and, if_false]
      · simp only [Bool.eq_false_iff.mpr h, Bool.false_eq_true, if_false]

theorem get_absent (ht : Keyed N limit t) (h : keyOf N k' = keyOf N k)
    (hany : ¬(t.any fun kv => sameKey N kv.1 k) = true) : Dkjson.get N t k' = .nil := by
  induction t with
  | nil => rfl
  | cons kv t ih =>
    have hkey := ht kv List.mem_cons_self
    rw [List.any_cons, Bool.or_eq_true, not_or] at hany
    have hother : ¬sameKey N kv.1 k' = true := fun h' =>
      hany.1 ((same_left hN hkey k).mpr (h.symm.trans ((same_left hN hkey k').mp h')))
    rw [get_cons, if_neg hother]
    exact ih (fun e he => ht e (List.mem_cons_of_mem kv he)) hany.2

theorem get_set (ht : Keyed N limit t) (hk : Key N limit k) (v : Value ν) :
    Dkjson.get N (set N t k v) k' = if keyOf N k' = keyOf N k then v else Dkjson.get N t k' := by
  rw [Dkjson.set]
  by_cases hnil : v.isNil = true
  · rw [if_pos hnil, get_filter hN ht]
    cases v with
    | nil => rfl
    | jsonNull | bool b | number x | string s | table t => cases hnil
  rw [if_neg hnil]
  by_cases hany : (t.any fun kv => sameKey N kv.1 k) = true
  · rw [if_pos hany, get_map hN ht]
    simp only [hany, and_true]
  · rw [if_neg hany]
    rw [get_append]
    have hnew := same_left hN hk k'
    by_cases h : keyOf N k' = keyOf N k
    · have hno : ¬(t.any fun kv => sameKey N kv.1 k') = true := fun h' => by
        obtain ⟨kv, hkv, hsame⟩ := List.any_eq_true.mp h'
        have hkey := (same_left hN (ht kv hkv) k').mp hsame
        exact hany (List.any_eq_true.mpr ⟨kv, hkv,
          (same_left hN (ht kv hkv) k).mpr (h.symm.trans hkey)⟩)
      rw [if_neg hno, if_pos (hnew.mpr h), if_pos h]
    · rw [if_neg h, if_neg fun hsame => h (hnew.mp hsame)]
      split_ifs with hfound
      · rfl
      · exact (get_absent hN ht rfl hfound).symm

end Set

end Jiauliyan.DkjsonTables
