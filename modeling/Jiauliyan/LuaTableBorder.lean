import Jiauliyan.LuaTableRuns

namespace Jiauliyan.LuaTable

variable {V : Type} {H : Hashes} {t : Table V}

def MAX_INT : ℕ := 2147483645

section Search

variable (absent : ℕ → Result Bool)

def binarySearch : ℕ → ℕ → ℕ → Result ℕ
  | 0, _, _ => .error .fuel
  | n + 1, i, j =>
    if 1 < j - i then do
      let m := (i + j) / 2
      if ← absent m then binarySearch n i m else binarySearch n m j
    else pure i

def linearSearch : ℕ → ℕ → Result ℕ
  | 0, _ => .error .fuel
  | n + 1, i => do if ← absent i then pure (i - 1) else linearSearch n (i + 1)

def unboundLoop : ℕ → ℕ → ℕ → Result ℕ
  | 0, _, _ => .error .fuel
  | n + 1, i, j => do
    if ← absent j then binarySearch absent (j - i) i j
    else if MAX_INT < j * 2 then linearSearch absent MAX_INT 1
    else unboundLoop n j (j * 2)

def unboundSearch (j : ℕ) : Result ℕ := unboundLoop absent 32 j (j + 1)

end Search

def absentAt (H : Hashes) (t : Table V) (j : ℕ) : Result Bool := do
  let slot ← luaHGetnum H t j
  pure (slot.bind t.at').isNone

def luaHGetn (H : Hashes) (t : Table V) : Result ℕ :=
  let j := t.sizearray
  if 0 < j ∧ (t.array (j - 1)).isNone then
    binarySearch (fun m => pure (t.array (m - 1)).isNone) j 0 j
  else if t.dummy then pure j
  else unboundSearch (absentAt H t) j

def Border (absent : ℕ → Bool) (n : ℕ) : Prop :=
  (n = 0 ∨ absent n = false) ∧ absent (n + 1) = true

section Search

variable {absent : ℕ → Result Bool} {p : ℕ → Bool}

theorem binarySearch_border {n i j : ℕ} (hread : ∀ m, i < m → m < j → absent m = .ok (p m))
    (hi : i = 0 ∨ p i = false) (hj : p j = true) (hij : i < j) (hn : j - i ≤ n) :
    ∃ r, binarySearch absent n i j = .ok r ∧ Border p r := by
  induction n generalizing i j with
  | zero => omega
  | succ n ih =>
    rw [binarySearch]
    split_ifs with hwide
    · have hm : absent ((i + j) / 2) = .ok (p ((i + j) / 2)) := hread _ (by omega) (by omega)
      simp only [hm]
      cases hp : p ((i + j) / 2) with
      | true => exact ih (fun m hlow hhigh => hread m hlow (by omega)) hi hp (by omega) (by omega)
      | false =>
        exact ih (fun m hlow hhigh => hread m (by omega) hhigh) (.inr hp) hj (by omega) (by omega)
    · have hnext : i + 1 = j := by omega
      exact ⟨i, rfl, hi, hnext ▸ hj⟩

theorem linearSearch_border {n i limit : ℕ} (hread : ∀ m, 0 < m → m ≤ limit → absent m = .ok (p m))
    (hi : 0 < i) (hbefore : i = 1 ∨ p (i - 1) = false) (hn : limit < i + n)
    (hlimit : ∃ m, i ≤ m ∧ m ≤ limit ∧ p m = true) :
    ∃ r, linearSearch absent n i = .ok r ∧ Border p r := by
  induction n generalizing i with
  | zero =>
    obtain ⟨m, him, hm, -⟩ := hlimit
    omega
  | succ n ih =>
    obtain ⟨m, him, hm, hpm⟩ := hlimit
    rw [linearSearch, hread i hi (by omega)]
    cases hp : p i with
    | true =>
      have hnext : i - 1 + 1 = i := by omega
      refine ⟨i - 1, rfl, ?_, by rw [hnext, hp]⟩
      obtain rfl | hb := hbefore
      · exact .inl rfl
      · exact .inr hb
    | false =>
      refine ih (Nat.succ_pos i) (.inr hp) (by omega) ⟨m, ?_, hm, hpm⟩
      have hne : m ≠ i := by
        rintro rfl
        rw [hp] at hpm
        cases hpm
      omega

theorem unboundLoop_border {n i j : ℕ} (limit : ℕ)
    (hread : ∀ m, 0 < m → m ≤ MAX_INT → absent m = .ok (p m))
    (hi : i = 0 ∨ p i = false) (hij : i < j) (hj : j ≤ MAX_INT) (hn : MAX_INT < j * 2 ^ n)
    (hlimit : limit ≤ MAX_INT) (hsome : ∃ m, 1 ≤ m ∧ m ≤ limit ∧ p m = true) :
    ∃ r, unboundLoop absent n i j = .ok r ∧ Border p r := by
  induction n generalizing i j with
  | zero =>
    rw [Nat.pow_zero] at hn
    omega
  | succ n ih =>
    rw [unboundLoop, hread j (by omega) hj]
    cases hp : p j with
    | true =>
      exact binarySearch_border (fun m hlow hhigh => hread m (by omega) (by omega)) hi hp hij le_rfl
    | false =>
      show ∃ r, (if MAX_INT < j * 2 then linearSearch absent MAX_INT 1
        else unboundLoop absent n j (j * 2)) = .ok r ∧ _
      split_ifs with hlarge
      · exact linearSearch_border (fun m hm hle => hread m hm (hle.trans hlimit)) Nat.one_pos
          (.inl rfl) (by omega) hsome
      · refine ih (.inr hp) (by omega) (by omega) ?_
        rw [Nat.pow_succ] at hn
        rw [Nat.mul_assoc, Nat.mul_comm 2]
        exact hn

end Search

def missing (H : Hashes) (t : Table V) (j : ℕ) : Bool := (value H t (ofInt j)).isNone

theorem Sound.absentAt_eq (h : Sound H t) {j : ℕ} (hj : j ≤ MAX_INT) :
    absentAt H t j = .ok (missing H t j) := by
  have hmax : MAX_INT = 2147483645 := rfl
  have hread := h.read_value (ofInt j)
  rw [read, ← luaHGetnum_eq H t (asInt_ofInt (by omega) (by omega))] at hread
  rw [absentAt, missing]
  cases hget : luaHGetnum H t j with
  | error e =>
    rw [hget] at hread
    cases hread
  | ok slot =>
    rw [hget] at hread
    have hvalue : slot.bind t.at' = value H t (ofInt j) := Except.ok.inj hread
    rw [← hvalue]
    rfl

theorem missing_array (H : Hashes) (hasize : t.sizearray ≤ MAXASIZE) {j : ℕ} (hj : 0 < j)
    (hle : j ≤ t.sizearray) : missing H t j = (t.array (j - 1)).isNone := by
  have hslot : arraySlot t (ofInt j) = some (j - 1) := by
    have hpred : j = j - 1 + 1 := by omega
    rw [hpred, arraySlot_ofInt t (by omega), if_pos (by omega)]
    rfl
  rw [missing, value_array H hslot]

theorem mem_leaving (h : Sound H t) {k : Key} {v : V} (hv : value H t k = some v) :
    (k, v) ∈ leaving t 0 := by
  cases harr : arraySlot t k with
  | some i =>
    have hlt := arraySlot_lt harr
    have hint := (arraySlot_iff.mp harr).1
    rw [value_array H harr] at hv
    exact List.mem_append_left _ (mem_slice.mpr
      ⟨i, List.mem_range'_1.mpr ⟨Nat.zero_le i, by omega⟩, hv, asInt_eq hint⟩)
  | none =>
    obtain ⟨j, hj, hjv⟩ := (h.value_iff harr v).mp hv
    have hin : j < t.sizenode := h.inside (by rw [hj]; exact Option.some_ne_none k)
    exact List.mem_append_right _ (mem_nodePairs.mpr
      ⟨j, List.mem_reverse.mpr (List.mem_range.mpr hin), hj, hjv⟩)

theorem entries_bound (h : Sound H t) : entries t ≤ 2 * 2 ^ MAXBITS := by
  have harray : (present t 1 t.sizearray).length ≤ t.sizearray := by
    refine (List.length_filter_le _ _).trans ?_
    rw [List.length_range', Nat.add_sub_cancel]
  have hlive : (live t).length ≤ t.sizenode := by
    refine (List.length_filterMap_le _ _).trans ?_
    rw [List.length_reverse, List.length_range]
  have hsize : t.sizenode ≤ 2 ^ MAXBITS := Nat.pow_le_pow_right (by decide) h.bits
  have hasize : t.sizearray ≤ 2 ^ MAXBITS := h.asize
  rw [entries]
  omega

theorem missing_some (h : Sound H t) :
    ∃ m, 1 ≤ m ∧ m ≤ entries t + 1 ∧ missing H t m = true := by
  by_contra hall
  have hpresent : ∀ m ∈ Finset.range (entries t + 1), ofInt (m + 1 : ℕ) ∈
      ((leaving t 0).map Prod.fst).toFinset := by
    intro m hm
    have hlt := Finset.mem_range.mp hm
    have hvalue : (value H t (ofInt (m + 1 : ℕ))).isNone ≠ true := fun hnone =>
      hall ⟨m + 1, Nat.le_add_left 1 m, hlt, hnone⟩
    obtain ⟨v, hv⟩ :=
      Option.ne_none_iff_exists'.mp (mt Option.isNone_iff_eq_none.mpr hvalue)
    exact List.mem_toFinset.mpr (List.mem_map.mpr ⟨_, mem_leaving h hv, rfl⟩)
  have hinj : Set.InjOn (fun m : ℕ => ofInt (m + 1 : ℕ)) (Finset.range (entries t + 1)) :=
    fun i _ j _ hij => ofInt_inj hij
  have hcard := Finset.card_le_card_of_injOn _ hpresent hinj
  have hle := List.toFinset_card_le ((leaving t 0).map Prod.fst)
  rw [List.length_map, ← entries_eq] at hle
  rw [Finset.card_range] at hcard
  omega

theorem Sound.luaHGetn_border (h : Sound H t) :
    ∃ n, luaHGetn H t = .ok n ∧ Border (missing H t) n := by
  have hmax : MAX_INT = 2147483645 := rfl
  have hasize : t.sizearray ≤ 67108864 := h.asize
  have hlast : ¬(0 < t.sizearray ∧ (t.array (t.sizearray - 1)).isNone = true) →
      t.sizearray = 0 ∨ missing H t t.sizearray = false := by
    intro hfull
    obtain h0 | hpos := Nat.eq_zero_or_pos t.sizearray
    · exact .inl h0
    · rw [missing_array H h.asize hpos le_rfl]
      exact .inr (Bool.eq_false_iff.mpr fun hnone => hfull ⟨hpos, hnone⟩)
  rw [luaHGetn]
  split_ifs with hnone hdummy
  · refine binarySearch_border (fun m hlow hhigh => ?_) (.inl rfl) ?_ hnone.1 (Nat.sub_le _ _)
    · rw [missing_array H h.asize hlow hhigh.le]
      rfl
    · rw [missing_array H h.asize hnone.1 le_rfl]
      exact hnone.2
  · refine ⟨t.sizearray, rfl, hlast hnone, ?_⟩
    have harr : arraySlot t (ofInt (t.sizearray + 1 : ℕ)) = none := by
      rw [arraySlot, asInt_ofInt (by omega) (by omega)]
      exact if_neg (by omega)
    rw [missing, h.value_none harr fun i hi => ?_]
    · rfl
    · rw [(h.dummy hdummy).2 i] at hi
      cases hi
  · have hentries : entries t ≤ 134217728 := entries_bound h
    exact unboundLoop_border (entries t + 1) (fun m _ hm => h.absentAt_eq hm) (hlast hnone)
      (Nat.lt_succ_self _) (by omega) (by omega) (by omega) (missing_some h)

/-- The length of a table, whatever has been assigned, is a border of it. -/
theorem length_border (H : Hashes) {narray nhash : ℕ} {t : Table V}
    (hnew : luaHNew narray nhash = .ok t) (hasize : narray ≤ MAXASIZE)
    {ps : List (Key × Option V)} (hkeys : (ps.map Prod.fst).toFinset.card ≤ 2 ^ MAXBITS)
    (fuel : ℕ) :
    ∃ t' n, ps.foldlM (write H (fuel + 2)) t = .ok t' ∧ luaHGetn H t' = .ok n ∧
      (n = 0 ∨ assigned ps (fun _ => none) (ofInt n) ≠ none) ∧
      assigned ps (fun _ => none) (ofInt (n + 1 : ℕ)) = none := by
  obtain ⟨t', hrun, hsound, hvalue⟩ := new_writes H hnew hasize hkeys fuel
  obtain ⟨n, hn, hpresent, hnext⟩ := hsound.luaHGetn_border
  rw [missing, hvalue] at hnext
  refine ⟨t', n, hrun, hn, hpresent.imp_right fun hp hnone => ?_,
    Option.isNone_iff_eq_none.mp hnext⟩
  rw [missing, hvalue, hnone] at hp
  cases hp

theorem collisions_length :
    ∃ t t' : Table ℕ, ∃ n, luaHNew 0 0 = .ok t ∧
      collisions.foldlM (write ⟨fun _ => 0, 0, fun _ => 0⟩ 2) t = .ok t' ∧
      luaHGetn ⟨fun _ => 0, 0, fun _ => 0⟩ t' = .ok n ∧
      assigned collisions (fun _ => none) (ofInt (n + 1 : ℕ)) = none := by
  obtain ⟨t, hnew⟩ : ∃ t : Table ℕ, luaHNew 0 0 = .ok t := ⟨_, rfl⟩
  obtain ⟨t', n, hrun, hlength, -, hnext⟩ :=
    length_border ⟨fun _ => 0, 0, fun _ => 0⟩ hnew (Nat.zero_le _) collisions_keys 0
  exact ⟨t, t', n, hnew, hrun, hlength, hnext⟩

end Jiauliyan.LuaTable
