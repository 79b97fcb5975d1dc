import Jiauliyan.LuaTableRehash

namespace Jiauliyan.LuaTable

variable {V : Type} {H : Hashes} {t t' : Table V} {k : Key}

theorem ofInt_inj {i j : ℕ} (h : ofInt (i + 1 : ℕ) = ofInt (j + 1 : ℕ)) : i = j := by
  simp only [ofInt, Key.number.injEq, Number.finite.injEq, Rat.intCast_inj] at h
  omega

theorem leaving_nodup (h : Sound H t) (nasize : ℕ) : (leaving t nasize).Nodup := by
  refine List.Nodup.append ?_ ?_ ?_
  · refine List.Nodup.filterMap (fun i j p hi hj => ?_) List.nodup_range'
    obtain ⟨v, -, hv⟩ := Option.map_eq_some_iff.mp hi
    obtain ⟨w, -, hw⟩ := Option.map_eq_some_iff.mp hj
    exact ofInt_inj (congrArg Prod.fst (hv.trans hw.symm))
  · refine List.Nodup.filterMap (fun i j p hi hj => ?_) (List.nodup_reverse.mpr List.nodup_range)
    exact h.unique i j p.1 (Node.pair_eq_some.mp hi).1 (Node.pair_eq_some.mp hj).1
  · intro p hp hp'
    obtain ⟨i, hi, -, hk⟩ := mem_slice.mp hp
    obtain ⟨j, -, hj, -⟩ := mem_nodePairs.mp hp'
    have hlt : i < t.sizearray := by
      have hmem := List.mem_range'_1.mp hi
      omega
    have harr := h.hashed j p.1 hj
    rw [hk, arraySlot_ofInt t (hlt.trans_le h.asize), if_pos hlt] at harr
    cases harr

theorem entries_eq (t : Table V) : entries t = (leaving t 0).length := by
  rw [entries, leaving, List.length_append, slice_length, present, live, Nat.add_sub_cancel,
    Nat.sub_zero]

theorem entries_le (h : Sound H t) {keys : Finset Key}
    (hkeys : ∀ k, value H t k ≠ none → k ∈ keys) : entries t ≤ keys.card := by
  have hnodup : ((leaving t 0).map Prod.fst).Nodup := by
    refine List.Nodup.map_on (fun p hp q hq hpq => ?_) (leaving_nodup h 0)
    have hv := leaving_value h p hp
    rw [hpq, leaving_value h q hq] at hv
    exact Prod.ext hpq (Option.some.inj hv).symm
  rw [entries_eq, ← List.length_map Prod.fst, ← List.toFinset_card_of_nodup hnodup]
  refine Finset.card_le_card fun k hk => ?_
  obtain ⟨p, hp, rfl⟩ := List.mem_map.mp (List.mem_toFinset.mp hk)
  exact hkeys p.1 (by rw [leaving_value h p hp]; exact Option.some_ne_none p.2)

/-- `luaH_get`, and what it points to. -/
def read (H : Hashes) (t : Table V) (k : Key) : Result (Option V) := do
  let slot ← luaHGet H t (.key k)
  pure (slot.bind t.at')

theorem Sound.read_value (h : Sound H t) (k : Key) : read H t k = .ok (value H t k) := by
  rw [read, value]
  cases harr : arraySlot t k with
  | some i =>
    rw [luaHGet_key, harr]
    rfl
  | none =>
    by_cases hk : ∃ i, t.key i = some k
    · obtain ⟨i, hi⟩ := hk
      rw [h.get_node hi]
      rfl
    · rw [h.get_none harr fun i hi => hk ⟨i, hi⟩]
      rfl

/-- `luaH_set` and the assignment of a value or nil to the place. -/
def write (H : Hashes) (fuel : ℕ) (t : Table V) (p : Key × Option V) : Result (Table V) := do
  let r ← luaHSet H fuel (.key p.1) t
  pure (r.1.store p.2 r.2)

/-- What is assigned last to each key. -/
def assigned (ps : List (Key × Option V)) (f : Key → Option V) : Key → Option V :=
  ps.foldl (fun (f : Key → Option V) p => Function.update f p.1 p.2) f

theorem Sound.write_spec (h : Sound H t) (p : Key × Option V) (fuel : ℕ) :
    (∃ t', write H (fuel + 2) t p = .ok t' ∧ Sound H t' ∧
      value H t' = Function.update (value H t) p.1 p.2) ∨
    (value H t p.1 = none ∧ 2 ^ MAXBITS ≤ entries t) := by
  obtain ⟨t₁, slot, hset, hp⟩ | ⟨-, hnone, hlarge⟩ := h.luaHSet_spec p.1 fuel
  · refine .inl ⟨t₁.store p.2 slot, ?_, hp.sound.store_sound hp.slot _, ?_⟩
    · rw [write, hset]
      rfl
    · funext k
      rw [hp.sound.store_value hp.slot, hp.same, Function.update_apply]
  · exact .inr ⟨hnone, hlarge⟩

theorem writes_spec (h : Sound H t) {keys : Finset Key} (hcard : keys.card ≤ 2 ^ MAXBITS)
    (hkeys : ∀ k, value H t k ≠ none → k ∈ keys) {ps : List (Key × Option V)}
    (hps : ∀ p ∈ ps, p.1 ∈ keys) (fuel : ℕ) :
    ∃ t', ps.foldlM (write H (fuel + 2)) t = .ok t' ∧ Sound H t' ∧
      value H t' = assigned ps (value H t) := by
  induction ps generalizing t with
  | nil => exact ⟨t, rfl, h, rfl⟩
  | cons p ps ih =>
    obtain ⟨hp, hrest⟩ := List.forall_mem_cons.mp hps
    obtain ⟨t₁, hwrite, hsound, hvalue⟩ | ⟨hnone, hlarge⟩ := h.write_spec p fuel
    · have hkeys₁ : ∀ k, value H t₁ k ≠ none → k ∈ keys := by
        intro k hk
        rw [hvalue, Function.update_apply] at hk
        split_ifs at hk with hkp
        · exact hkp ▸ hp
        · exact hkeys k hk
      obtain ⟨t', hrun, hs', hv'⟩ := ih hsound hkeys₁ hrest
      refine ⟨t', ?_, hs', ?_⟩
      · rw [List.foldlM_cons, hwrite]
        exact hrun
      · rw [hv', hvalue]
        rfl
    · -- the key that is new makes one more than there are elements
      have hsmall : entries t ≤ (keys.erase p.1).card := entries_le h fun k hk =>
        Finset.mem_erase.mpr ⟨fun heq => hk (heq ▸ hnone), hkeys k hk⟩
      have hlt := Finset.card_erase_lt_of_mem hp
      omega

theorem luaHNew_spec {narray nhash : ℕ} (hnew : luaHNew narray nhash = .ok t)
    (hasize : narray ≤ MAXASIZE) : Sound H t ∧ ∀ k, value H t k = none := by
  by_cases hsize : nhash = 0 ∨ ceillog2 nhash ≤ MAXBITS
  · obtain ⟨t₁, ht₁, hfresh, harray, hsizes, -⟩ := setnodevector_spec
      (setarrayvector (⟨0, fun _ => none, 0, fun _ => emptyNode, true, 0⟩ : Table V) narray) hsize
    obtain rfl : t₁ = t := Except.ok.inj (ht₁.symm.trans hnew)
    have hsound : Sound H t₁ := hfresh.sound (hsizes ▸ hasize)
    refine ⟨hsound, fun k => ?_⟩
    cases harr : arraySlot t₁ k with
    | some i =>
      rw [value_array H harr, harray]
      simp only [setarrayvector, ite_self]
    | none =>
      refine hsound.value_none harr fun i hi => ?_
      rw [Table.key, hfresh.node] at hi
      cases hi
  · obtain ⟨h0, hbits⟩ := not_or.mp hsize
    rw [luaHNew, setnodevector, if_neg h0] at hnew
    simp only [if_pos (Nat.not_le.mp hbits)] at hnew
    cases hnew

theorem new_writes (H : Hashes) {narray nhash : ℕ} (hnew : luaHNew narray nhash = .ok t)
    (hasize : narray ≤ MAXASIZE) {ps : List (Key × Option V)}
    (hkeys : (ps.map Prod.fst).toFinset.card ≤ 2 ^ MAXBITS) (fuel : ℕ) :
    ∃ t', ps.foldlM (write H (fuel + 2)) t = .ok t' ∧ Sound H t' ∧
      value H t' = assigned ps fun _ => none := by
  obtain ⟨hsound, hempty⟩ := luaHNew_spec (H := H) hnew hasize
  obtain ⟨t', hrun, hs', hv'⟩ := writes_spec hsound hkeys (fun k hk => absurd (hempty k) hk)
    (fun p hp => List.mem_toFinset.mpr (List.mem_map_of_mem hp)) fuel
  exact ⟨t', hrun, hs', by rw [hv', funext hempty]⟩

/-- From a new table on, whatever is assigned to at most `2 ^ 26` keys, tables are finite maps. -/
theorem table_refines_map (H : Hashes) {narray nhash : ℕ} {t : Table V}
    (hnew : luaHNew narray nhash = .ok t) (hasize : narray ≤ MAXASIZE)
    {ps : List (Key × Option V)} (hkeys : (ps.map Prod.fst).toFinset.card ≤ 2 ^ MAXBITS)
    (fuel : ℕ) :
    ∃ t', ps.foldlM (write H (fuel + 2)) t = .ok t' ∧ Sound H t' ∧
      ∀ k, read H t' k = .ok (assigned ps (fun _ => none) k) := by
  obtain ⟨t', hrun, hsound, hvalue⟩ := new_writes H hnew hasize hkeys fuel
  refine ⟨t', hrun, hsound, fun k => ?_⟩
  rw [hsound.read_value, hvalue]

def collisions : List (Key × Option ℕ) :=
  [(ofInt 1, some 10), (.string 3, some 30), (ofInt 2, some 20),
    (.number (.infinite true), some 50), (.string 3, none)]

theorem collisions_keys : (collisions.map Prod.fst).toFinset.card ≤ 2 ^ MAXBITS :=
  (List.toFinset_card_le _).trans (by decide)

theorem writes_collide :
    ∃ t t' : Table ℕ, luaHNew 0 0 = .ok t ∧
      collisions.foldlM (write ⟨fun _ => 0, 0, fun _ => 0⟩ 2) t = .ok t' ∧
      read ⟨fun _ => 0, 0, fun _ => 0⟩ t' (ofInt 2) = .ok (some 20) ∧
      read ⟨fun _ => 0, 0, fun _ => 0⟩ t' (.string 3) = .ok none := by
  obtain ⟨t, hnew⟩ : ∃ t : Table ℕ, luaHNew 0 0 = .ok t := ⟨_, rfl⟩
  obtain ⟨t', hrun, -, hread⟩ :=
    table_refines_map ⟨fun _ => 0, 0, fun _ => 0⟩ hnew (Nat.zero_le _) collisions_keys 0
  refine ⟨t, t', hnew, hrun, ?_, ?_⟩
  · rw [hread]
    rfl
  · rw [hread]
    rfl

end Jiauliyan.LuaTable
