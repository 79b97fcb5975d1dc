import Jiauliyan.LuaTableRuns

namespace Jiauliyan.LuaTable

variable {V : Type} {H : Hashes} {t t' : Table V} {k : Key} {v : V}

def findindex (H : Hashes) (t : Table V) : Index → Result ℤ
  | .nil => pure (-1)
  | .nan => .error (.error "invalid key to 'next'")
  | .key k =>
    if 0 < arrayindex k ∧ arrayindex k ≤ t.sizearray then pure (arrayindex k - 1)
    else do
      match ← find H t k with
      | some (.node j) => pure (j + t.sizearray)
      | _ => .error (.error "invalid key to 'next'")

def pairFrom (t : Table V) (i : ℕ) : Option (Key × V) :=
  match (List.range' i (t.sizearray - i)).findSome? (arrayPair t.array) with
  | some p => some p
  | none =>
    let i := i - t.sizearray
    (List.range' i (t.sizenode - i)).findSome? fun j => (t.node j).pair

def luaHNext (H : Hashes) (t : Table V) (idx : Index) : Result (Option (Key × V)) := do
  let i ← findindex H t idx
  pure (pairFrom t (i + 1).toNat)

/-- An assignment to a field that there is. Other assignments are not made. -/
def assignExisting (H : Hashes) (t : Table V) (w : Key × Option V) : Table V :=
  match luaHGet H t (.key w.1) with
  | .ok (some slot) => t.store w.2 slot
  | _ => t

/-- A loop over a table, with what its body assigns in each round. The tables that `luaH_next` finds
are kept with the keys and values. -/
def traverse (H : Hashes) (body : ℕ → List (Key × Option V)) :
    ℕ → ℕ → Table V → Index → Result (List (Table V × Key × V) × Table V)
  | 0, _, _, _ => .error .fuel
  | n + 1, round, t, idx => do
    match ← luaHNext H t idx with
    | none => pure ([], t)
    | some p => do
      let r ← traverse H body n (round + 1) ((body round).foldl (assignExisting H) t) (.key p.1)
      pure ((t, p) :: r.1, r.2)

def At (t : Table V) (k : Key) (j : ℕ) : Prop :=
  (j < t.sizearray ∧ arraySlot t k = some j) ∨
    (t.sizearray ≤ j ∧ t.key (j - t.sizearray) = some k)

theorem At.unique (h : Sound H t) {i j : ℕ} (hi : At t k i) (hj : At t k j) : i = j := by
  obtain ⟨-, hi⟩ | ⟨hle, hi⟩ := hi
  · obtain ⟨-, hj⟩ | ⟨-, hj⟩ := hj
    · exact Option.some.inj (hi.symm.trans hj)
    · rw [h.hashed _ k hj] at hi
      cases hi
  · obtain ⟨-, hj⟩ | ⟨hle', hj⟩ := hj
    · rw [h.hashed _ k hi] at hj
      cases hj
    · have heq := h.unique _ _ k hi hj
      omega

theorem At.key_unique {k' : Key} {j : ℕ} (hk : At t k j) (hk' : At t k' j) : k = k' := by
  obtain ⟨hlt, hk⟩ | ⟨hle, hk⟩ := hk
  · obtain ⟨-, hk'⟩ | ⟨hle', -⟩ := hk'
    · exact arraySlot_inj hk hk'
    · omega
  · obtain ⟨hlt', -⟩ | ⟨-, hk'⟩ := hk'
    · omega
    · exact Option.some.inj (hk.symm.trans hk')

theorem At.exists_of_value (h : Sound H t) (hv : value H t k ≠ none) :
    ∃ j, At t k j := by
  cases harr : arraySlot t k with
  | some i => exact ⟨i, .inl ⟨arraySlot_lt harr, harr⟩⟩
  | none =>
    obtain ⟨v, hv⟩ := Option.ne_none_iff_exists'.mp hv
    obtain ⟨j, hj, -⟩ := (h.value_iff harr v).mp hv
    exact ⟨j + t.sizearray, .inr ⟨Nat.le_add_left _ j, by rw [Nat.add_sub_cancel]; exact hj⟩⟩

theorem findindex_at (h : Sound H t) {j : ℕ} (hj : At t k j) :
    findindex H t (.key k) = .ok (j : ℤ) := by
  rw [findindex, arrayindex]
  obtain ⟨hlt, hslot⟩ | ⟨hle, hkey⟩ := hj
  · obtain ⟨hint, -⟩ := arraySlot_iff.mp hslot
    rw [hint, Option.getD_some, if_pos (by omega)]
    exact congrArg Except.ok (by omega)
  · have harr := h.hashed _ k hkey
    have hout : ¬(0 < (asInt k).getD (-1) ∧ (asInt k).getD (-1) ≤ t.sizearray) := by
      rw [arraySlot] at harr
      cases hint : asInt k with
      | none => exact fun hpos => absurd hpos.1 (by decide)
      | some i =>
        rw [hint] at harr
        intro hin
        simp only [Option.getD_some] at hin
        simp only [if_pos hin] at harr
        cases harr
    rw [if_neg hout, h.find_some hkey]
    exact congrArg Except.ok (by omega)

theorem findSome_range' {α : Type} (f : ℕ → Option α) (s n : ℕ) :
    (∀ b, (List.range' s n).findSome? f = some b →
      ∃ j, s ≤ j ∧ j < s + n ∧ f j = some b ∧ ∀ i, s ≤ i → i < j → f i = none) ∧
    ((List.range' s n).findSome? f = none → ∀ i, s ≤ i → i < s + n → f i = none) := by
  induction n generalizing s with
  | zero => exact ⟨fun b hb => absurd hb.symm (Option.some_ne_none b), fun _ i _ _ => by omega⟩
  | succ n ih =>
    rw [List.range'_succ, List.findSome?_cons]
    obtain ⟨hsome, hnone⟩ := ih (s + 1)
    cases hs : f s with
    | some b =>
      refine ⟨fun b' hb => ?_, fun hb => absurd hb (Option.some_ne_none b)⟩
      exact ⟨s, le_rfl, by omega, hs.trans hb, fun i _ _ => by omega⟩
    | none =>
      have hfrom : ∀ i, s ≤ i → s + 1 ≤ i ∨ f i = none := fun i hi => by
        obtain rfl | hlt := Nat.eq_or_lt_of_le hi
        · exact .inr hs
        · exact .inl hlt
      refine ⟨fun b hb => ?_, fun hb i hi hlt => ?_⟩
      · obtain ⟨j, hlow, hhigh, hj, hbefore⟩ := hsome b hb
        exact ⟨j, by omega, by omega, hj, fun i hi hij =>
          (hfrom i hi).elim (fun hi => hbefore i hi hij) id⟩
      · exact (hfrom i hi).elim (fun hi => hnone hb i hi (by omega)) id

theorem arrayPair_none {j : ℕ} (hj : At t k j) (hlt : j < t.sizearray)
    (hnone : arrayPair t.array j = none) : value H t k = none := by
  obtain ⟨-, hslot⟩ | ⟨hle, -⟩ := hj
  · rw [value_array H hslot]
    exact Option.map_eq_none_iff.mp hnone
  · omega

theorem arrayPair_some (h : Sound H t) {j : ℕ} (hlt : j < t.sizearray)
    (hsome : arrayPair t.array j = some (k, v)) : At t k j ∧ value H t k = some v := by
  obtain ⟨v', hv, hp⟩ := Option.map_eq_some_iff.mp hsome
  obtain ⟨rfl, rfl⟩ := Prod.mk.inj hp
  have hslot : arraySlot t (ofInt (j + 1 : ℕ)) = some j := by
    rw [arraySlot_ofInt t (hlt.trans_le h.asize), if_pos hlt]
  exact ⟨.inl ⟨hlt, hslot⟩, by rw [value_array H hslot, hv]⟩

theorem nodePair_none (h : Sound H t) {j : ℕ} (hj : At t k j) (hle : t.sizearray ≤ j)
    (hnone : (t.node (j - t.sizearray)).pair = none) : value H t k = none := by
  obtain ⟨hlt, -⟩ | ⟨-, hkey⟩ := hj
  · omega
  · rw [h.value_node hkey]
    refine Option.eq_none_iff_forall_ne_some.mpr fun v hv => ?_
    rw [Node.pair_eq_some.mpr ⟨hkey, hv⟩] at hnone
    cases hnone

theorem nodePair_some (h : Sound H t) {j : ℕ} (hsome : (t.node j).pair = some (k, v)) :
    At t k (j + t.sizearray) ∧ value H t k = some v := by
  obtain ⟨hkey, hv⟩ := Node.pair_eq_some.mp hsome
  exact ⟨.inr ⟨Nat.le_add_left _ j, by rw [Nat.add_sub_cancel]; exact hkey⟩,
    (h.value_node hkey).trans hv⟩

def NextFrom (H : Hashes) (t : Table V) (i : ℕ) : Option (Key × V) → Prop
  | some (k, v) => ∃ j, i ≤ j ∧ j < t.sizearray + t.sizenode ∧ At t k j ∧ value H t k = some v ∧
      ∀ k' j', At t k' j' → i ≤ j' → j' < j → value H t k' = none
  | none => ∀ k' j', At t k' j' → i ≤ j' → value H t k' = none

theorem luaHNext_spec (h : Sound H t) {idx : Index} {i : ℕ}
    (hidx : idx = .nil ∧ i = 0 ∨ ∃ k j, idx = .key k ∧ At t k j ∧ i = j + 1) :
    ∃ r, luaHNext H t idx = .ok r ∧ NextFrom H t i r := by
  have hstart : luaHNext H t idx = .ok (pairFrom t i) := by
    obtain ⟨rfl, rfl⟩ | ⟨k, j, rfl, hj, rfl⟩ := hidx
    · rfl
    · rw [luaHNext, findindex_at h hj]
      rfl
  rw [hstart, pairFrom]
  obtain ⟨hsome, hnone⟩ := findSome_range' (arrayPair t.array) i (t.sizearray - i)
  obtain ⟨hsome', hnone'⟩ := findSome_range' (fun j => (t.node j).pair)
    (i - t.sizearray) (t.sizenode - (i - t.sizearray))
  cases harr : (List.range' i (t.sizearray - i)).findSome? (arrayPair t.array) with
  | some p =>
    obtain ⟨k, v⟩ := p
    obtain ⟨j, hlow, hhigh, hj, hbefore⟩ := hsome _ harr
    obtain ⟨hat, hv⟩ := arrayPair_some h (by omega) hj
    exact ⟨some (k, v), rfl, j, hlow, by omega, hat, hv, fun k' j' hj' hi hlt =>
      arrayPair_none hj' (by omega) (hbefore j' hi hlt)⟩
  | none =>
    have harray : ∀ k' j', At t k' j' → i ≤ j' → j' < t.sizearray → value H t k' = none :=
      fun k' j' hj' hi hlt => arrayPair_none hj' hlt (hnone harr j' hi (by omega))
    cases hnode : (List.range' (i - t.sizearray) (t.sizenode - (i - t.sizearray))).findSome?
        (fun j => (t.node j).pair) with
    | some p =>
      obtain ⟨k, v⟩ := p
      obtain ⟨j, hlow, hhigh, hj, hbefore⟩ := hsome' _ hnode
      obtain ⟨hat, hv⟩ := nodePair_some h hj
      refine ⟨some (k, v), rfl, j + t.sizearray, by omega, by omega, hat, hv,
        fun k' j' hj' hi hlt => ?_⟩
      obtain hin | hout := Nat.lt_or_ge j' t.sizearray
      · exact harray k' j' hj' hi hin
      · exact nodePair_none h hj' hout (hbefore _ (by omega) (by omega))
    | none =>
      refine ⟨none, rfl, fun k' j' hj' hi => ?_⟩
      obtain hin | hout := Nat.lt_or_ge j' t.sizearray
      · exact harray k' j' hj' hi hin
      · refine nodePair_none h hj' hout (hnone' hnode _ (by omega) ?_)
        obtain ⟨hlt, -⟩ | ⟨-, hkey⟩ := hj'
        · omega
        · have hin := h.inside (by rw [hkey]; exact Option.some_ne_none k')
          omega

structure SamePlaces (H : Hashes) (t t' : Table V) : Prop where
  sound : Sound H t'
  sizearray : t'.sizearray = t.sizearray
  sizenode : t'.sizenode = t.sizenode
  at_iff : ∀ k j, At t' k j ↔ At t k j

theorem assignExisting_places (h : Sound H t) (w : Key × Option V) :
    SamePlaces H t (assignExisting H t w) := by
  rw [assignExisting]
  split
  · rename_i slot hslot
    obtain ⟨hsize, hnodes, -, -⟩ := store_sizes t w.2 slot
    refine ⟨h.store_sound hslot w.2, hsize, by rw [Table.sizenode, hnodes]; rfl, fun k j => ?_⟩
    rw [At, At, arraySlot, arraySlot, hsize, store_key]
  · exact ⟨h, rfl, rfl, fun _ _ => Iff.rfl⟩

theorem assignsExisting_places (h : Sound H t) (ws : List (Key × Option V)) :
    SamePlaces H t (ws.foldl (assignExisting H) t) := by
  induction ws generalizing t with
  | nil => exact ⟨h, rfl, rfl, fun _ _ => Iff.rfl⟩
  | cons w ws ih =>
    have hw := assignExisting_places h w
    have hrest := ih hw.sound
    exact ⟨hrest.sound, hrest.sizearray.trans hw.sizearray, hrest.sizenode.trans hw.sizenode,
      fun k j => (hrest.at_iff k j).trans (hw.at_iff k j)⟩

structure Visited (H : Hashes) (t : Table V) (i : ℕ) (visits : List (Table V × Key × V))
    (t' : Table V) : Prop where
  places : SamePlaces H t t'
  nodup : (visits.map fun p => p.2.1).Nodup
  found : ∀ p ∈ visits, value H p.1 p.2.1 = some p.2.2 ∧ ∃ j, i ≤ j ∧ At t p.2.1 j
  all : ∀ k j, At t k j → i ≤ j → (∀ p ∈ visits, value H p.1 k ≠ none) → value H t' k ≠ none →
    k ∈ visits.map fun p => p.2.1

theorem Visited.cons {t₁ : Table V} (h : Sound H t) (hp : SamePlaces H t t₁) {i j : ℕ}
    (hij : i ≤ j) (hat : At t k j) (hv : value H t k = some v)
    (hbetween : ∀ k' j', At t k' j' → i ≤ j' → j' < j → value H t k' = none)
    {visits : List (Table V × Key × V)} (hvis : Visited H t₁ (j + 1) visits t') :
    Visited H t i ((t, k, v) :: visits) t' := by
  refine ⟨⟨hvis.places.sound, hvis.places.sizearray.trans hp.sizearray,
    hvis.places.sizenode.trans hp.sizenode,
    fun k' j' => (hvis.places.at_iff k' j').trans (hp.at_iff k' j')⟩, ?_, ?_, ?_⟩
  · refine List.nodup_cons.mpr ⟨fun hmem => ?_, hvis.nodup⟩
    obtain ⟨p, hp', hk⟩ := List.mem_map.mp hmem
    obtain ⟨-, j', hj', hat'⟩ := hvis.found p hp'
    have hkey : p.2.1 = k := hk
    have heq := At.unique h hat ((hp.at_iff k j').mp (hkey ▸ hat'))
    omega
  · refine List.forall_mem_cons.mpr ⟨⟨hv, j, hij, hat⟩, fun p hp' => ?_⟩
    obtain ⟨hfound, j', hj', hat'⟩ := hvis.found p hp'
    exact ⟨hfound, j', by omega, (hp.at_iff _ _).mp hat'⟩
  · intro k' j' hat' hij' hall hlast
    obtain ⟨hnow, hlater⟩ := List.forall_mem_cons.mp hall
    rw [List.map_cons, List.mem_cons]
    obtain hlt | rfl | hgt := Nat.lt_trichotomy j' j
    · exact absurd (hbetween k' j' hat' hij' hlt) hnow
    · exact .inl (hat'.key_unique hat)
    · exact .inr (hvis.all k' j' ((hp.at_iff k' j').mpr hat') hgt hlater hlast)

theorem traverse_visited (h : Sound H t) (body : ℕ → List (Key × Option V)) {n round i : ℕ}
    (hn : t.sizearray + t.sizenode < n + i) (hi : i ≤ t.sizearray + t.sizenode) {idx : Index}
    (hidx : idx = .nil ∧ i = 0 ∨ ∃ k j, idx = .key k ∧ At t k j ∧ i = j + 1) :
    ∃ visits t', traverse H body n round t idx = .ok (visits, t') ∧ Visited H t i visits t' := by
  induction n generalizing round t i idx with
  | zero => omega
  | succ n ih =>
    obtain ⟨r, hr, hnext⟩ := luaHNext_spec h hidx
    rw [traverse, hr]
    cases r with
    | none =>
      exact ⟨[], t, rfl, ⟨h, rfl, rfl, fun _ _ => Iff.rfl⟩, List.nodup_nil,
        fun p hp => absurd hp List.not_mem_nil,
        fun k j hat hij _ hlast => absurd (hnext k j hat hij) hlast⟩
    | some p =>
      obtain ⟨k, v⟩ := p
      obtain ⟨j, hij, hj, hat, hv, hbetween⟩ := hnext
      have hp := assignsExisting_places h (body round)
      obtain ⟨visits, t', hrun, hvis⟩ : ∃ visits t', traverse H body n (round + 1)
          ((body round).foldl (assignExisting H) t) (.key k) = .ok (visits, t') ∧
          Visited H ((body round).foldl (assignExisting H) t) (j + 1) visits t' := by
        refine ih hp.sound ?_ ?_ (.inr ⟨k, j, rfl, (hp.at_iff k j).mpr hat, rfl⟩)
        · rw [hp.sizearray, hp.sizenode]
          omega
        · rw [hp.sizearray, hp.sizenode]
          exact hj
      refine ⟨(t, k, v) :: visits, t', ?_, hvis.cons h hp hij hat hv hbetween⟩
      show (do
        let r ← traverse H body n (round + 1) ((body round).foldl (assignExisting H) t) (.key k)
        pure ((t, k, v) :: r.1, r.2) : Result _) = _
      rw [hrun]
      rfl

/-- Whatever a loop assigns to existing fields, it ends, visits no key twice, and misses none that
has a value all the time. -/
theorem traversal_visits_all (h : Sound H t) (body : ℕ → List (Key × Option V)) :
    ∃ visits t', traverse H body (t.sizearray + t.sizenode + 1) 0 t .nil = .ok (visits, t') ∧
      Sound H t' ∧ (visits.map fun p => p.2.1).Nodup ∧
      (∀ p ∈ visits, value H p.1 p.2.1 = some p.2.2) ∧
      ∀ k, (∀ p ∈ visits, value H p.1 k ≠ none) → value H t' k ≠ none →
        k ∈ visits.map fun p => p.2.1 := by
  obtain ⟨visits, t', hrun, hvis⟩ :=
    traverse_visited h body (Nat.lt_succ_self _) (Nat.zero_le _) (.inl ⟨rfl, rfl⟩)
  refine ⟨visits, t', hrun, hvis.places.sound, hvis.nodup, fun p hp => (hvis.found p hp).1,
    fun k hall hlast => ?_⟩
  obtain ⟨j, hat⟩ := At.exists_of_value hvis.places.sound hlast
  exact hvis.all k j ((hvis.places.at_iff k j).mp hat) (Nat.zero_le j) hall hlast

theorem collisions_visited :
    ∃ t : Table ℕ, Sound ⟨fun _ => 0, 0, fun _ => 0⟩ t ∧
      ∃ visits t', traverse ⟨fun _ => 0, 0, fun _ => 0⟩
          (fun round => if round = 0 then [(ofInt 2, none)] else [])
          (t.sizearray + t.sizenode + 1) 0 t .nil = .ok (visits, t') ∧
        (visits.map fun p => p.2.1).Nodup := by
  obtain ⟨t₀, hnew⟩ : ∃ t : Table ℕ, luaHNew 0 0 = .ok t := ⟨_, rfl⟩
  obtain ⟨t, -, hsound, -⟩ :=
    new_writes ⟨fun _ => 0, 0, fun _ => 0⟩ hnew (Nat.zero_le _) collisions_keys 0
  obtain ⟨visits, t', hrun, -, hnodup, -⟩ := traversal_visits_all hsound
    fun round => if round = 0 then [(ofInt 2, none)] else []
  exact ⟨t, hsound, visits, t', hrun, hnodup⟩

end Jiauliyan.LuaTable
