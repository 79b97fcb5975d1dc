import Jiauliyan.LuaTableResize

namespace Jiauliyan.LuaTable

variable {V : Type} {H : Hashes} {t t' : Table V} {k : Key} {c : Counts} {l : List ℕ}

theorem ceillog2_le_iff (x n : ℕ) : ceillog2 x ≤ n ↔ x ≤ 2 ^ n := by
  obtain rfl | hx := Nat.eq_zero_or_pos x
  · exact iff_of_true (Nat.zero_le n) (Nat.zero_le _)
  · obtain ⟨hle, hlt⟩ := ceillog2_spec hx
    constructor
    · intro h
      exact hle.trans (Nat.pow_le_pow_right (by decide) h)
    · intro h
      obtain h0 | hlt := hlt
      · rw [h0]
        exact Nat.zero_le n
      · have hpow := (Nat.pow_lt_pow_iff_right (by decide : 1 < 2)).mp (hlt.trans_le h)
        omega

structure Tallied (l : List ℕ) (c : Counts) : Prop where
  nums : ∀ j, c.1 j = l.countP fun x => ceillog2 x = j
  total : c.2 = l.length

theorem Tallied.slice (h : Tallied l c) {s : List ℕ} {j : ℕ} (hs : ∀ x ∈ s, ceillog2 x = j) :
    Tallied (l ++ s) (count c.1 j s.length, c.2 + s.length) := by
  refine ⟨fun i => ?_, ?_⟩
  · show count c.1 j s.length i = _
    rw [List.countP_append, count, Function.update_apply]
    split_ifs with hi
    · have hall : s.countP (fun x => ceillog2 x = i) = s.length :=
        List.countP_eq_length.mpr fun x hx => decide_eq_true (by rw [hs x hx, hi])
      rw [hall, h.nums, hi]
    · have hnone : s.countP (fun x => ceillog2 x = i) = 0 :=
        List.countP_eq_zero.mpr fun x hx hxi => hi (by rw [← hs x hx, of_decide_eq_true hxi])
      rw [hnone, h.nums, Nat.add_zero]
  · rw [List.length_append, h.total]

def candidate (k : Key) : Option ℕ :=
  if 0 < arrayindex k ∧ arrayindex k ≤ MAXASIZE then some (arrayindex k).toNat else none

theorem Tallied.countint (h : Tallied l c) (k : Key) :
    Tallied (l ++ (candidate k).toList) (countint k c) := by
  rw [LuaTable.countint, candidate]
  split_ifs with hk
  · exact h.slice (s := [(arrayindex k).toNat]) fun x hx => by rw [List.mem_singleton.mp hx]
  · rw [Option.toList_none, List.append_nil]
    exact h

theorem present_split (t : Table V) (lim : ℕ) {i : ℕ} (hi : 1 ≤ i) :
    present t 1 (i - 1) ++ present t i lim = present t 1 (max i (lim + 1) - 1) := by
  rw [present, present, present, ← List.filter_append]
  have hrange : List.range' 1 (i - 1 + 1 - 1) ++ List.range' i (lim + 1 - i) =
      List.range' 1 (max i (lim + 1) - 1 + 1 - 1) := by
    have hlow : i - 1 + 1 - 1 = i - 1 := by omega
    have hstart : i = 1 + (i - 1) := by omega
    have hlen : max i (lim + 1) - 1 + 1 - 1 = i - 1 + (lim + 1 - i) := by omega
    rw [hlow, hlen, ← List.range'_append_1, ← hstart]
  rw [hrange]

theorem mem_present {i lim x : ℕ} (hx : x ∈ present t i lim) : i ≤ x ∧ x ≤ lim := by
  have hmem := List.mem_range'_1.mp (List.mem_filter.mp hx).1
  omega

theorem numusearrayLoop_spec (hasize : t.sizearray ≤ MAXASIZE) {n lg i : ℕ}
    (hn : n + lg = MAXBITS + 1) (hi : 1 ≤ i) (hle : i ≤ t.sizearray + 1)
    (hlow : ∀ x, i ≤ x → x ≤ t.sizearray → ∀ j < lg, 2 ^ j < x)
    (hc : Tallied (present t 1 (i - 1)) c) :
    Tallied (present t 1 t.sizearray) (numusearrayLoop t n lg i c) := by
  induction n generalizing lg i c with
  | zero =>
    have hend : i - 1 = t.sizearray := by
      by_contra hne
      have hbig := hlow t.sizearray (by omega) le_rfl MAXBITS (by omega)
      exact absurd hasize (Nat.not_le.mpr hbig)
    rw [← hend]
    exact hc
  | succ n ih =>
    rw [numusearrayLoop]
    simp only
    split_ifs with hstop
    · have hend : i - 1 = t.sizearray := by omega
      rw [← hend]
      exact hc
    · refine ih (by omega) (le_max_of_le_left hi) (by omega) (fun x hx hxs j hj => ?_) ?_
      · obtain hj | rfl := Nat.lt_succ_iff_lt_or_eq.mp hj
        · exact hlow x (le_trans (le_max_left _ _) hx) hxs j hj
        · omega
      · rw [← present_split t _ hi]
        refine hc.slice fun x hx => ?_
        obtain ⟨hix, hxlim⟩ := mem_present hx
        have hle := (ceillog2_le_iff x lg).mpr (hxlim.trans (min_le_left _ _))
        refine le_antisymm hle (Nat.not_lt.mp fun hlt => ?_)
        have hin := (ceillog2_le_iff x (ceillog2 x)).mp le_rfl
        have hout := hlow x hix (hxlim.trans (min_le_right _ _)) _ hlt
        omega

theorem numusearray_spec (hasize : t.sizearray ≤ MAXASIZE) :
    Tallied (present t 1 t.sizearray) (numusearray t) :=
  numusearrayLoop_spec hasize rfl le_rfl (Nat.le_add_left 1 _)
    (fun _ _ _ j hj => absurd hj (Nat.not_lt_zero j)) ⟨fun _ => rfl, rfl⟩

def live (t : Table V) : List (Key × V) := nodePairs t.node (List.range t.sizenode).reverse

theorem countNodes_spec (h : Sound H t) (ns : List ℕ) (hc : Tallied l c) (m : ℕ) :
    Tallied (l ++ (nodePairs t.node ns).filterMap fun p => candidate p.1)
        (ns.foldl (fun c i => countNode (t.node i) c) (c, m)).1 ∧
      (ns.foldl (fun c i => countNode (t.node i) c) (c, m)).2 =
        m + (nodePairs t.node ns).length := by
  induction ns generalizing l c m with
  | nil =>
    refine ⟨?_, rfl⟩
    rw [nodePairs, List.filterMap_nil, List.filterMap_nil, List.append_nil]
    exact hc
  | cons i ns ih =>
    rw [List.foldl_cons, countNode]
    obtain ⟨hv, hpair⟩ | ⟨k, v, hk, hv, hpair⟩ := h.node_cases i
    · have hpairs : nodePairs t.node (i :: ns) = nodePairs t.node ns :=
        List.filterMap_cons_none hpair
      rw [hv, hpairs]
      exact ih hc m
    · have hpairs : nodePairs t.node (i :: ns) = (k, v) :: nodePairs t.node ns :=
        List.filterMap_cons_some hpair
      obtain ⟨htally, hlen⟩ := ih (hc.countint k) (m + 1)
      rw [hv, hk, hpairs]
      refine ⟨?_, ?_⟩
      · have hlist : (l ++ (candidate k).toList) ++
            (nodePairs t.node ns).filterMap (fun p => candidate p.1) =
            l ++ ((k, v) :: nodePairs t.node ns).filterMap fun p => candidate p.1 := by
          rw [List.append_assoc, List.filterMap_cons]
          cases candidate k <;> rfl
        rw [← hlist]
        exact htally
      · rw [List.length_cons]
        exact hlen.trans (by omega)

theorem numusehash_spec (h : Sound H t) (hc : Tallied l c) :
    Tallied (l ++ (live t).filterMap fun p => candidate p.1) (numusehash t c).1 ∧
      (numusehash t c).2 = (live t).length := by
  obtain ⟨htally, hlen⟩ := countNodes_spec h (List.range t.sizenode).reverse hc 0
  exact ⟨htally, hlen.trans (Nat.zero_add _)⟩

theorem countP_slices (l : List ℕ) (i : ℕ) :
    (l.countP fun x => ceillog2 x < i) + (l.countP fun x => ceillog2 x = i) =
      l.countP fun x => x ≤ 2 ^ i := by
  induction l with
  | nil => rfl
  | cons x l ih =>
    have hx := ceillog2_le_iff x i
    simp only [List.countP_cons, decide_eq_true_eq]
    rw [← ih]
    split_ifs <;> omega

theorem sizesLoop_spec {nums : ℕ → ℕ} (hnums : ∀ j, nums j = l.countP fun x => ceillog2 x = j)
    {narray n i a : ℕ} {best : ℕ × ℕ} (hn : n + i = MAXBITS + 1)
    (ha : a = l.countP fun x => ceillog2 x < i)
    (hbest : best.1 ≤ MAXASIZE ∧ best.2 ≤ l.countP fun x => x ≤ best.1) :
    (sizesLoop nums narray n i a best).1 ≤ MAXASIZE ∧ (sizesLoop nums narray n i a best).2 ≤
      l.countP fun x => x ≤ (sizesLoop nums narray n i a best).1 := by
  induction n generalizing i a best with
  | zero => exact hbest
  | succ n ih =>
    rw [sizesLoop]
    have hslice : a + nums i = l.countP fun x => x ≤ 2 ^ i := by
      rw [ha, hnums, countP_slices]
    have hnext : a + nums i = l.countP fun x => ceillog2 x < i + 1 := by
      rw [hslice]
      refine List.countP_congr fun x _ => ?_
      rw [decide_eq_true_eq, decide_eq_true_eq, Nat.lt_succ_iff, ceillog2_le_iff]
    have hbest' : (if 0 < nums i ∧ 2 ^ i / 2 < a + nums i then (2 ^ i, a + nums i) else best).1 ≤
        MAXASIZE ∧
        (if 0 < nums i ∧ 2 ^ i / 2 < a + nums i then (2 ^ i, a + nums i) else best).2 ≤
          l.countP fun x => x ≤
            (if 0 < nums i ∧ 2 ^ i / 2 < a + nums i then (2 ^ i, a + nums i) else best).1 := by
      split_ifs
      · exact ⟨Nat.pow_le_pow_right (by decide) (by omega), hslice.le⟩
      · exact hbest
    by_cases hmore : 2 ^ i / 2 < narray
    · rw [if_pos hmore]
      simp only
      by_cases hall : a + nums i = narray
      · rw [if_pos hall]
        exact hbest'
      · rw [if_neg hall]
        exact ih (by omega) hnext hbest'
    · rw [if_neg hmore]
      exact hbest

theorem computesizes_spec (hc : Tallied l c) (narray : ℕ) :
    (computesizes c.1 narray).1 ≤ MAXASIZE ∧ (computesizes c.1 narray).2 ≤
      l.countP fun x => x ≤ (computesizes c.1 narray).1 :=
  sizesLoop_spec hc.nums rfl
    (List.countP_eq_zero.mpr fun _ _ hx => Nat.not_lt_zero _ (of_decide_eq_true hx)).symm
    ⟨Nat.zero_le _, Nat.zero_le _⟩

/-- The number of elements. -/
def entries (t : Table V) : ℕ := (present t 1 t.sizearray).length + (live t).length

def misses (t : Table V) (k : Key) : ℕ := if (arraySlot t k).isSome then 0 else 1

theorem candidate_slot {x : ℕ} (hk : candidate k = some x) (hx : x ≤ t.sizearray) :
    (arraySlot t k).isSome = true := by
  rw [candidate] at hk
  split_ifs at hk with hpos
  cases hk
  rw [arrayindex] at hpos hx
  rw [arraySlot]
  cases hint : asInt k with
  | none =>
    rw [hint] at hpos
    exact absurd hpos.1 (by decide)
  | some i =>
    rw [hint, Option.getD_some] at hpos hx
    have hi : 0 < i ∧ i ≤ t.sizearray := by omega
    simp only [if_pos hi, Option.isSome_some]

theorem candidate_misses (t : Table V) (k : Key) :
    ((candidate k).toList.countP fun x => x ≤ t.sizearray) + misses t k ≤ 1 := by
  rw [misses]
  cases hk : candidate k with
  | none =>
    rw [Option.toList_none, List.countP_nil]
    split_ifs <;> omega
  | some x =>
    rw [Option.toList_some, List.countP_singleton]
    by_cases hx : x ≤ t.sizearray
    · rw [if_pos (candidate_slot hk hx)]
      split_ifs <;> omega
    · rw [if_neg (by simpa using hx)]
      split_ifs <;> omega

theorem pairs_miss (t : Table V) (ps : List (Key × V)) :
    ((ps.filterMap fun p => candidate p.1).countP fun x => x ≤ t.sizearray) + outside t ps ≤
      ps.length := by
  induction ps with
  | nil => exact le_rfl
  | cons p ps ih =>
    have hp := candidate_misses t p.1
    have hout : outside t (p :: ps) = outside t ps + misses t p.1 := by
      rw [outside, List.countP_cons, outside, misses]
      cases arraySlot t p.1 <;> rfl
    have hcount : ((p :: ps).filterMap fun p => candidate p.1).countP (fun x => x ≤ t.sizearray) =
        ((candidate p.1).toList.countP fun x => x ≤ t.sizearray) +
          (ps.filterMap fun p => candidate p.1).countP fun x => x ≤ t.sizearray := by
      rw [List.filterMap_cons, ← List.countP_append]
      cases candidate p.1 <;> rfl
    rw [hout, hcount, List.length_cons]
    omega

theorem slice_length (array : ℕ → Option V) (s n : ℕ) :
    (slice array (List.range' s n)).length =
      ((List.range' (s + 1) n).filter fun x => (array (x - 1)).isSome).length := by
  induction n generalizing s with
  | zero => rfl
  | succ n ih =>
    rw [List.range'_succ, List.range'_succ, slice, List.filterMap_cons, List.filter_cons,
      Nat.add_sub_cancel, arrayPair]
    have hrest := ih (s + 1)
    rw [slice] at hrest
    cases array s with
    | none => exact hrest
    | some v => exact congrArg (· + 1) hrest

theorem array_miss (t : Table V) (n : ℕ) :
    ((present t 1 t.sizearray).countP fun x => x ≤ n) +
        (slice t.array (List.range' n (t.sizearray - n))).length ≤
      (present t 1 t.sizearray).length := by
  obtain hn | hn := Nat.lt_or_ge t.sizearray n
  · rw [Nat.sub_eq_zero_of_le hn.le]
    exact List.countP_le_length
  · have hsplit := present_split t t.sizearray (Nat.le_add_left 1 n)
    have hmax : max (n + 1) (t.sizearray + 1) - 1 = t.sizearray := by omega
    rw [hmax] at hsplit
    have hlater : (present t (n + 1) t.sizearray).countP (fun x => x ≤ n) = 0 :=
      List.countP_eq_zero.mpr fun x hx hle => by
        have hlow := (mem_present hx).1
        have hhigh := of_decide_eq_true hle
        omega
    have hlen : (slice t.array (List.range' n (t.sizearray - n))).length =
        (present t (n + 1) t.sizearray).length := by
      rw [slice_length, present, Nat.add_sub_add_right]
    rw [← hsplit, List.countP_append, hlater, List.length_append, hlen]
    have hle := List.countP_le_length (p := fun x => decide (x ≤ n)) (l := present t 1 n)
    rw [Nat.add_sub_cancel]
    omega

def candidates (t : Table V) (k : Key) : List ℕ :=
  present t 1 t.sizearray ++ ((live t).filterMap fun p => candidate p.1) ++ (candidate k).toList

theorem room_enough (t : Table V) (k : Key) (n : ℕ) :
    ((candidates t k).countP fun x => x ≤ n) + leavingOut t n +
        misses { t with sizearray := n } k ≤ entries t + 1 := by
  have hk := candidate_misses { t with sizearray := n } k
  have hlive := pairs_miss { t with sizearray := n } (live t)
  have harray := array_miss t n
  have hslice : outside { t with sizearray := n }
      (slice t.array (List.range' n (t.sizearray - n))) ≤
        (slice t.array (List.range' n (t.sizearray - n))).length := List.countP_le_length
  have hleaving : leavingOut t n = outside { t with sizearray := n }
      (slice t.array (List.range' n (t.sizearray - n))) +
        outside { t with sizearray := n } (live t) := by
    rw [leavingOut, leaving, outside, List.countP_append]
    rfl
  rw [candidates, List.countP_append, List.countP_append, hleaving, entries]
  simp only at hk hlive
  omega

theorem misses_congr (h : t'.sizearray = t.sizearray) (k : Key) : misses t' k = misses t k := by
  rw [misses, misses, arraySlot, arraySlot, h]

theorem resize_overflow (set : Key → Table V → Result (Table V × Slot))
    (setnum : ℤ → Table V → Result (Table V × Slot)) (t : Table V) (nasize : ℕ) {nhsize : ℕ}
    (h0 : nhsize ≠ 0) (hsize : MAXBITS < ceillog2 nhsize) :
    resize set setnum t nasize nhsize = .error (.error "table overflow") := by
  rw [resize, setnodevector, if_neg h0]
  simp only [if_pos hsize]
  rfl

theorem rehash_spec (h : Sound H t) (k : Key) (fuel : ℕ) :
    (∃ t', rehash (fun k => setOr H (newkey H (fuel + 1)) (.key k))
        (setnumOr H (newkey H (fuel + 1))) t k = .ok t' ∧
      Sound H t' ∧ value H t' = value H t ∧ Fits k t') ∨
    (rehash (fun k => setOr H (newkey H (fuel + 1)) (.key k))
        (setnumOr H (newkey H (fuel + 1))) t k = .error (.error "table overflow") ∧
      2 ^ MAXBITS ≤ entries t) := by
  have harray := numusearray_spec h.asize
  obtain ⟨hhash, hlive⟩ := numusehash_spec h harray
  have htally : Tallied (candidates t k) (countint k (numusehash t (numusearray t)).1) :=
    hhash.countint k
  obtain ⟨n, hn⟩ : ∃ n, n = computesizes (countint k (numusehash t (numusearray t)).1).1
    (countint k (numusehash t (numusearray t)).1).2 := ⟨_, rfl⟩
  obtain ⟨hasize, hna⟩ := computesizes_spec htally (countint k (numusehash t (numusearray t)).1).2
  rw [← hn] at hasize hna
  have henough := room_enough t k n.1
  have htotal : (numusearray t).2 + (numusehash t (numusearray t)).2 + 1 = entries t + 1 := by
    rw [harray.total, hlive, entries]
  rw [rehash]
  simp only [← hn, htotal]
  by_cases hsize : entries t + 1 - n.2 = 0 ∨ ceillog2 (entries t + 1 - n.2) ≤ MAXBITS
  · left
    obtain ⟨t', ht', hsound, hvalue, hsizes, hroom⟩ :=
      resize_spec h hasize hsize (by omega) fuel
    refine ⟨t', ht', hsound, hvalue, ⟨?_⟩⟩
    have hmiss : misses t' k ≤ room t' := by
      rw [misses_congr (t := { t with sizearray := n.1 }) hsizes]
      omega
    rw [misses] at hmiss
    cases harr : (arraySlot t' k).isSome with
    | true => exact .inl rfl
    | false =>
      rw [harr, if_neg Bool.false_ne_true] at hmiss
      exact .inr (.inr hmiss)
  · right
    obtain ⟨h0, hbits⟩ := not_or.mp hsize
    refine ⟨resize_overflow _ _ t n.1 h0 (Nat.not_le.mp hbits), ?_⟩
    have hlt := mt (ceillog2_le_iff _ MAXBITS).mpr hbits
    omega

theorem Sound.newkey_spec (h : Sound H t) (hk : ∀ i, t.key i ≠ some k)
    (harr : arraySlot t k = none) (fuel : ℕ) :
    (∃ t' slot, newkey H (fuel + 2) t k = .ok (t', slot) ∧ Pointed H k t t' slot) ∨
    (newkey H (fuel + 2) t k = .error (.error "table overflow") ∧ 2 ^ MAXBITS ≤ entries t) := by
  cases hfree : getfreepos t with
  | some n =>
    obtain ⟨t', i, hnew, hshape, hins⟩ := h.newkey_free hk harr hfree (fuel + 1)
    exact .inl ⟨t', .node i, hnew, hins.pointed h hk harr hshape⟩
  | none =>
    by_cases hfull : (t.node (mainposition H t.sizenode k)).val.isSome = true ∨ t.dummy = true
    · rw [newkey]
      simp only [if_pos hfull, hfree]
      obtain ⟨t₁, hrehash, hsound, hvalue, hfits⟩ | ⟨hrehash, hlarge⟩ := rehash_spec h k fuel
      · obtain ⟨t', slot, hset, hp, -, -⟩ := hsound.setOr_fits hfits fuel
        refine .inl ⟨t', slot, ?_, hp.sound, hp.slot, fun k' => ?_⟩
        · rw [hrehash]
          exact hset
        · rw [hp.same, hvalue]
      · refine .inr ⟨?_, hlarge⟩
        rw [hrehash]
        rfl
    · obtain ⟨hval, hd⟩ := not_or.mp hfull
      obtain ⟨t', i, hnew, hshape, hins⟩ := h.newkey_overwrite hk harr
        (Option.not_isSome_iff_eq_none.mp hval) (Bool.eq_false_iff.mpr hd) (fuel + 1)
      exact .inl ⟨t', .node i, hnew, hins.pointed h hk harr hshape⟩

theorem Sound.luaHSet_spec (h : Sound H t) (k : Key) (fuel : ℕ) :
    (∃ t' slot, luaHSet H (fuel + 2) (.key k) t = .ok (t', slot) ∧ Pointed H k t t' slot) ∨
    (luaHSet H (fuel + 2) (.key k) t = .error (.error "table overflow") ∧
      value H t k = none ∧ 2 ^ MAXBITS ≤ entries t) := by
  cases harr : arraySlot t k with
  | some i =>
    have hget : luaHGet H t (.key k) = .ok (some (.array i)) := by rw [luaHGet_key, harr]
    refine .inl ⟨t, .array i, ?_, h, hget, fun _ => rfl⟩
    rw [luaHSet, setOr, hget]
    rfl
  | none =>
    by_cases hk : ∃ i, t.key i = some k
    · obtain ⟨i, hi⟩ := hk
      have hget := h.get_node hi
      refine .inl ⟨t, .node i, ?_, h, hget, fun _ => rfl⟩
      rw [luaHSet, setOr, hget]
      rfl
    · have hnone : ∀ i, t.key i ≠ some k := fun i hi => hk ⟨i, hi⟩
      rw [luaHSet, setOr, h.get_none harr hnone]
      obtain hnew | ⟨hnew, hlarge⟩ := h.newkey_spec hnone harr fuel
      · exact .inl hnew
      · exact .inr ⟨hnew, h.value_none harr hnone, hlarge⟩

end Jiauliyan.LuaTable
