import Jiauliyan.LuaTableContents

namespace Jiauliyan.LuaTable

open Jiauliyan.Links

variable {V : Type} {H : Hashes} {t t' : Table V}

theorem log_2_spec : ∀ x < 256, x < 2 ^ log_2.getD x 0 ∧
    (log_2.getD x 0 = 0 ∨ 2 ^ (log_2.getD x 0 - 1) ≤ x) := by decide +kernel

theorem log2Loop_spec {n x : ℕ} (hn : x ≤ n) (l : ℤ) :
    ∃ b : ℕ, log2Loop n x l = l + b ∧ x < 2 ^ b ∧ (b = 0 ∨ 2 ^ (b - 1) ≤ x) := by
  induction n generalizing x l with
  | zero =>
    obtain rfl := Nat.le_zero.mp hn
    exact ⟨log_2.getD 0 0, rfl, log_2_spec 0 (by decide)⟩
  | succ n ih =>
    rw [log2Loop]
    split_ifs with hx
    · obtain ⟨b, hb, hlt, hle⟩ := ih (x := x / 256) (by omega) (l + 8)
      refine ⟨b + 8, ?_, ?_, .inr ?_⟩
      · rw [hb]
        omega
      · rw [Nat.pow_add]
        omega
      · obtain rfl | hle := hle
        · omega
        · have hb0 : b ≠ 0 := by
            rintro rfl
            omega
          have hsplit : b + 8 - 1 = b - 1 + 8 := by omega
          rw [hsplit, Nat.pow_add]
          omega
    · exact ⟨log_2.getD x 0, rfl, log_2_spec x (by omega)⟩

theorem ceillog2_spec {x : ℕ} (hx : 0 < x) :
    x ≤ 2 ^ ceillog2 x ∧ (ceillog2 x = 0 ∨ 2 ^ (ceillog2 x - 1) < x) := by
  obtain ⟨b, hb, hlt, hle⟩ := log2Loop_spec (le_refl (x - 1)) (-1)
  have hceil : ceillog2 x = b := by
    rw [ceillog2, luaOLog2, hb]
    omega
  rw [hceil]
  omega

theorem linked_none : Linked fun _ : ℕ => none :=
  ⟨fun h => absurd h.symm (Option.some_ne_none _), ⟨fun _ => ⟨_, fun _ h =>
    absurd h.symm (Option.some_ne_none _)⟩⟩⟩

structure Fresh (t : Table V) : Prop where
  bits : t.lsizenode ≤ MAXBITS
  node : t.node = fun _ => emptyNode
  last : t.lastfree = if t.dummy then 0 else t.sizenode

theorem Fresh.sound (h : Fresh t) (hasize : t.sizearray ≤ MAXASIZE) : Sound H t := by
  have hkey : ∀ i, t.key i = none := fun i => by rw [Table.key, h.node, emptyNode]
  have hval : ∀ i, t.val i = none := fun i => by rw [Table.val, h.node, emptyNode]
  have hnext : t.next = fun _ => none := by
    funext i
    rw [Table.next, h.node, emptyNode]
  have hnokey : ∀ i k, t.key i = some k → False := fun i k hi => by
    rw [hkey i] at hi
    cases hi
  refine ⟨h.bits, hasize, fun i _ => hkey i, fun hd => ⟨?_, hkey⟩, fun i _ => ⟨hval i, ?_⟩, ?_,
    fun i j hij => ?_, ?_, fun i hi hlt hd => ?_, fun i j k hi => (hnokey i k hi).elim,
    fun i k hi => (hnokey i k hi).elim, fun i k hi => (hnokey i k hi).elim,
    fun i k hi => (hnokey i k hi).elim⟩
  · rw [h.last, if_pos hd]
  · rw [hnext]
  · rw [hnext]
    exact linked_none
  · rw [hnext] at hij
    cases hij
  · rw [h.last]
    split_ifs
    · exact Nat.zero_le _
    · exact le_rfl
  · rw [h.last, hd] at hi
    exact absurd hlt (Nat.not_lt.mpr hi)

theorem setnodevector_spec (t : Table V) {size : ℕ}
    (hsize : size = 0 ∨ ceillog2 size ≤ MAXBITS) :
    ∃ t', setnodevector t size = .ok t' ∧ Fresh t' ∧ t'.array = t.array ∧
      t'.sizearray = t.sizearray ∧ size ≤ room t' := by
  rw [setnodevector]
  by_cases h0 : size = 0
  · rw [if_pos h0]
    refine ⟨_, rfl, ⟨Nat.zero_le _, rfl, rfl⟩, rfl, rfl, ?_⟩
    rw [h0]
    exact Nat.zero_le _
  · have hbits := hsize.resolve_left h0
    rw [if_neg h0]
    simp only [if_neg (Nat.not_lt.mpr hbits)]
    refine ⟨_, rfl, ⟨hbits, rfl, rfl⟩, rfl, rfl, ?_⟩
    have hfree : freeNodes { t with
        lsizenode := ceillog2 size
        node := fun _ => (emptyNode : Node V)
        dummy := false
        lastfree := 2 ^ ceillog2 size } = Finset.range (2 ^ ceillog2 size) :=
      Finset.filter_true_of_mem fun _ _ => rfl
    rw [room, if_neg Bool.false_ne_true, hfree, Finset.card_range]
    exact (ceillog2_spec (Nat.pos_of_ne_zero h0)).1

def outside (t : Table V) (ps : List (Key × V)) : ℕ :=
  ps.countP fun p => (arraySlot t p.1).isNone

theorem outside_congr (h : t'.sizearray = t.sizearray) (ps : List (Key × V)) :
    outside t' ps = outside t ps :=
  List.countP_congr fun p _ => by rw [arraySlot, arraySlot, h]

def fill (set : Key → Table V → Result (Table V × Slot)) (ps : List (Key × V)) (t : Table V) :
    Result (Table V) := ps.foldlM (fun t p => assign (set p.1) p.2 t) t

theorem fill_append (set : Key → Table V → Result (Table V × Slot)) (ps qs : List (Key × V))
    (t : Table V) : fill set (ps ++ qs) t = fill set ps t >>= fill set qs :=
  List.foldlM_append

def updates (ps : List (Key × V)) (f : Key → Option V) : Key → Option V :=
  ps.foldl (fun (f : Key → Option V) p => Function.update f p.1 (some p.2)) f

structure Filled (H : Hashes) (ps : List (Key × V)) (t t' : Table V) : Prop where
  sound : Sound H t'
  value : value H t' = updates ps (value H t)
  sizearray : t'.sizearray = t.sizearray
  room : room t ≤ room t' + outside t ps

theorem fill_spec (h : Sound H t) {ps : List (Key × V)} (hroom : outside t ps ≤ room t)
    (fuel : ℕ) :
    ∃ t', fill (fun k => setOr H (newkey H (fuel + 1)) (.key k)) ps t = .ok t' ∧
      Filled H ps t t' := by
  induction ps generalizing t with
  | nil => exact ⟨t, rfl, h, rfl, rfl, Nat.le_add_right _ _⟩
  | cons p ps ih =>
    obtain ⟨k, v⟩ := p
    have hone : outside t ((k, v) :: ps) =
        outside t ps + if (arraySlot t k).isSome then 0 else 1 := by
      rw [outside, List.countP_cons, outside]
      cases arraySlot t k <;> rfl
    rw [hone] at hroom
    have hfits : Fits k t := by
      refine ⟨?_⟩
      cases harr : arraySlot t k with
      | some i => exact .inl rfl
      | none =>
        simp only [harr, Option.isSome_none, Bool.false_eq_true, if_false] at hroom
        exact .inr (.inr (by omega))
    obtain ⟨t₁, hassign, ha⟩ := h.assign_fits hfits fuel v
    have hout : outside t₁ ps = outside t ps := outside_congr ha.sizearray ps
    have hstep := ha.room
    obtain ⟨t', hfill, hf⟩ := ih ha.sound (by omega)
    have hrest := hf.room
    refine ⟨t', ?_, hf.sound, ?_, hf.sizearray.trans ha.sizearray, by omega⟩
    · rw [fill, List.foldlM_cons, hassign]
      exact hfill
    · rw [hf.value]
      show updates ps (value H t₁) = updates ps (Function.update (value H t) k (some v))
      congr 1
      funext k'
      rw [ha.value, Function.update_apply]

theorem updates_eq {ps : List (Key × V)} {f g : Key → Option V}
    (hps : ∀ p ∈ ps, f p.1 = some p.2) (hg : ∀ k, (∀ p ∈ ps, p.1 ≠ k) → g k = f k) :
    updates ps g = f := by
  induction ps generalizing g with
  | nil =>
    funext k
    exact hg k fun p hp => absurd hp List.not_mem_nil
  | cons p ps ih =>
    obtain ⟨hp, hrest⟩ := List.forall_mem_cons.mp hps
    refine ih hrest fun k hk => ?_
    show Function.update g p.1 (some p.2) k = f k
    rw [Function.update_apply]
    split_ifs with hkp
    · rw [hkp, hp]
    · exact hg k (List.forall_mem_cons.mpr ⟨fun heq => hkp heq.symm, hk⟩)

def slice (array : ℕ → Option V) (l : List ℕ) : List (Key × V) := l.filterMap (arrayPair array)

def nodePairs (node : ℕ → Node V) (l : List ℕ) : List (Key × V) :=
  l.filterMap fun i => (node i).pair

theorem arraySlot_ofInt (t : Table V) {i : ℕ} (hi : i < MAXASIZE) :
    arraySlot t (ofInt (i + 1 : ℕ)) = if i < t.sizearray then some i else none := by
  have hmax : MAXASIZE = 67108864 := rfl
  rw [arraySlot, asInt_ofInt (by omega) (by omega)]
  simp only
  have hiff : (0 < ((i + 1 : ℕ) : ℤ) ∧ ((i + 1 : ℕ) : ℤ) ≤ t.sizearray) ↔ i < t.sizearray := by
    omega
  have hsub : (((i + 1 : ℕ) : ℤ) - 1).toNat = i := by omega
  simp only [hiff, hsub]

theorem setnumOr_eq (newkey : Table V → Key → Result (Table V × Slot)) (t : Table V) {i : ℕ}
    (hi : i < MAXASIZE) : setnumOr H newkey (i + 1 : ℕ) t =
      setOr H newkey (.key (ofInt (i + 1 : ℕ))) t := by
  have hmax : MAXASIZE = 67108864 := rfl
  rw [setnumOr, setOr, luaHGetnum_eq H t (asInt_ofInt (by omega) (by omega))]

theorem vanish_eq (h : Sound H t) {l : List ℕ} (hl : ∀ i ∈ l, t.sizearray ≤ i ∧ i < MAXASIZE)
    (hroom : outside t (slice t.array l) ≤ room t) (fuel : ℕ) :
    l.foldlM (reinsertAt (setnumOr H (newkey H (fuel + 1)))) t =
    fill (fun k => setOr H (newkey H (fuel + 1)) (.key k)) (slice t.array l) t := by
  induction l generalizing t with
  | nil => rfl
  | cons i l ih =>
    obtain ⟨⟨hlow, hhigh⟩, hrest⟩ := List.forall_mem_cons.mp hl
    rw [List.foldlM_cons, reinsertAt]
    cases hv : t.array i with
    | none =>
      have hslice : slice t.array (i :: l) = slice t.array l := by
        rw [slice, List.filterMap_cons, arrayPair, hv]
        rfl
      rw [hslice] at hroom ⊢
      exact ih h hrest hroom
    | some v =>
      have hslice : slice t.array (i :: l) = (ofInt (i + 1 : ℕ), v) :: slice t.array l := by
        rw [slice, List.filterMap_cons, arrayPair, hv]
        rfl
      have harr : arraySlot t (ofInt (i + 1 : ℕ)) = none := by
        rw [arraySlot_ofInt t hhigh, if_neg (Nat.not_lt.mpr hlow)]
      rw [hslice] at hroom ⊢
      rw [outside, List.countP_cons_of_pos (by rw [harr]; rfl)] at hroom
      obtain ⟨t₁, hassign, ha⟩ :=
        h.assign_fits (k := ofInt (i + 1 : ℕ)) ⟨.inr (.inr (by omega))⟩ fuel v
      have hroom₁ := ha.room
      rw [harr, Option.isSome_none, if_neg Bool.false_ne_true] at hroom₁
      rw [← outside] at hroom
      have hrec := ih ha.sound (by rw [ha.sizearray]; exact hrest) (by
        rw [ha.array harr, outside_congr ha.sizearray]
        omega)
      rw [ha.array harr] at hrec
      have hset : assign (setnumOr H (newkey H (fuel + 1)) (i + 1 : ℕ)) v t = .ok t₁ := by
        rw [← hassign, assign, assign, setnumOr_eq _ _ hhigh]
      rw [fill, List.foldlM_cons, hassign]
      simp only [hset]
      exact hrec

theorem Node.pair_eq_some {n : Node V} {k : Key} {v : V} :
    n.pair = some (k, v) ↔ n.key = some k ∧ n.val = some v := by
  rw [Node.pair]
  cases n.val with
  | none => simp
  | some v' =>
    cases n.key with
    | none => simp
    | some k' => simp

theorem Sound.node_cases (h : Sound H t) (i : ℕ) :
    ((t.node i).val = none ∧ (t.node i).pair = none) ∨
      ∃ k v, (t.node i).key = some k ∧ (t.node i).val = some v ∧
        (t.node i).pair = some (k, v) := by
  cases hv : (t.node i).val with
  | none => exact .inl ⟨rfl, by rw [Node.pair, hv]⟩
  | some v =>
    cases hk : (t.node i).key with
    | none =>
      have hnov : (t.node i).val = none := (h.live i hk).1
      rw [hv] at hnov
      cases hnov
    | some k => exact .inr ⟨k, v, rfl, rfl, Node.pair_eq_some.mpr ⟨hk, hv⟩⟩

theorem nodes_eq (h : Sound H t) (set : Key → Table V → Result (Table V × Slot)) (l : List ℕ)
    (t₁ : Table V) :
    l.foldlM (fun t₁ i => reinsertNode set (t.node i) t₁) t₁ =
    fill set (nodePairs t.node l) t₁ := by
  induction l generalizing t₁ with
  | nil => rfl
  | cons i l ih =>
    rw [List.foldlM_cons, reinsertNode]
    obtain ⟨hv, hpair⟩ | ⟨k, v, hk, hv, hpair⟩ := h.node_cases i
    · have hpairs : nodePairs t.node (i :: l) = nodePairs t.node l :=
        List.filterMap_cons_none hpair
      rw [hv, hpairs]
      exact ih t₁
    · have hpairs : nodePairs t.node (i :: l) = (k, v) :: nodePairs t.node l :=
        List.filterMap_cons_some hpair
      rw [hv, hk, hpairs, fill, List.foldlM_cons]
      exact bind_congr fun t₂ => ih t₂

theorem arraySlot_iff {k : Key} {i : ℕ} :
    arraySlot t k = some i ↔ asInt k = some ((i + 1 : ℕ) : ℤ) ∧ i < t.sizearray := by
  rw [arraySlot]
  cases hk : asInt k with
  | none => simp
  | some j =>
    simp only [Option.some.injEq]
    split_ifs with hj
    · rw [Option.some.injEq]
      omega
    · refine iff_of_false False.elim ?_
      rintro ⟨hj', hi⟩
      omega

def leaving (t : Table V) (nasize : ℕ) : List (Key × V) :=
  slice t.array (List.range' nasize (t.sizearray - nasize)) ++
    nodePairs t.node (List.range t.sizenode).reverse

def leavingOut (t : Table V) (nasize : ℕ) : ℕ :=
  outside { t with sizearray := nasize } (leaving t nasize)

/-- What a resize fills in the end: new nodes, and the array as far as it is kept. -/
structure Emptied (t : Table V) (nasize nhsize : ℕ) (t₀ : Table V) : Prop where
  fresh : Fresh t₀
  sizearray : t₀.sizearray = nasize
  array : ∀ i < nasize, t₀.array i = if i < t.sizearray then t.array i else none
  slice : slice t₀.array (List.range' nasize (t.sizearray - nasize)) =
    slice t.array (List.range' nasize (t.sizearray - nasize))
  room : nhsize ≤ room t₀

theorem emptied {ta tb : Table V} {nasize nhsize : ℕ}
    (hta : ta = if t.sizearray < nasize then setarrayvector t nasize else t) (hfresh : Fresh tb)
    (harray : tb.array = ta.array) (hroom : nhsize ≤ room tb) :
    Emptied t nasize nhsize { tb with sizearray := nasize } where
  fresh := ⟨hfresh.bits, hfresh.node, hfresh.last⟩
  sizearray := rfl
  array i hi := by
    show tb.array i = _
    rw [harray, hta]
    split_ifs with hgrow hin hin
    · exact if_neg (Nat.not_le.mpr hin)
    · exact if_pos (Nat.not_lt.mp hin)
    · rfl
    · omega
  slice := by
    show slice tb.array _ = _
    rw [harray, hta]
    split_ifs with hgrow
    · rw [Nat.sub_eq_zero_of_le hgrow.le]
      rfl
    · rfl
  room := hroom

theorem vanish_fill {nasize nhsize : ℕ} {t₀ : Table V} (he : Emptied t nasize nhsize t₀)
    (h : Sound H t) (hasize : nasize ≤ MAXASIZE) (hroom : leavingOut t nasize ≤ nhsize)
    (fuel : ℕ) :
    (List.range' nasize (t.sizearray - nasize)).foldlM
        (reinsertAt (setnumOr H (newkey H (fuel + 1)))) t₀ =
      fill (fun k => setOr H (newkey H (fuel + 1)) (.key k))
        (slice t.array (List.range' nasize (t.sizearray - nasize))) t₀ := by
  have hsound : Sound H t₀ := he.fresh.sound (he.sizearray ▸ hasize)
  have hout : outside t₀ (leaving t nasize) = leavingOut t nasize := outside_congr he.sizearray _
  have hle : outside t₀ (slice t.array (List.range' nasize (t.sizearray - nasize))) ≤
      outside t₀ (leaving t nasize) := by
    rw [leaving, outside, outside, List.countP_append]
    exact Nat.le_add_right _ _
  rw [← he.slice]
  refine vanish_eq hsound (fun i hi => ?_) ?_ fuel
  · have hmem := List.mem_range'_1.mp hi
    have hmax := h.asize
    rw [he.sizearray]
    omega
  · rw [he.slice]
    exact hle.trans (hout.trans_le (hroom.trans he.room))

theorem resize_fill (h : Sound H t) {nasize nhsize : ℕ} (hasize : nasize ≤ MAXASIZE)
    (hsize : nhsize = 0 ∨ ceillog2 nhsize ≤ MAXBITS) (hroom : leavingOut t nasize ≤ nhsize)
    (fuel : ℕ) :
    ∃ t₀, Emptied t nasize nhsize t₀ ∧
      resize (fun k => setOr H (newkey H (fuel + 1)) (.key k)) (setnumOr H (newkey H (fuel + 1))) t
          nasize nhsize =
        fill (fun k => setOr H (newkey H (fuel + 1)) (.key k)) (leaving t nasize) t₀ := by
  obtain ⟨ta, hta⟩ : ∃ ta, ta = if t.sizearray < nasize then setarrayvector t nasize else t :=
    ⟨_, rfl⟩
  obtain ⟨tb, htb, hfresh, harray, hsizes, hnodes⟩ := setnodevector_spec ta hsize
  have he := emptied hta hfresh harray hnodes
  refine ⟨_, he, ?_⟩
  have hnodes := funext (nodes_eq h (fun k => setOr H (newkey H (fuel + 1)) (.key k))
    (List.range t.sizenode).reverse)
  rw [leaving, fill_append, ← vanish_fill he h hasize hroom fuel, ← hnodes, resize]
  simp only [← hta, htb]
  show (if nasize < t.sizearray then _ else _) = _
  by_cases hshrink : nasize < t.sizearray
  · rw [if_pos hshrink]
  · -- the array part has the new size already
    have hta' : ta.sizearray = nasize := by
      rw [hta]
      split_ifs with hgrow
      · rfl
      · omega
    have hsame : { tb with sizearray := nasize } = tb := by rw [← hta', ← hsizes]
    rw [if_neg hshrink, Nat.sub_eq_zero_of_le (Nat.not_lt.mp hshrink), hsame]
    rfl

theorem mem_slice {array : ℕ → Option V} {l : List ℕ} {p : Key × V} :
    p ∈ slice array l ↔ ∃ i ∈ l, array i = some p.2 ∧ p.1 = ofInt (i + 1 : ℕ) := by
  rw [slice, List.mem_filterMap]
  refine exists_congr fun i => and_congr_right fun _ => ?_
  rw [arrayPair, Option.map_eq_some_iff]
  constructor
  · rintro ⟨v, hv, rfl⟩
    exact ⟨hv, rfl⟩
  · rintro ⟨hv, hk⟩
    exact ⟨p.2, hv, by rw [← hk]⟩

theorem mem_nodePairs {node : ℕ → Node V} {l : List ℕ} {p : Key × V} :
    p ∈ nodePairs node l ↔ ∃ i ∈ l, (node i).key = some p.1 ∧ (node i).val = some p.2 := by
  rw [nodePairs, List.mem_filterMap]
  exact exists_congr fun i => and_congr_right fun _ => Node.pair_eq_some

theorem leaving_value (h : Sound H t) {nasize : ℕ} :
    ∀ p ∈ leaving t nasize, value H t p.1 = some p.2 := by
  intro p hp
  obtain hp | hp := List.mem_append.mp hp
  · obtain ⟨i, hi, hv, hk⟩ := mem_slice.mp hp
    have hlt : i < t.sizearray := by
      have hmem := List.mem_range'_1.mp hi
      omega
    have harr : arraySlot t p.1 = some i := by
      rw [hk, arraySlot_ofInt t (hlt.trans_le h.asize), if_pos hlt]
    rw [value_array H harr, hv]
  · obtain ⟨i, -, hk, hv⟩ := mem_nodePairs.mp hp
    rw [h.value_node hk]
    exact hv

theorem kept_value (h : Sound H t) {nasize nhsize : ℕ} {t₀ : Table V}
    (he : Emptied t nasize nhsize t₀) (h₀ : Sound H t₀) {k : Key}
    (hk : ∀ p ∈ leaving t nasize, p.1 ≠ k) : value H t₀ k = value H t k := by
  have hnokey : ∀ i, t₀.key i ≠ some k := fun i hi => by
    rw [Table.key, he.fresh.node] at hi
    cases hi
  have hnone : arraySlot t k = none → value H t k = none := by
    intro harr
    refine Option.eq_none_iff_forall_ne_some.mpr fun v hv => ?_
    obtain ⟨j, hj, hjv⟩ := (h.value_iff harr v).mp hv
    have hin : j < t.sizenode := h.inside (by rw [hj]; exact Option.some_ne_none k)
    exact hk (k, v) (List.mem_append_right _ (mem_nodePairs.mpr
      ⟨j, List.mem_reverse.mpr (List.mem_range.mpr hin), hj, hjv⟩)) rfl
  cases harr₀ : arraySlot t₀ k with
  | some i =>
    obtain ⟨hint, hi⟩ := arraySlot_iff.mp harr₀
    rw [he.sizearray] at hi
    rw [value_array H harr₀, he.array i hi]
    split_ifs with hin
    · exact (value_array H (arraySlot_iff.mpr ⟨hint, hin⟩)).symm
    · refine (hnone (Option.eq_none_iff_forall_ne_some.mpr fun j hj => ?_)).symm
      obtain ⟨hint', hj'⟩ := arraySlot_iff.mp hj
      rw [hint] at hint'
      have heq := Option.some.inj hint'
      omega
  | none =>
    rw [h₀.value_none harr₀ hnokey]
    cases harr : arraySlot t k with
    | none => exact (hnone harr).symm
    | some i =>
      obtain ⟨hint, hi⟩ := arraySlot_iff.mp harr
      have hout : nasize ≤ i := by
        by_contra hlt
        have hslot := arraySlot_iff.mpr ⟨hint, he.sizearray.symm ▸ Nat.not_le.mp hlt⟩
        rw [harr₀] at hslot
        cases hslot
      rw [value_array H harr]
      refine (Option.eq_none_iff_forall_ne_some.mpr fun v hv => ?_).symm
      refine hk (k, v) (List.mem_append_left _ (mem_slice.mpr ⟨i, ?_, hv, asInt_eq hint⟩)) rfl
      exact List.mem_range'_1.mpr (by omega)

theorem resize_spec (h : Sound H t) {nasize nhsize : ℕ} (hasize : nasize ≤ MAXASIZE)
    (hsize : nhsize = 0 ∨ ceillog2 nhsize ≤ MAXBITS) (hroom : leavingOut t nasize ≤ nhsize)
    (fuel : ℕ) :
    ∃ t', resize (fun k => setOr H (newkey H (fuel + 1)) (.key k))
        (setnumOr H (newkey H (fuel + 1))) t nasize nhsize = .ok t' ∧
      Sound H t' ∧ value H t' = value H t ∧ t'.sizearray = nasize ∧
      nhsize ≤ room t' + leavingOut t nasize := by
  obtain ⟨t₀, he, hfill⟩ := resize_fill h hasize hsize hroom fuel
  have h₀ : Sound H t₀ := he.fresh.sound (he.sizearray ▸ hasize)
  have hout : outside t₀ (leaving t nasize) = leavingOut t nasize :=
    outside_congr he.sizearray _
  obtain ⟨t', ht', hf⟩ := fill_spec h₀ (hout.trans_le (hroom.trans he.room)) fuel
  refine ⟨t', hfill.trans ht', hf.sound, ?_, hf.sizearray.trans he.sizearray, ?_⟩
  · rw [hf.value]
    exact updates_eq (leaving_value h) fun k hk => kept_value h he h₀ hk
  · rw [← hout]
    exact he.room.trans hf.room

end Jiauliyan.LuaTable
