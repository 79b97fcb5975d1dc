import Jiauliyan.LuaTable
import Mathlib.Data.Rat.Lemmas
import Mathlib.Tactic.SplitIfs

namespace Jiauliyan.LuaTable

open Jiauliyan.Links

variable {V : Type} (H : Hashes)

theorem asInt_eq {k : Key} {i : ℤ} (h : asInt k = some i) : k = ofInt i := by
  unfold asInt at h
  split at h
  · rename_i q
    split_ifs at h with hq
    cases h
    rw [ofInt, (Rat.den_eq_one_iff q).mp hq.1]
  · cases h

def arraySlot (t : Table V) (k : Key) : Option ℕ :=
  match asInt k with
  | some i => if 0 < i ∧ i ≤ t.sizearray then some (i - 1).toNat else none
  | none => none

theorem luaHGet_key (t : Table V) (k : Key) : luaHGet H t (.key k) =
    match arraySlot t k with
    | some i => .ok (some (.array i))
    | none => find H t k := by
  rw [luaHGet, arraySlot]
  cases hk : asInt k with
  | none => rfl
  | some i =>
    show luaHGetnum H t i = _
    rw [luaHGetnum, asInt_eq hk]
    by_cases hi : 0 < i ∧ i ≤ t.sizearray
    · simp only [if_pos hi]
    · simp only [if_neg hi]

theorem luaHGetnum_eq (t : Table V) {i : ℤ} (hi : asInt (ofInt i) = some i) :
    luaHGetnum H t i = luaHGet H t (.key (ofInt i)) := by
  rw [luaHGet, hi]

theorem asInt_ofInt {i : ℤ} (hlow : -2147483648 ≤ i) (hhigh : i < 2147483648) :
    asInt (ofInt i) = some i := by
  rw [ofInt, asInt, if_pos ⟨Rat.den_intCast i, hlow, hhigh⟩]
  rfl

theorem hashpow2_lt (l n : ℕ) : hashpow2 (2 ^ l) n < 2 ^ l := by
  have hpos : 0 < 2 ^ l := Nat.two_pow_pos l
  have hle : n &&& (2 ^ l - 1) ≤ 2 ^ l - 1 := Nat.and_le_right
  rw [hashpow2]
  omega

theorem hashmod_lt (l n : ℕ) : hashmod (2 ^ l) n < 2 ^ l := by
  have hpos : 0 < 2 ^ l := Nat.two_pow_pos l
  have hodd : 0 < (2 ^ l - 1) ||| 1 := lt_of_lt_of_le Nat.one_pos Nat.right_le_or
  have hle : (2 ^ l - 1) ||| 1 ≤ 2 ^ l := by
    cases l with
    | zero => exact le_rfl
    | succ l =>
      have hone : 1 < 2 ^ (l + 1) := Nat.one_lt_two_pow (Nat.succ_ne_zero l)
      exact (Nat.or_lt_two_pow (by omega) hone).le
  exact (Nat.mod_lt n hodd).trans_le hle

theorem mainposition_lt (t : Table V) (k : Key) : mainposition H t.sizenode k < t.sizenode := by
  cases k with
  | number n => exact hashmod_lt _ _
  | string ts => exact hashpow2_lt _ _
  | boolean b => exact hashpow2_lt _ _
  | lightuserdata p => exact hashmod_lt _ _
  | gc p => exact hashmod_lt _ _

namespace Table

def key (t : Table V) (i : ℕ) : Option Key := (t.node i).key

def val (t : Table V) (i : ℕ) : Option V := (t.node i).val

end Table

/-- A table whose chains hold what they should. The last two are about collisions: a node is
reached from the main position of its key, and what collides with it there is in its own. -/
structure Sound (t : Table V) : Prop where
  bits : t.lsizenode ≤ MAXBITS
  asize : t.sizearray ≤ MAXASIZE
  outside : ∀ i, t.sizenode ≤ i → t.key i = none
  dummy : t.dummy = true → t.lastfree = 0 ∧ ∀ i, t.key i = none
  live : ∀ i, t.key i = none → t.val i = none ∧ t.next i = none
  links : Linked t.next
  linked : ∀ i j, t.next i = some j → t.key j ≠ none
  last : t.lastfree ≤ t.sizenode
  lastfree : ∀ i, t.lastfree ≤ i → i < t.sizenode → t.dummy = false → t.key i ≠ none
  unique : ∀ i j k, t.key i = some k → t.key j = some k → i = j
  hashed : ∀ i k, t.key i = some k → arraySlot t k = none
  reaches : ∀ i k, t.key i = some k → Reaches t.next (mainposition H t.sizenode k) i
  main : ∀ i k, t.key i = some k → ∃ k', t.key (mainposition H t.sizenode k) = some k' ∧
    mainposition H t.sizenode k' = mainposition H t.sizenode k

variable {H} {t : Table V}

theorem Sound.inside (h : Sound H t) {i : ℕ} (hi : t.key i ≠ none) : i < t.sizenode := by
  by_contra hout
  exact hi (h.outside i (Nat.not_lt.mp hout))

theorem Sound.reaches_lt (h : Sound H t) {i j : ℕ} (hi : i < t.sizenode)
    (hj : Reaches t.next i j) : j < t.sizenode := by
  obtain heq | ⟨k, -, hkj⟩ := hj.cases_tail
  · exact heq ▸ hi
  · exact h.inside (h.linked k j hkj)

theorem Sound.findKey_spec (h : Sound H t) {i : ℕ} (hi : i < t.sizenode) (p : Option Key → Bool) :
    ∃ r : Option ℕ, findKey t p i = .ok (r.map .node) ∧
      (∀ x, r = some x → p (t.key x) = true ∧ Reaches t.next i x) ∧
      (r = none → ∀ x, Reaches t.next i x → p (t.key x) = false) := by
  obtain ⟨r, hr, hfound, hnone⟩ := h.links.search_spec (s := Finset.range t.sizenode)
    (fun x hx => Finset.mem_range.mpr (h.reaches_lt hi hx)) fun j => p (t.key j)
  rw [Finset.card_range] at hr
  have hsearch : search t.next (fun j => p (t.node j).key) t.sizenode i = some r := hr
  exact ⟨r, by rw [findKey, hsearch], hfound, hnone⟩

theorem Sound.find_some (h : Sound H t) {i : ℕ} {k : Key} (hi : t.key i = some k) :
    find H t k = .ok (some (.node i)) := by
  obtain ⟨r, hr, hfound, hnone⟩ := h.findKey_spec (mainposition_lt H t k) (· == some k)
  rw [find, hr]
  cases r with
  | none =>
    have hmiss := hnone rfl i (h.reaches i k hi)
    rw [hi, beq_self_eq_true] at hmiss
    cases hmiss
  | some j =>
    have hj := h.unique i j k hi (eq_of_beq (hfound j rfl).1)
    rw [hj]
    rfl

theorem Sound.find_none (h : Sound H t) {k : Key} (hk : ∀ i, t.key i ≠ some k) :
    find H t k = .ok none := by
  obtain ⟨r, hr, hfound, -⟩ := h.findKey_spec (mainposition_lt H t k) (· == some k)
  rw [find, hr]
  cases r with
  | none => rfl
  | some j => exact absurd (eq_of_beq (hfound j rfl).1) (hk j)

theorem previous_path {node : ℕ → Node V} {mp o : ℕ} {l : List ℕ}
    (hl : Path (fun i => (node i).next) o l) (hmp : mp ∈ l) (ho : o ≠ mp) {n : ℕ}
    (hn : l.length ≤ n) :
    ∃ q, previous node mp n o = .ok q ∧ (node q).next = some mp := by
  induction hl generalizing n with
  | last hi => exact absurd (List.mem_singleton.mp hmp).symm ho
  | @link i j l hi hj ih =>
    cases n with
    | zero => exact absurd hn (Nat.not_succ_le_zero _)
    | succ n =>
      simp only [previous, hi]
      by_cases hjm : j = mp
      · subst hjm
        exact ⟨i, if_pos rfl, hi⟩
      · obtain ⟨q, hq, hqm⟩ := ih ((List.mem_cons.mp hmp).resolve_left ho.symm) hjm
          (Nat.le_of_succ_le_succ hn)
        exact ⟨q, (if_neg hjm).trans hq, hqm⟩

theorem Sound.previous_spec (h : Sound H t) {mp o : ℕ} (ho : o < t.sizenode)
    (hmp : Reaches t.next o mp) (hne : o ≠ mp) :
    ∃ q, previous t.node mp t.sizenode o = .ok q ∧ t.next q = some mp := by
  obtain ⟨l, hl⟩ := h.links.path o
  have hlen := hl.length_le h.links (s := Finset.range t.sizenode) fun x hx =>
    Finset.mem_range.mpr (h.reaches_lt ho hx)
  rw [Finset.card_range] at hlen
  exact previous_path hl (hl.mem_iff.mpr hmp) hne hlen

/-- There is a node for a new key, without a value, and nothing else has changed. -/
structure Inserted (H : Hashes) (k : Key) (t t' : Table V) (i : ℕ) : Prop where
  sound : Sound H t'
  key : t'.key i = some k
  val : t'.val i = none
  others : ∀ k' ≠ k, ∀ v, (∃ j, t'.key j = some k' ∧ t'.val j = some v) ↔
    ∃ j, t.key j = some k' ∧ t.val j = some v
  keys : ∃ n, ∀ j, t'.key j ≠ none → t.key j ≠ none ∨ j = n

structure SameShape (t t' : Table V) : Prop where
  array : t'.array = t.array
  sizearray : t'.sizearray = t.sizearray
  lsizenode : t'.lsizenode = t.lsizenode
  dummy : t'.dummy = t.dummy

theorem SameShape.sizenode {t' : Table V} (h : SameShape t t') : t'.sizenode = t.sizenode := by
  rw [Table.sizenode, Table.sizenode, h.lsizenode]

theorem SameShape.arraySlot {t' : Table V} (h : SameShape t t') (k : Key) :
    arraySlot t' k = arraySlot t k := by
  rw [LuaTable.arraySlot, LuaTable.arraySlot, h.sizearray]

section Insert

variable {t' : Table V} {k : Key} {mp n new : ℕ} {at' : ℕ → ℕ}

/-- What is left to show of an insertion where the old node `i` has become the node `at i`. -/
structure Places (H : Hashes) (k : Key) (t t' : Table V) (new n : ℕ) (at' : ℕ → ℕ) : Prop where
  shape : SameShape t t'
  proper : t.dummy = false
  inside : n < t.sizenode
  key : t'.key new = some k
  val : t'.val new = none
  keys : ∀ j, t'.key j ≠ none → t.key j ≠ none ∨ j = n
  old : ∀ j k', t'.key j = some k' →
    j = new ∧ k' = k ∨ ∃ i, t.key i = some k' ∧ at' i = j ∧ t'.val j = t.val i
  moved : ∀ i k' v, t.key i = some k' → t.val i = some v →
    t'.key (at' i) = some k' ∧ t'.val (at' i) = some v
  live : ∀ i, t'.key i = none → t'.val i = none ∧ t'.next i = none
  links : Linked t'.next
  linked : ∀ i j, t'.next i = some j → t'.key j ≠ none
  last : t'.lastfree ≤ t.sizenode
  lastfree : ∀ i, t'.lastfree ≤ i → i < t.sizenode → t'.key i ≠ none
  own : Reaches t'.next (mainposition H t.sizenode k) new
  reaches : ∀ i k', t.key i = some k' → t'.key (at' i) = some k' →
    Reaches t'.next (mainposition H t.sizenode k') (at' i)
  main : ∀ k', (k' = k ∨ ∃ i, t.key i = some k') → ∃ k'',
    t'.key (mainposition H t.sizenode k') = some k'' ∧
      mainposition H t.sizenode k'' = mainposition H t.sizenode k'

theorem Places.known (hp : Places H k t t' new n at') {j : ℕ} {k' : Key}
    (hj : t'.key j = some k') : k' = k ∨ ∃ i, t.key i = some k' := by
  obtain ⟨-, rfl⟩ | ⟨i, hi, -, -⟩ := hp.old j k' hj
  · exact .inl rfl
  · exact .inr ⟨i, hi⟩

theorem Places.outside (h : Sound H t) (hp : Places H k t t' new n at') {i : ℕ}
    (hi : t.sizenode ≤ i) : t'.key i = none := by
  by_contra hne
  obtain hold | rfl := hp.keys i hne
  · exact hold (h.outside i hi)
  · exact absurd hp.inside (Nat.not_lt.mpr hi)

theorem Places.unique (h : Sound H t) (hk : ∀ i, t.key i ≠ some k)
    (hp : Places H k t t' new n at') {j j' : ℕ} {k' : Key} (hj : t'.key j = some k')
    (hj' : t'.key j' = some k') : j = j' := by
  obtain ⟨rfl, rfl⟩ | ⟨i, hi, rfl, -⟩ := hp.old j k' hj
  · obtain ⟨rfl, -⟩ | ⟨i', hi', -, -⟩ := hp.old j' k' hj'
    · rfl
    · exact absurd hi' (hk i')
  · obtain ⟨-, rfl⟩ | ⟨i', hi', rfl, -⟩ := hp.old j' k' hj'
    · exact absurd hi (hk i)
    · rw [h.unique i i' k' hi hi']

theorem Places.sound (h : Sound H t) (hk : ∀ i, t.key i ≠ some k) (harr : arraySlot t k = none)
    (hp : Places H k t t' new n at') : Sound H t' where
  bits := hp.shape.lsizenode ▸ h.bits
  asize := hp.shape.sizearray ▸ h.asize
  outside i hi := hp.outside h (hp.shape.sizenode ▸ hi)
  dummy hd := by
    rw [hp.shape.dummy, hp.proper] at hd
    exact absurd hd Bool.false_ne_true
  live := hp.live
  links := hp.links
  linked := hp.linked
  last := hp.shape.sizenode ▸ hp.last
  lastfree i hi hlt _ := hp.lastfree i hi (hp.shape.sizenode ▸ hlt)
  unique _ _ _ hj hj' := hp.unique h hk hj hj'
  hashed j k' hj := by
    rw [hp.shape.arraySlot]
    obtain rfl | ⟨i, hi⟩ := hp.known hj
    · exact harr
    · exact h.hashed i k' hi
  reaches j k' hj := by
    rw [hp.shape.sizenode]
    obtain ⟨rfl, rfl⟩ | ⟨i, hi, rfl, -⟩ := hp.old j k' hj
    · exact hp.own
    · exact hp.reaches i k' hi hj
  main j k' hj := by
    rw [hp.shape.sizenode]
    exact hp.main k' (hp.known hj)

theorem Sound.inserted (h : Sound H t) (hk : ∀ i, t.key i ≠ some k) (harr : arraySlot t k = none)
    (hp : Places H k t t' new n at') : Inserted H k t t' new where
  sound := hp.sound h hk harr
  key := hp.key
  val := hp.val
  others k' hne v := by
    constructor
    · rintro ⟨j, hj, hv⟩
      obtain ⟨-, rfl⟩ | ⟨i, hi, -, hval⟩ := hp.old j k' hj
      · exact absurd rfl hne
      · exact ⟨i, hi, hval.symm.trans hv⟩
    · rintro ⟨i, hi, hv⟩
      obtain ⟨hkey, hval⟩ := hp.moved i k' v hi hv
      exact ⟨_, hkey, hval⟩
  keys := ⟨n, hp.keys⟩

theorem Sound.free (h : Sound H t) (hn : t.key n = none) : Free t.next n :=
  ⟨(h.live n hn).2, fun i hi => h.linked i n hi hn⟩

structure Overwrites (H : Hashes) (k : Key) (mp : ℕ) (t t' : Table V) : Prop where
  place : mp = mainposition H t.sizenode k
  unused : t.val mp = none
  proper : t.dummy = false
  shape : SameShape t t'
  key : t'.key = Function.update t.key mp (some k)
  val : t'.val = t.val
  next : t'.next = t.next
  last : t'.lastfree = t.lastfree

namespace Overwrites

theorem own (m : Overwrites H k mp t t') : t'.key mp = some k := by
  rw [m.key, Function.update_self]

theorem other (m : Overwrites H k mp t t') {i : ℕ} (hi : i ≠ mp) : t'.key i = t.key i := by
  rw [m.key, Function.update_of_ne hi]

theorem kept (m : Overwrites H k mp t t') {i : ℕ} (hi : t.key i ≠ none) : t'.key i ≠ none := by
  by_cases him : i = mp
  · rw [him, m.own]
    exact Option.some_ne_none k
  · rwa [m.other him]

theorem old (m : Overwrites H k mp t t') {j : ℕ} {k' : Key} (hj : t'.key j = some k') :
    j = mp ∧ k' = k ∨ ∃ i, t.key i = some k' ∧ i = j ∧ t'.val j = t.val i := by
  by_cases hjm : j = mp
  · rw [hjm, m.own] at hj
    exact .inl ⟨hjm, (Option.some.inj hj).symm⟩
  · exact .inr ⟨j, m.other hjm ▸ hj, rfl, by rw [m.val]⟩

theorem valued (m : Overwrites H k mp t t') {i : ℕ} {k' : Key} {v : V} (hi : t.key i = some k')
    (hv : t.val i = some v) : t'.key i = some k' ∧ t'.val i = some v := by
  have him : i ≠ mp := by
    rintro rfl
    rw [m.unused] at hv
    cases hv
  rw [m.other him, m.val]
  exact ⟨hi, hv⟩

theorem main (m : Overwrites H k mp t t') (h : Sound H t) {k' : Key}
    (hk' : k' = k ∨ ∃ i, t.key i = some k') : ∃ k'',
      t'.key (mainposition H t.sizenode k') = some k'' ∧
        mainposition H t.sizenode k'' = mainposition H t.sizenode k' := by
  by_cases hsame : mainposition H t.sizenode k' = mp
  · exact ⟨k, hsame ▸ m.own, hsame ▸ m.place.symm⟩
  · obtain rfl | ⟨i, hi⟩ := hk'
    · exact absurd m.place.symm hsame
    · obtain ⟨k'', hk'', hpos⟩ := h.main i k' hi
      exact ⟨k'', (m.other hsame).trans hk'', hpos⟩

theorem places (m : Overwrites H k mp t t') (h : Sound H t) : Places H k t t' mp mp id where
  shape := m.shape
  proper := m.proper
  inside := m.place ▸ mainposition_lt H t k
  key := m.own
  val := by rw [m.val, m.unused]
  keys j hj := by
    by_cases hjm : j = mp
    · exact .inr hjm
    · exact .inl (m.other hjm ▸ hj)
  old _ _ hj := m.old hj
  moved _ _ _ hi hv := m.valued hi hv
  live i hi := by
    rw [m.val, m.next]
    exact h.live i (by_contra fun hne => m.kept hne hi)
  links := m.next ▸ h.links
  linked i j hij := m.kept (h.linked i j (m.next ▸ hij))
  last := m.last ▸ h.last
  lastfree i hi hlt := m.kept (h.lastfree i (m.last ▸ hi) hlt m.proper)
  own := m.place ▸ .refl
  reaches i k' hi _ := m.next ▸ h.reaches i k' hi
  main _ hk' := m.main h hk'

end Overwrites

/-- What collides is in its own main position, and the key gets to the free node `n`. -/
structure Chains (H : Hashes) (k k₀ : Key) (mp n : ℕ) (t t' : Table V) : Prop where
  place : mp = mainposition H t.sizenode k
  collides : t.key mp = some k₀
  home : mainposition H t.sizenode k₀ = mp
  free : t.key n = none
  inside : n < t.sizenode
  later : ∀ i, n < i → i < t.sizenode → t.key i ≠ none
  proper : t.dummy = false
  shape : SameShape t t'
  key : t'.key = Function.update t.key n (some k)
  val : t'.val = t.val
  next : t'.next = insertAfter t.next mp n
  last : t'.lastfree = n

namespace Chains

variable {k₀ : Key}

theorem ne (m : Chains H k k₀ mp n t t') : n ≠ mp := by
  rintro rfl
  have hfree := m.free
  rw [m.collides] at hfree
  cases hfree

theorem own (m : Chains H k k₀ mp n t t') : t'.key n = some k := by
  rw [m.key, Function.update_self]

theorem other (m : Chains H k k₀ mp n t t') {i : ℕ} (hi : i ≠ n) : t'.key i = t.key i := by
  rw [m.key, Function.update_of_ne hi]

theorem kept (m : Chains H k k₀ mp n t t') {i : ℕ} (hi : t.key i ≠ none) :
    t'.key i = t.key i := by
  refine m.other ?_
  rintro rfl
  exact hi m.free

theorem old (m : Chains H k k₀ mp n t t') {j : ℕ} {k' : Key} (hj : t'.key j = some k') :
    j = n ∧ k' = k ∨ ∃ i, t.key i = some k' ∧ i = j ∧ t'.val j = t.val i := by
  by_cases hjn : j = n
  · rw [hjn, m.own] at hj
    exact .inl ⟨hjn, (Option.some.inj hj).symm⟩
  · exact .inr ⟨j, m.other hjn ▸ hj, rfl, by rw [m.val]⟩

theorem live (m : Chains H k k₀ mp n t t') (h : Sound H t) {i : ℕ} (hi : t'.key i = none) :
    t'.val i = none ∧ t'.next i = none := by
  have hne : i ≠ n := by
    rintro rfl
    rw [m.own] at hi
    cases hi
  rw [m.other hne] at hi
  have himp : i ≠ mp := by
    rintro rfl
    rw [m.collides] at hi
    cases hi
  rw [m.val, m.next, insert_of_ne himp hne]
  exact h.live i hi

theorem linked (m : Chains H k k₀ mp n t t') (h : Sound H t) {i j : ℕ}
    (hij : t'.next i = some j) : t'.key j ≠ none := by
  rw [m.next] at hij
  obtain ⟨-, rfl⟩ | ⟨-, hj⟩ | ⟨-, hj⟩ := insert_cases hij
  · rw [m.own]
    exact Option.some_ne_none k
  · rw [m.kept (h.linked mp j hj)]
    exact h.linked mp j hj
  · rw [m.kept (h.linked i j hj)]
    exact h.linked i j hj

theorem filled (m : Chains H k k₀ mp n t t') {i : ℕ} (hi : n ≤ i) (hlt : i < t.sizenode) :
    t'.key i ≠ none := by
  obtain rfl | hlt' := Nat.eq_or_lt_of_le hi
  · rw [m.own]
    exact Option.some_ne_none k
  · rw [m.kept (m.later i hlt' hlt)]
    exact m.later i hlt' hlt

theorem main (m : Chains H k k₀ mp n t t') (h : Sound H t) {k' : Key}
    (hk' : k' = k ∨ ∃ i, t.key i = some k') : ∃ k'',
      t'.key (mainposition H t.sizenode k') = some k'' ∧
        mainposition H t.sizenode k'' = mainposition H t.sizenode k' := by
  obtain rfl | ⟨i, hi⟩ := hk'
  · rw [← m.place]
    exact ⟨k₀, (m.other m.ne.symm).trans m.collides, m.home⟩
  · obtain ⟨k'', hk'', hpos⟩ := h.main i k' hi
    exact ⟨k'', (m.kept (hk'' ▸ Option.some_ne_none k'')).trans hk'', hpos⟩

theorem places (m : Chains H k k₀ mp n t t') (h : Sound H t) : Places H k t t' n n id where
  shape := m.shape
  proper := m.proper
  inside := m.inside
  key := m.own
  val := by
    rw [m.val]
    exact (h.live n m.free).1
  keys j hj := by
    by_cases hjn : j = n
    · exact .inr hjn
    · exact .inl (m.other hjn ▸ hj)
  old _ _ hj := m.old hj
  moved i k' v hi hv := by
    rw [id, m.kept (hi ▸ Option.some_ne_none k'), m.val]
    exact ⟨hi, hv⟩
  live _ hi := m.live h hi
  links := m.next ▸ h.links.insert (h.free m.free) m.ne
  linked _ _ hij := m.linked h hij
  last := m.last ▸ m.inside.le
  lastfree _ hi hlt := m.filled (m.last ▸ hi) hlt
  own := by
    rw [← m.place, m.next]
    exact .head (insert_self mp n) .refl
  reaches i k' hi _ := by
    rw [m.next]
    exact insert_reaches (h.free m.free) m.ne (h.reaches i k' hi)
  main _ hk' := m.main h hk'

end Chains

/-- What collides is not in its main position. It moves to the free node `n`, and the key gets to
where it was, which is behind the node `q` of its chain. -/
structure Displaces (H : Hashes) (k k₀ : Key) (q mp n : ℕ) (t t' : Table V) : Prop where
  place : mp = mainposition H t.sizenode k
  collides : t.key mp = some k₀
  astray : mainposition H t.sizenode k₀ ≠ mp
  behind : t.next q = some mp
  free : t.key n = none
  inside : n < t.sizenode
  later : ∀ i, n < i → i < t.sizenode → t.key i ≠ none
  proper : t.dummy = false
  shape : SameShape t t'
  key : t'.key = Function.update (Function.update t.key n (some k₀)) mp (some k)
  val : t'.val = Function.update (Function.update t.val n (t.val mp)) mp none
  next : t'.next = replace t.next q mp n
  last : t'.lastfree = n

namespace Displaces

variable {k₀ : Key} {q : ℕ}

theorem ne (m : Displaces H k k₀ q mp n t t') : n ≠ mp := by
  rintro rfl
  have hfree := m.free
  rw [m.collides] at hfree
  cases hfree

theorem own (m : Displaces H k k₀ q mp n t t') : t'.key mp = some k := by
  rw [m.key, Function.update_self]

theorem moved (m : Displaces H k k₀ q mp n t t') :
    t'.key n = some k₀ ∧ t'.val n = t.val mp := by
  rw [m.key, m.val, Function.update_of_ne m.ne, Function.update_of_ne m.ne, Function.update_self,
    Function.update_self]
  exact ⟨rfl, rfl⟩

theorem other (m : Displaces H k k₀ q mp n t t') {i : ℕ} (hi : i ≠ mp) (hi' : i ≠ n) :
    t'.key i = t.key i ∧ t'.val i = t.val i := by
  rw [m.key, m.val, Function.update_of_ne hi, Function.update_of_ne hi', Function.update_of_ne hi,
    Function.update_of_ne hi']
  exact ⟨rfl, rfl⟩

theorem ne_free (m : Displaces H k k₀ q mp n t t') {i : ℕ} (hi : t.key i ≠ none) : i ≠ n := by
  rintro rfl
  exact hi m.free

theorem kept (m : Displaces H k k₀ q mp n t t') {i : ℕ} (hi : t.key i ≠ none) :
    t'.key i ≠ none := by
  by_cases him : i = mp
  · rw [him, m.own]
    exact Option.some_ne_none k
  · rwa [(m.other him (m.ne_free hi)).1]

theorem nobody (m : Displaces H k k₀ q mp n t t') (h : Sound H t) {i : ℕ} {k' : Key}
    (hi : t.key i = some k') : mainposition H t.sizenode k' ≠ mp := by
  intro heq
  obtain ⟨k'', hk'', hpos⟩ := h.main i k' hi
  rw [heq, m.collides] at hk''
  cases hk''
  exact m.astray (hpos.trans heq)

theorem keys (m : Displaces H k k₀ q mp n t t') {j : ℕ} (hj : t'.key j ≠ none) :
    t.key j ≠ none ∨ j = n := by
  by_cases hjn : j = n
  · exact .inr hjn
  · by_cases hjm : j = mp
    · rw [hjm, m.collides]
      exact .inl (Option.some_ne_none k₀)
    · exact .inl ((m.other hjm hjn).1 ▸ hj)

theorem old (m : Displaces H k k₀ q mp n t t') {j : ℕ} {k' : Key} (hj : t'.key j = some k') :
    j = mp ∧ k' = k ∨
      ∃ i, t.key i = some k' ∧ (if i = mp then n else i) = j ∧ t'.val j = t.val i := by
  by_cases hjm : j = mp
  · rw [hjm, m.own] at hj
    exact .inl ⟨hjm, (Option.some.inj hj).symm⟩
  · by_cases hjn : j = n
    · rw [hjn, m.moved.1] at hj
      refine .inr ⟨mp, m.collides.trans hj, (if_pos rfl).trans hjn.symm, ?_⟩
      rw [hjn, m.moved.2]
    · obtain ⟨hkey, hval⟩ := m.other hjm hjn
      exact .inr ⟨j, hkey ▸ hj, if_neg hjm, hval⟩

theorem valued (m : Displaces H k k₀ q mp n t t') {i : ℕ} {k' : Key} {v : V}
    (hi : t.key i = some k') (hv : t.val i = some v) :
    t'.key (if i = mp then n else i) = some k' ∧ t'.val (if i = mp then n else i) = some v := by
  by_cases him : i = mp
  · rw [if_pos him, m.moved.1, m.moved.2, ← hv, ← hi, him]
    exact ⟨m.collides.symm, rfl⟩
  · obtain ⟨hkey, hval⟩ := m.other him (m.ne_free (hi ▸ Option.some_ne_none k'))
    rw [if_neg him, hkey, hval]
    exact ⟨hi, hv⟩

theorem live (m : Displaces H k k₀ q mp n t t') (h : Sound H t) {i : ℕ} (hi : t'.key i = none) :
    t'.val i = none ∧ t'.next i = none := by
  have him : i ≠ mp := by
    rintro rfl
    rw [m.own] at hi
    cases hi
  have hin : i ≠ n := by
    rintro rfl
    rw [m.moved.1] at hi
    cases hi
  obtain ⟨hkey, hval⟩ := m.other him hin
  rw [hkey] at hi
  have hiq : i ≠ q := by
    rintro rfl
    have hnext := (h.live i hi).2
    rw [m.behind] at hnext
    cases hnext
  rw [hval, m.next, replace_of_ne him hin hiq]
  exact h.live i hi

theorem linked (m : Displaces H k k₀ q mp n t t') (h : Sound H t) {i j : ℕ}
    (hij : t'.next i = some j) : t'.key j ≠ none := by
  rw [m.next] at hij
  obtain ⟨-, ⟨-, hj⟩ | ⟨-, rfl⟩ | ⟨-, -, hj⟩⟩ := replace_cases hij
  · exact m.kept (h.linked mp j hj)
  · rw [m.moved.1]
    exact Option.some_ne_none k₀
  · exact m.kept (h.linked i j hj)

theorem filled (m : Displaces H k k₀ q mp n t t') {i : ℕ} (hi : n ≤ i) (hlt : i < t.sizenode) :
    t'.key i ≠ none := by
  obtain rfl | hlt' := Nat.eq_or_lt_of_le hi
  · rw [m.moved.1]
    exact Option.some_ne_none k₀
  · exact m.kept (m.later i hlt' hlt)

theorem reaches (m : Displaces H k k₀ q mp n t t') (h : Sound H t) {i : ℕ} {k' : Key}
    (hi : t.key i = some k') :
    Reaches t'.next (mainposition H t.sizenode k') (if i = mp then n else i) := by
  have hfree := h.free m.free
  have hstart := m.nobody h hi
  have hreach := h.reaches i k' hi
  rw [m.next]
  by_cases him : i = mp
  · rw [if_pos him]
    exact h.links.replace_reaches_new hfree m.behind (him ▸ hreach) hstart
  · rw [if_neg him]
    exact (h.links.replace_reaches hfree m.behind hreach him).1 hstart

theorem main (m : Displaces H k k₀ q mp n t t') (h : Sound H t) {k' : Key}
    (hk' : k' = k ∨ ∃ i, t.key i = some k') : ∃ k'',
      t'.key (mainposition H t.sizenode k') = some k'' ∧
        mainposition H t.sizenode k'' = mainposition H t.sizenode k' := by
  obtain rfl | ⟨i, hi⟩ := hk'
  · rw [← m.place]
    exact ⟨k', m.own, m.place.symm⟩
  · obtain ⟨k'', hk'', hpos⟩ := h.main i k' hi
    have hsome : t.key (mainposition H t.sizenode k') ≠ none := hk'' ▸ Option.some_ne_none k''
    rw [(m.other (m.nobody h hi) (m.ne_free hsome)).1]
    exact ⟨k'', hk'', hpos⟩

theorem places (m : Displaces H k k₀ q mp n t t') (h : Sound H t) :
    Places H k t t' mp n fun i => if i = mp then n else i where
  shape := m.shape
  proper := m.proper
  inside := m.inside
  key := m.own
  val := by rw [m.val, Function.update_self]
  keys _ hj := m.keys hj
  old _ _ hj := m.old hj
  moved _ _ _ hi hv := m.valued hi hv
  live _ hi := m.live h hi
  links := m.next ▸ h.links.replace (h.free m.free) m.behind
  linked _ _ hij := m.linked h hij
  last := m.last ▸ m.inside.le
  lastfree _ hi hlt := m.filled (m.last ▸ hi) hlt
  own := m.place ▸ .refl
  reaches _ _ hi _ := m.reaches h hi
  main _ hk' := m.main h hk'

end Displaces

end Insert

theorem freeBelow_spec {node : ℕ → Node V} {m : ℕ} :
    (∀ n, freeBelow node m = some n → n < m ∧ (node n).key = none ∧
      ∀ i, n < i → i < m → (node i).key ≠ none) ∧
    (freeBelow node m = none → ∀ i < m, (node i).key ≠ none) := by
  induction m with
  | zero => exact ⟨fun n h => absurd h.symm (Option.some_ne_none n), fun _ i _ => by omega⟩
  | succ m ih =>
    rw [freeBelow]
    split_ifs with hm
    · refine ⟨fun n h => ?_, False.elim⟩
      cases h
      exact ⟨Nat.lt_succ_self m, Option.isNone_iff_eq_none.mp hm, fun i _ _ => by omega⟩
    · have hsome : (node m).key ≠ none := fun hnone => hm (hnone ▸ rfl)
      refine ⟨fun n h => ?_, fun h i hi => ?_⟩
      · obtain ⟨hn, hkey, hlater⟩ := ih.1 n h
        refine ⟨hn.trans (Nat.lt_succ_self m), hkey, fun i hi hlt => ?_⟩
        obtain rfl | hlt' := Nat.eq_or_lt_of_le (Nat.le_of_lt_succ hlt)
        · exact hsome
        · exact hlater i hi hlt'
      · obtain rfl | hlt' := Nat.eq_or_lt_of_le (Nat.le_of_lt_succ hi)
        · exact hsome
        · exact ih.2 h i hlt'

theorem Sound.getfreepos_some (h : Sound H t) {n : ℕ} (hn : getfreepos t = some n) :
    t.key n = none ∧ n < t.sizenode ∧ t.dummy = false ∧
      ∀ i, n < i → i < t.sizenode → t.key i ≠ none := by
  obtain ⟨hlt, hkey, hlater⟩ := freeBelow_spec.1 n hn
  have hd : t.dummy = false := by
    refine Bool.eq_false_iff.mpr fun hd => ?_
    rw [(h.dummy hd).1] at hlt
    exact absurd hlt (Nat.not_lt_zero n)
  refine ⟨hkey, hlt.trans_le h.last, hd, fun i hi hlt' => ?_⟩
  by_cases hil : i < t.lastfree
  · exact hlater i hi hil
  · exact h.lastfree i (Nat.not_lt.mp hil) hlt' hd

theorem Sound.getfreepos_none (h : Sound H t) (hn : getfreepos t = none) :
    t.dummy = true ∨ ∀ i < t.sizenode, t.key i ≠ none := by
  cases hd : t.dummy with
  | true => exact .inl rfl
  | false =>
    refine .inr fun i hi => ?_
    by_cases hil : i < t.lastfree
    · exact freeBelow_spec.2 hn i hil
    · exact h.lastfree i (Nat.not_lt.mp hil) hi hd

section Fields

variable {node : ℕ → Node V} {mp n q : ℕ}

theorem setKey_key (k : Key) : (fun i => (setKey node mp k i).key) =
    Function.update (fun i => (node i).key) mp (some k) := by
  funext i
  simp only [setKey, Function.update_apply]
  split_ifs <;> rfl

theorem setKey_val (k : Key) : (fun i => (setKey node mp k i).val) = fun i => (node i).val := by
  funext i
  simp only [setKey, Function.update_apply]
  split_ifs with hi
  · rw [hi]
  · rfl

theorem setKey_next (k : Key) : (fun i => (setKey node mp k i).next) = fun i => (node i).next := by
  funext i
  simp only [setKey, Function.update_apply]
  split_ifs with hi
  · rw [hi]
  · rfl

theorem chainNode_key (hne : n ≠ mp) :
    (fun i => (chainNode node mp n i).key) = fun i => (node i).key := by
  funext i
  simp only [chainNode, Function.update_apply, if_neg hne.symm]
  split_ifs with hi hi'
  · rw [hi]
  · rw [hi']
  · rfl

theorem chainNode_val (hne : n ≠ mp) :
    (fun i => (chainNode node mp n i).val) = fun i => (node i).val := by
  funext i
  simp only [chainNode, Function.update_apply, if_neg hne.symm]
  split_ifs with hi hi'
  · rw [hi]
  · rw [hi']
  · rfl

theorem chainNode_next (node : ℕ → Node V) (mp n : ℕ) :
    (fun i => (chainNode node mp n i).next) = insertAfter (fun i => (node i).next) mp n := by
  funext i
  simp only [chainNode, insertAfter, Function.update_apply]
  split_ifs <;> rfl

theorem moveNode_key (hne : n ≠ mp) (hq : q ≠ mp) :
    (fun i => (moveNode node mp q n i).key) =
      Function.update (fun i => (node i).key) n (node mp).key := by
  funext i
  simp only [moveNode, Function.update_apply, if_neg hne.symm, if_neg hq.symm]
  by_cases hmp : i = mp
  · subst hmp
    rw [if_pos rfl, if_neg hne.symm]
  · rw [if_neg hmp]
    split_ifs with hi hi'
    · rfl
    · rw [hi']
    · rfl

theorem moveNode_val (hne : n ≠ mp) (hq : q ≠ mp) :
    (fun i => (moveNode node mp q n i).val) =
      Function.update (Function.update (fun i => (node i).val) n (node mp).val) mp none := by
  funext i
  simp only [moveNode, Function.update_apply, if_neg hne.symm, if_neg hq.symm]
  split_ifs with hi hi' hi''
  · rfl
  · rfl
  · rw [hi'']
  · rfl

theorem moveNode_next (hq : q ≠ mp) :
    (fun i => (moveNode node mp q n i).next) = replace (fun i => (node i).next) q mp n := by
  funext i
  simp only [moveNode, replace, Function.update_apply, if_neg hq.symm]
  split_ifs <;> rfl

end Fields

theorem Sound.newkey_overwrite (h : Sound H t) {k : Key} (hk : ∀ i, t.key i ≠ some k)
    (harr : arraySlot t k = none) (hv : t.val (mainposition H t.sizenode k) = none)
    (hd : t.dummy = false) (fuel : ℕ) :
    ∃ t' i, newkey H (fuel + 1) t k = .ok (t', .node i) ∧ SameShape t t' ∧ Inserted H k t t' i := by
  have hnode : (t.node (mainposition H t.sizenode k)).val = none := hv
  rw [newkey]
  simp only [hnode, hd, Option.isSome_none, Bool.false_eq_true, or_self, if_false]
  refine ⟨_, _, rfl, ⟨rfl, rfl, rfl, hd.symm⟩, h.inserted hk harr (Overwrites.places ?_ h)⟩
  exact
    { place := rfl
      unused := hv
      proper := hd
      shape := ⟨rfl, rfl, rfl, hd.symm⟩
      key := setKey_key k
      val := setKey_val k
      next := setKey_next k
      last := rfl }

theorem Sound.newkey_free (h : Sound H t) {k : Key} (hk : ∀ i, t.key i ≠ some k)
    (harr : arraySlot t k = none) {n : ℕ} (hn : getfreepos t = some n) (fuel : ℕ) :
    ∃ t' i, newkey H (fuel + 1) t k = .ok (t', .node i) ∧ SameShape t t' ∧ Inserted H k t t' i := by
  obtain ⟨hkey, hin, hd, hlater⟩ := h.getfreepos_some hn
  obtain ⟨mp, hmp⟩ : ∃ mp, mp = mainposition H t.sizenode k := ⟨_, rfl⟩
  cases hv : t.val mp with
  | none => exact h.newkey_overwrite hk harr (hmp ▸ hv) hd fuel
  | some v =>
    obtain ⟨k₀, hk₀⟩ : ∃ k₀, t.key mp = some k₀ := by
      refine Option.ne_none_iff_exists'.mp fun hnone => ?_
      rw [(h.live mp hnone).1] at hv
      cases hv
    have hne : n ≠ mp := by
      rintro rfl
      rw [hkey] at hk₀
      cases hk₀
    have hnodev : (t.node mp).val = some v := hv
    have hnode : (t.node mp).key = some k₀ := hk₀
    rw [newkey]
    simp only [← hmp, hn, hnodev, hnode, Option.isSome_some, true_or, if_true]
    by_cases hpos : mainposition H t.sizenode k₀ = mp
    · rw [if_neg (not_not.mpr hpos)]
      refine ⟨_, n, rfl, ⟨rfl, rfl, rfl, rfl⟩, h.inserted hk harr
        (Chains.places (?_ : Chains H k k₀ mp n t _) h)⟩
      exact
        { place := hmp
          collides := hk₀
          home := hpos
          free := hkey
          inside := hin
          later := hlater
          proper := hd
          shape := ⟨rfl, rfl, rfl, rfl⟩
          key := (setKey_key k).trans (by rw [chainNode_key hne]; rfl)
          val := (setKey_val k).trans (chainNode_val hne)
          next := (setKey_next k).trans (chainNode_next t.node mp n)
          last := rfl }
    · rw [if_pos hpos]
      obtain ⟨q, hq, hqmp⟩ := h.previous_spec (mainposition_lt H t k₀) (h.reaches mp k₀ hk₀) hpos
      have hqne := (h.links.replace_ne (h.free hkey) hqmp).1
      rw [hq]
      refine ⟨_, mp, rfl, ⟨rfl, rfl, rfl, rfl⟩, h.inserted hk harr
        (Displaces.places (?_ : Displaces H k k₀ q mp n t _) h)⟩
      exact
        { place := hmp
          collides := hk₀
          astray := hpos
          behind := hqmp
          free := hkey
          inside := hin
          later := hlater
          proper := hd
          shape := ⟨rfl, rfl, rfl, rfl⟩
          key := (setKey_key k).trans (by rw [moveNode_key hne hqne, hnode]; rfl)
          val := (setKey_val k).trans (moveNode_val hne hqne)
          next := (setKey_next k).trans (moveNode_next hqne)
          last := rfl }

end Jiauliyan.LuaTable
