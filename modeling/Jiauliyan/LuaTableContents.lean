import Jiauliyan.LuaTableNodes

namespace Jiauliyan.LuaTable

open Jiauliyan.Links

variable {V : Type} (H : Hashes)

/-- What `luaH_get` points to. -/
def value (t : Table V) (k : Key) : Option V :=
  match luaHGet H t (.key k) with
  | .ok (some slot) => t.at' slot
  | _ => none

variable {H} {t t' : Table V} {k : Key} {i : ℕ}

theorem value_array (H : Hashes) (hi : arraySlot t k = some i) : value H t k = t.array i := by
  rw [value, luaHGet_key, hi]
  rfl

theorem Sound.get_node (h : Sound H t) (hi : t.key i = some k) :
    luaHGet H t (.key k) = .ok (some (.node i)) := by
  rw [luaHGet_key, h.hashed i k hi]
  exact h.find_some hi

theorem Sound.get_none (h : Sound H t) (harr : arraySlot t k = none) (hk : ∀ i, t.key i ≠ some k) :
    luaHGet H t (.key k) = .ok none := by
  rw [luaHGet_key, harr]
  exact h.find_none hk

theorem Sound.value_node (h : Sound H t) (hi : t.key i = some k) : value H t k = t.val i := by
  rw [value, h.get_node hi]
  rfl

theorem Sound.value_none (h : Sound H t) (harr : arraySlot t k = none)
    (hk : ∀ i, t.key i ≠ some k) : value H t k = none := by
  rw [value, h.get_none harr hk]

theorem Sound.value_iff (h : Sound H t) (harr : arraySlot t k = none) (v : V) :
    value H t k = some v ↔ ∃ j, t.key j = some k ∧ t.val j = some v := by
  constructor
  · intro hv
    by_cases hk : ∀ i, t.key i ≠ some k
    · rw [h.value_none harr hk] at hv
      cases hv
    · obtain ⟨j, hj⟩ := not_forall.mp hk
      have hkey := not_not.mp hj
      exact ⟨j, hkey, (h.value_node hkey).symm.trans hv⟩
  · rintro ⟨j, hj, hv⟩
    exact (h.value_node hj).trans hv

structure Pointed (H : Hashes) (k : Key) (t t' : Table V) (slot : Slot) : Prop where
  sound : Sound H t'
  slot : luaHGet H t' (.key k) = .ok (some slot)
  same : ∀ k', value H t' k' = value H t k'

theorem Inserted.pointed (h : Sound H t) (hk : ∀ i, t.key i ≠ some k)
    (harr : arraySlot t k = none) (hshape : SameShape t t') (hi : Inserted H k t t' i) :
    Pointed H k t t' (.node i) := by
  refine ⟨hi.sound, hi.sound.get_node hi.key, fun k' => ?_⟩
  by_cases hkk : k' = k
  · rw [hkk, hi.sound.value_node hi.key, hi.val, h.value_none harr hk]
  · cases hslot : arraySlot t k' with
    | some j =>
      rw [value_array H hslot, value_array H ((hshape.arraySlot k').trans hslot), hshape.array]
    | none =>
      refine Option.ext fun v => ?_
      rw [h.value_iff hslot, hi.sound.value_iff ((hshape.arraySlot k').trans hslot)]
      exact hi.others k' hkk v

theorem arraySlot_lt (hi : arraySlot t k = some i) : i < t.sizearray := by
  rw [arraySlot] at hi
  cases hk : asInt k with
  | none =>
    rw [hk] at hi
    cases hi
  | some j =>
    rw [hk] at hi
    simp only at hi
    split_ifs at hi with hj
    cases hi
    omega

theorem arraySlot_inj {k' : Key} (hi : arraySlot t k = some i) (hi' : arraySlot t k' = some i) :
    k = k' := by
  rw [arraySlot] at hi hi'
  cases hk : asInt k with
  | none =>
    rw [hk] at hi
    cases hi
  | some j =>
    cases hk' : asInt k' with
    | none =>
      rw [hk'] at hi'
      cases hi'
    | some j' =>
      rw [hk] at hi
      rw [hk'] at hi'
      simp only at hi hi'
      split_ifs at hi hi' with hj hj'
      cases hi
      have heq : (j' - 1).toNat = (j - 1).toNat := Option.some.inj hi'
      have hjj : j = j' := by omega
      rw [asInt_eq hk, asInt_eq hk', hjj]

theorem Sound.slot_cases (h : Sound H t) {slot : Slot}
    (hslot : luaHGet H t (.key k) = .ok (some slot)) :
    (∃ i, slot = .array i ∧ arraySlot t k = some i) ∨ ∃ i, slot = .node i ∧ t.key i = some k := by
  cases harr : arraySlot t k with
  | some i =>
    rw [luaHGet_key, harr] at hslot
    cases hslot
    exact .inl ⟨i, rfl, rfl⟩
  | none =>
    by_cases hk : ∀ i, t.key i ≠ some k
    · rw [h.get_none harr hk] at hslot
      cases hslot
    · obtain ⟨i, hi⟩ := not_forall.mp hk
      have hkey := not_not.mp hi
      rw [h.get_node hkey] at hslot
      cases hslot
      exact .inr ⟨i, rfl, hkey⟩

theorem store_key (t : Table V) (v : Option V) (slot : Slot) : (t.store v slot).key = t.key := by
  cases slot with
  | array i => rfl
  | node i =>
    funext j
    show (Function.update t.node i { t.node i with val := v } j).key = (t.node j).key
    rw [Function.update_apply]
    split_ifs with hj
    · rw [hj]
    · rfl

theorem store_next (t : Table V) (v : Option V) (slot : Slot) : (t.store v slot).next = t.next := by
  cases slot with
  | array i => rfl
  | node i =>
    funext j
    show (Function.update t.node i { t.node i with val := v } j).next = (t.node j).next
    rw [Function.update_apply]
    split_ifs with hj
    · rw [hj]
    · rfl

theorem store_val (t : Table V) (v : Option V) (i : ℕ) :
    (t.store v (.node i)).val = Function.update t.val i v := by
  funext j
  show (Function.update t.node i { t.node i with val := v } j).val = _
  rw [Function.update_apply, Function.update_apply]
  split_ifs <;> rfl

theorem store_sizes (t : Table V) (v : Option V) (slot : Slot) :
    (t.store v slot).sizearray = t.sizearray ∧ (t.store v slot).lsizenode = t.lsizenode ∧
      (t.store v slot).dummy = t.dummy ∧ (t.store v slot).lastfree = t.lastfree := by
  cases slot <;> exact ⟨rfl, rfl, rfl, rfl⟩

theorem Sound.store_sound (h : Sound H t) {slot : Slot}
    (hslot : luaHGet H t (.key k) = .ok (some slot)) (v : Option V) : Sound H (t.store v slot) := by
  obtain ⟨i, rfl, -⟩ | ⟨i, rfl, hi⟩ := h.slot_cases hslot
  · exact ⟨h.bits, h.asize, h.outside, h.dummy, h.live, h.links, h.linked, h.last, h.lastfree,
      h.unique, h.hashed, h.reaches, h.main⟩
  · have hkey := store_key t v (.node i)
    have hnext := store_next t v (.node i)
    have hval := store_val t v i
    have hsize : (t.store v (.node i)).sizenode = t.sizenode := rfl
    have harr : ∀ k, arraySlot (t.store v (.node i)) k = arraySlot t k := fun _ => rfl
    refine ⟨h.bits, h.asize, ?_, ?_, ?_, ?_, ?_, h.last, ?_, ?_, ?_, ?_, ?_⟩
    · rw [hkey]
      exact h.outside
    · rw [hkey]
      exact h.dummy
    · intro j hj
      rw [hkey] at hj
      have hne : j ≠ i := by
        rintro rfl
        rw [hi] at hj
        cases hj
      rw [hval, hnext, Function.update_of_ne hne]
      exact h.live j hj
    · rw [hnext]
      exact h.links
    · rw [hnext, hkey]
      exact h.linked
    · rw [hkey]
      exact h.lastfree
    · rw [hkey]
      exact h.unique
    · rw [hkey]
      exact h.hashed
    · rw [hkey, hnext]
      exact h.reaches
    · rw [hkey]
      exact h.main

theorem Sound.store_value (h : Sound H t) {slot : Slot}
    (hslot : luaHGet H t (.key k) = .ok (some slot)) (v : Option V) (k' : Key) :
    value H (t.store v slot) k' = if k' = k then v else value H t k' := by
  have hs := h.store_sound hslot v
  obtain ⟨i, rfl, hi⟩ | ⟨i, rfl, hi⟩ := h.slot_cases hslot
  · cases harr : arraySlot t k' with
    | some j =>
      have harr' : arraySlot (t.store v (.array i)) k' = some j := harr
      rw [value_array H harr', value_array H harr]
      show Function.update t.array i v j = _
      rw [Function.update_apply]
      have hiff : j = i ↔ k' = k := by
        constructor
        · rintro rfl
          exact arraySlot_inj harr hi
        · rintro rfl
          rw [hi] at harr
          exact (Option.some.inj harr).symm
      simp only [hiff]
    | none =>
      have hne : k' ≠ k := by
        rintro rfl
        rw [hi] at harr
        cases harr
      have harr' : arraySlot (t.store v (.array i)) k' = none := harr
      rw [if_neg hne]
      refine Option.ext fun w => ?_
      rw [h.value_iff harr, hs.value_iff harr']
      exact Iff.rfl
  · cases harr : arraySlot t k' with
    | some j =>
      have hne : k' ≠ k := by
        rintro rfl
        rw [h.hashed i k' hi] at harr
        cases harr
      have harr' : arraySlot (t.store v (.node i)) k' = some j := harr
      rw [if_neg hne, value_array H harr', value_array H harr]
      rfl
    | none =>
      have harr' : arraySlot (t.store v (.node i)) k' = none := harr
      by_cases hk : ∃ j, t.key j = some k'
      · obtain ⟨j, hj⟩ := hk
        have hj' : (t.store v (.node i)).key j = some k' := by rw [store_key, hj]
        rw [hs.value_node hj', h.value_node hj, store_val, Function.update_apply]
        have hiff : j = i ↔ k' = k := by
          constructor
          · rintro rfl
            exact Option.some.inj (hj.symm.trans hi)
          · rintro rfl
            exact h.unique j i k' hj hi
        simp only [hiff]
      · have hnone : ∀ j, t.key j ≠ some k' := fun j hj => hk ⟨j, hj⟩
        have hne : k' ≠ k := by
          rintro rfl
          exact hnone i hi
        have hnone' : ∀ j, (t.store v (.node i)).key j ≠ some k' := by
          rw [store_key]
          exact hnone
        rw [if_neg hne, h.value_none harr hnone, hs.value_none harr' hnone']

def freeNodes (t : Table V) : Finset ℕ :=
  (Finset.range t.sizenode).filter fun i => t.key i = none

def room (t : Table V) : ℕ := if t.dummy then 0 else (freeNodes t).card

theorem Sound.free_of_room (h : Sound H t) (hroom : 0 < room t) :
    ∃ n, getfreepos t = some n := by
  refine Option.ne_none_iff_exists'.mp fun hnone => ?_
  rw [room] at hroom
  obtain hd | hfull := h.getfreepos_none hnone
  · rw [if_pos hd] at hroom
    exact Nat.lt_irrefl 0 hroom
  · split_ifs at hroom with hd
    · exact Nat.lt_irrefl 0 hroom
    obtain ⟨i, hi⟩ := Finset.card_pos.mp hroom
    obtain ⟨hlt, hkey⟩ := Finset.mem_filter.mp hi
    exact hfull i (Finset.mem_range.mp hlt) hkey

theorem Inserted.room_le (hshape : SameShape t t') (hi : Inserted H k t t' i) :
    room t ≤ room t' + 1 := by
  rw [room, room, hshape.dummy]
  split_ifs
  · exact Nat.zero_le _
  · obtain ⟨n, hn⟩ := hi.keys
    have hsub : (freeNodes t).erase n ⊆ freeNodes t' := by
      intro j hj
      obtain ⟨hne, hfree⟩ := Finset.mem_erase.mp hj
      obtain ⟨hlt, hkey⟩ := Finset.mem_filter.mp hfree
      refine Finset.mem_filter.mpr ⟨hshape.sizenode ▸ hlt, ?_⟩
      by_contra hne'
      obtain hold | rfl := hn j hne'
      · exact hold hkey
      · exact hne rfl
    have hcard := Finset.card_le_card hsub
    have herase : (freeNodes t).card - 1 ≤ ((freeNodes t).erase n).card :=
      Finset.pred_card_le_card_erase
    omega

/-- The table has a place for the key, or room for one. -/
structure Fits (k : Key) (t : Table V) : Prop where
  fits : (arraySlot t k).isSome = true ∨ (∃ i, t.key i = some k) ∨ 0 < room t

/-- What `luaH_set` and the assignment to its place have done where there was no rehash. -/
structure Assigned (H : Hashes) (k : Key) (v : V) (t t' : Table V) : Prop where
  sound : Sound H t'
  value : ∀ k', value H t' k' = if k' = k then some v else value H t k'
  sizearray : t'.sizearray = t.sizearray
  lsizenode : t'.lsizenode = t.lsizenode
  room : room t ≤ room t' + if (arraySlot t k).isSome then 0 else 1
  array : arraySlot t k = none → t'.array = t.array

theorem store_room (t : Table V) (v : Option V) (slot : Slot) :
    room (t.store v slot) = room t := by
  obtain ⟨-, hl, hd, -⟩ := store_sizes t v slot
  have hsize : (t.store v slot).sizenode = t.sizenode := by rw [Table.sizenode, hl, Table.sizenode]
  rw [room, room, hd, freeNodes, freeNodes, hsize, store_key]

theorem Sound.setOr_fits (h : Sound H t) (hf : Fits k t) (fuel : ℕ) :
    ∃ t' slot, setOr H (newkey H (fuel + 1)) (.key k) t = .ok (t', slot) ∧
      Pointed H k t t' slot ∧ SameShape t t' ∧
      room t ≤ room t' + if (arraySlot t k).isSome then 0 else 1 := by
  cases harr : arraySlot t k with
  | some i =>
    have hget : luaHGet H t (.key k) = .ok (some (.array i)) := by rw [luaHGet_key, harr]
    refine ⟨t, .array i, ?_, ⟨h, hget, fun _ => rfl⟩, ⟨rfl, rfl, rfl, rfl⟩, Nat.le_add_right _ _⟩
    rw [setOr, hget]
    rfl
  | none =>
    by_cases hk : ∃ i, t.key i = some k
    · obtain ⟨i, hi⟩ := hk
      have hget := h.get_node hi
      refine ⟨t, .node i, ?_, ⟨h, hget, fun _ => rfl⟩, ⟨rfl, rfl, rfl, rfl⟩, Nat.le_add_right _ _⟩
      rw [setOr, hget]
      rfl
    · have hnone : ∀ i, t.key i ≠ some k := fun i hi => hk ⟨i, hi⟩
      have hroom : 0 < room t := by
        obtain harr' | hk' | hroom := hf.fits
        · rw [harr] at harr'
          cases harr'
        · exact absurd hk' hk
        · exact hroom
      obtain ⟨n, hn⟩ := h.free_of_room hroom
      obtain ⟨t', i, hnew, hshape, hins⟩ := h.newkey_free hnone harr hn fuel
      refine ⟨t', .node i, ?_, hins.pointed h hnone harr hshape, hshape, hins.room_le hshape⟩
      rw [setOr, h.get_none harr hnone]
      exact hnew

theorem Sound.assign_fits (h : Sound H t) (hf : Fits k t) (fuel : ℕ) (v : V) :
    ∃ t', assign (setOr H (newkey H (fuel + 1)) (.key k)) v t = .ok t' ∧
      Assigned H k v t t' := by
  obtain ⟨t₁, slot, hset, hp, hshape, hroom⟩ := h.setOr_fits hf fuel
  refine ⟨t₁.store (some v) slot, ?_, hp.sound.store_sound hp.slot _, fun k' => ?_, ?_, ?_, ?_, ?_⟩
  · rw [assign, hset]
    rfl
  · rw [hp.sound.store_value hp.slot, hp.same]
  · rw [(store_sizes t₁ _ slot).1, hshape.sizearray]
  · rw [(store_sizes t₁ _ slot).2.1, hshape.lsizenode]
  · rw [store_room]
    exact hroom
  · intro harr
    obtain ⟨i, -, hi⟩ | ⟨i, rfl, -⟩ := hp.sound.slot_cases hp.slot
    · rw [hshape.arraySlot, harr] at hi
      cases hi
    · exact hshape.array

end Jiauliyan.LuaTable
