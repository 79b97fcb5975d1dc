import Jiauliyan.DkjsonQuotes
import Jiauliyan.DkjsonTables

namespace Jiauliyan.DkjsonWrites

open Jiauliyan.Framing (Bytes)
open Jiauliyan.JsonText hiding Bytes
open Jiauliyan.Dkjson Jiauliyan.DkjsonFinds Jiauliyan.DkjsonQuotes Jiauliyan.DkjsonReads
open Jiauliyan.DkjsonTables

variable {ν : Type} {N : Numbers ν} {limit : ℕ}

theorem keyOf_string {k : Value ν} {s : Bytes} :
    keyOf N k = keyOf N (.string s) ↔ k = .string s := by
  cases k <;> simp [keyOf]

theorem keyOf_index (hN : Indexed N limit) {i : ℕ} (low : 1 ≤ i) (high : i ≤ limit) :
    keyOf N (.number (N.ofNat i)) = some (.inr i) := by
  rw [keyOf, hN.own i low high]
  rfl

section Built

variable (hN : Indexed N limit) {tbl : Entries ν}

include hN

theorem get_arrayTable {vs : List (Value ν)} {n : ℕ} (ht : Keyed N limit tbl)
    (hn : n + vs.length ≤ limit) :
    (∀ j (hj : j < vs.length),
      Dkjson.get N (arrayTable N tbl n vs) (.number (N.ofNat (n + 1 + j))) = vs[j]) ∧
    ∀ k, (∀ i, n < i → i ≤ n + vs.length → keyOf N k ≠ some (.inr i)) →
      Dkjson.get N (arrayTable N tbl n vs) k = Dkjson.get N tbl k := by
  induction vs generalizing tbl n with
  | nil => exact ⟨fun j hj => absurd hj (Nat.not_lt_zero j), fun _ _ => rfl⟩
  | cons v vs ih =>
    rw [List.length_cons] at hn
    have hkey : Key N limit (.number (N.ofNat (n + 1))) := .index _ (by omega) (by omega)
    have hfirst := keyOf_index hN (by omega : 1 ≤ n + 1) (by omega : n + 1 ≤ limit)
    obtain ⟨hmore, hother⟩ := ih (set_keyed ht hkey v) (by omega : n + 1 + vs.length ≤ limit)
    refine ⟨fun j hj => ?_, fun k hk => ?_⟩
    · cases j with
      | zero =>
        rw [arrayTable, hother _ fun i hi hle => ?_, get_set hN ht hkey, Nat.add_zero, if_pos rfl]
        · rfl
        · rw [Nat.add_zero, hfirst]
          intro heq
          cases heq
          exact absurd hi (Nat.lt_irrefl _)
      | succ j =>
        have hnext := hmore j (Nat.lt_of_succ_lt_succ hj)
        rw [arrayTable, ← Nat.add_assoc, Nat.add_right_comm (n + 1) j 1, hnext]
        rfl
    · rw [List.length_cons] at hk
      rw [arrayTable, hother k fun i hi hle => hk i (by omega) (by omega), get_set hN ht hkey,
        hfirst, if_neg (hk (n + 1) (by omega) (by omega))]

theorem get_objectTable (ht : Keyed N limit tbl) (ms : List (Bytes × Value ν)) :
    (∀ pre s v post, ms = pre ++ (s, v) :: post → (∀ m ∈ post, m.1 ≠ s) →
      Dkjson.get N (objectTable N tbl ms) (.string s) = v) ∧
    ∀ k, (∀ m ∈ ms, k ≠ .string m.1) →
      Dkjson.get N (objectTable N tbl ms) k = Dkjson.get N tbl k := by
  induction ms generalizing tbl with
  | nil => exact ⟨fun pre s v post heq => by simp at heq, fun _ _ => rfl⟩
  | cons m ms ih =>
    have hkey : Key N limit (.string m.1) := .string m.1
    obtain ⟨hmore, hother⟩ := ih (set_keyed ht hkey m.2)
    refine ⟨fun pre s v post heq hpost => ?_, fun k hk => ?_⟩
    · cases pre with
      | nil =>
        obtain ⟨rfl, rfl⟩ := List.cons.inj heq
        have hkept := hother (.string s) fun m hm hs => hpost m hm (Value.string.inj hs).symm
        rw [objectTable, List.foldl_cons, ← objectTable, hkept, get_set hN ht hkey, if_pos rfl]
      | cons e pre =>
        obtain ⟨rfl, hms⟩ := List.cons.inj heq
        exact hmore pre s v post hms hpost
    · rw [objectTable, List.foldl_cons, ← objectTable,
        hother k fun e he => hk e (List.mem_cons_of_mem m he), get_set hN ht hkey,
        if_neg fun h => hk m List.mem_cons_self (keyOf_string.mp h)]

end Built

section Values

variable (N) (border : Entries ν → ν) (nullval : Value ν)

def nameOf : Value ν → Option Bytes
  | .string s => some s
  | .number x => some (N.tostring x)
  | _ => none

/-- A value, and what is read from its text. -/
inductive Reads : Value ν → Value ν → Prop
  | nil : Reads .nil nullval
  | null : Reads .jsonNull nullval
  | bool (b : Bool) : Reads (.bool b) (.bool b)
  | number {x x' : ν} (read : N.tonumber (N.tostring x) = some x') :
    Reads (.number x) (.number x')
  | string (s : Bytes) : Reads (.string s) (.string s)
  | array {t t' : Entries ν} {n : ℕ} (array : isarray N border t = some n)
    (elements : ∀ i, 1 ≤ i → i ≤ n → Reads (Dkjson.get N t (.number (N.ofNat i)))
      (Dkjson.get N t' (.number (N.ofNat i))))
    (others : ∀ k, (∀ i, 1 ≤ i → i ≤ n → keyOf N k ≠ some (.inr i)) → Dkjson.get N t' k = .nil) :
    Reads (.table t) (.table t')
  | object {t t' : Entries ν} (object : isarray N border t = none)
    (members : ∀ pre k v post name, t = pre ++ (k, v) :: post → nameOf N k = some name →
      (∀ kv ∈ post, nameOf N kv.1 ≠ some name) → Reads v (Dkjson.get N t' (.string name)))
    (others : ∀ k, (∀ kv ∈ t, ∀ name, nameOf N kv.1 = some name → k ≠ .string name) →
      Dkjson.get N t' k = .nil) :
    Reads (.table t) (.table t')

def Quotable (format4x : ℕ → Bytes) (s : Bytes) : Prop :=
  ∀ w v, w <:+: s → coded w = true → utf8value w = some v → Written format4x v

/-- The values that have a text. -/
inductive Writable (limit : ℕ) (format4x : ℕ → Bytes) : Value ν → Prop
  | nil : Writable limit format4x .nil
  | null : Writable limit format4x .jsonNull
  | bool (b : Bool) : Writable limit format4x (.bool b)
  | number {x x' : ν} (n : Number) (text : N.tostring x = n.text)
    (read : N.tonumber n.text = some x') : Writable limit format4x (.number x)
  | string {s : Bytes} (quotable : Quotable format4x s) : Writable limit format4x (.string s)
  | array {t : Entries ν} {n : ℕ} (array : isarray N border t = some n) (bound : n ≤ limit)
    (elements : ∀ i, 1 ≤ i → i ≤ n →
      Writable limit format4x (Dkjson.get N t (.number (N.ofNat i)))) :
    Writable limit format4x (.table t)
  | object {t : Entries ν} (object : isarray N border t = none)
    (names : ∀ kv ∈ t, ∃ name, nameOf N kv.1 = some name ∧ Quotable format4x name)
    (values : ∀ kv ∈ t, Writable limit format4x kv.2) :
    Writable limit format4x (.table t)

end Values

section Writes

variable {border : Entries ν → ν} {nullval : Value ν} {format4x : ℕ → Bytes} {indent : Bool}

structure Texts (N : Numbers ν) (border : Entries ν → ν) (nullval v : Value ν) (t : Text)
    (v' : Value ν) : Prop where
  value : DkjsonReads.value N nullval t = some v'
  reads : Reads N border nullval v v'
  number : (∃ n, t = .number n) → ∃ x, v = .number x

theorem depthEntry_eq (kv : Value ν × Value ν) : depthEntry kv = kv.2.depth := by
  rw [depthEntry]

theorem depth_get (t : Entries ν) (k : Value ν) : (Dkjson.get N t k).depth ≤ depthEntries t := by
  induction t with
  | nil => exact Nat.le_refl 0
  | cons kv t ih =>
    rw [get_cons, depthEntries]
    split_ifs
    · exact le_max_of_le_left (depthEntry_eq _).ge
    · exact le_max_of_le_right ih

theorem depth_entry {t : Entries ν} {kv : Value ν × Value ν} (h : kv ∈ t) :
    kv.2.depth ≤ depthEntries t := by
  induction t with
  | nil => cases h
  | cons e t ih =>
    rw [depthEntries]
    obtain rfl | h := List.mem_cons.mp h
    · exact le_max_of_le_left (depthEntry_eq _).ge
    · exact le_max_of_le_right (ih h)

def space : Ws := ⟨[32], by simp [isWs]⟩

def newline (indent : Bool) (level : ℕ) : Ws := ⟨addnewline2 indent level, by
  intro c hc
  rw [addnewline2] at hc
  split_ifs at hc
  · obtain rfl | hc := List.mem_cons.mp hc
    · rfl
    · obtain ⟨l, hl, hc⟩ := List.mem_flatten.mp hc
      rw [List.eq_of_mem_replicate hl] at hc
      simp only [List.mem_cons, List.not_mem_nil, or_false, or_self] at hc
      rw [hc]
      rfl
  · rw [List.mem_singleton.mp hc]
    rfl⟩

theorem encodeItems_writes {enc : Value ν → Option (Except String Bytes)} {tbl : Entries ν}
    (r : ℕ) {i : ℕ}
    (henc : ∀ j, i ≤ j → j ≤ i + r → ∃ t v',
      enc (Dkjson.get N tbl (.number (N.ofNat j))) = some (.ok t.text) ∧
        Texts N border nullval (Dkjson.get N tbl (.number (N.ofNat j))) t v') :
    ∃ out items vs, encodeItems N enc tbl i (r + 1) = some (.ok out) ∧
      Items.text items = 32 :: (out ++ [32]) ∧ elements N nullval items = some vs ∧
      vs.length = r + 1 ∧ ∀ j (hj : j < vs.length),
        Reads N border nullval (Dkjson.get N tbl (.number (N.ofNat (i + j)))) vs[j] := by
  obtain ⟨t, v, hput, htext⟩ := henc i (Nat.le_refl i) (Nat.le_add_right i r)
  induction r generalizing i t v with
  | zero =>
    refine ⟨t.text, .last space t space, [v], ?_, rfl, ?_, rfl, fun j hj => ?_⟩
    · simp only [encodeItems, hput, if_true, List.append_nil]
    · rw [elements, htext.value]
      rfl
    · obtain rfl := Nat.lt_one_iff.mp hj
      exact htext.reads
  | succ r ih =>
    obtain ⟨t₂, v₂, hput₂, htext₂⟩ := henc (i + 1) (by omega) (by omega)
    obtain ⟨out, items, vs, hout, hitems, hvs, hlen, hreads⟩ :=
      ih (fun j hj hle => henc j (by omega) (by omega)) t₂ v₂ hput₂ htext₂
    refine ⟨t.text ++ ([44, 32] ++ out), .cons space t noWs items, v :: vs, ?_, ?_, ?_, ?_, ?_⟩
    · rw [encodeItems]
      simp only [hput, hout, Nat.succ_ne_zero, if_false]
    · rw [Items.text, hitems]
      simp only [List.append_assoc]
      rfl
    · rw [elements, htext.value, hvs]
    · rw [List.length_cons, hlen]
    · intro j hj
      cases j with
      | zero => exact htext.reads
      | succ j =>
        have h := hreads j (Nat.lt_of_succ_lt_succ hj)
        rwa [Nat.add_right_comm i 1 j, Nat.add_assoc] at h

def Named (N : Numbers ν) (border : Entries ν → ν) (nullval : Value ν) (kv : Value ν × Value ν)
    (m : Bytes × Value ν) : Prop :=
  nameOf N kv.1 = some m.1 ∧ Reads N border nullval kv.2 m.2

variable (indent) in
theorem encodeMembers_writes {enc : Value ν → Option (Except String Bytes)} (level : ℕ)
    (behind : Ws) {tbl : Entries ν} (hne : tbl ≠ []) (prev : Bool)
    (hnames : ∀ kv ∈ tbl, ∃ name, nameOf N kv.1 = some name ∧ Quotable format4x name)
    (henc : ∀ kv ∈ tbl, ∃ t v', enc kv.2 = some (.ok t.text) ∧
      Texts N border nullval kv.2 t v') :
    ∃ out ms vs, encodeMembers N format4x indent enc level prev tbl =
        some (.ok ((if prev then [44] else []) ++ out)) ∧
      Members.text ms = out ++ behind.val ∧ members N nullval ms = some vs ∧
      List.Forall₂ (Named N border nullval) tbl vs := by
  induction tbl generalizing prev with
  | nil => exact absurd rfl hne
  | cons kv tbl ih =>
    obtain ⟨k, v⟩ := kv
    obtain ⟨t, v', hput, htext⟩ := henc (k, v) List.mem_cons_self
    obtain ⟨name, hname, hquotable⟩ := hnames (k, v) List.mem_cons_self
    have hquote : keyText N format4x k = .ok (quotestring format4x name) := by
      cases k <;> cases hname <;> rfl
    obtain ⟨ps, hquoted, rfl⟩ := quotestring_text name hquotable
    have hkey : keyText N format4x k = .ok (stringText ps) := by rw [hquote, hquoted]
    cases tbl with
    | nil =>
      refine ⟨addnewline2 indent level ++ (stringText ps ++ ([58, 32] ++ t.text)),
        .last (newline indent level) ps noWs space t behind, [(stringBytes ps, v')], ?_, ?_, ?_,
        .cons ⟨hname, htext.reads⟩ .nil⟩
      · simp only [encodeMembers, hkey, hput, List.append_nil]
      · simp only [Members.text, newline, space, noWs, List.append_assoc, List.cons_append,
          List.nil_append]
      · rw [members, htext.value]
        rfl
    | cons e tbl =>
      obtain ⟨out, ms, vs, hout, hms, hvs, hnamed⟩ := ih (List.cons_ne_nil e tbl) true
        (fun kv hkv => hnames kv (List.mem_cons_of_mem _ hkv))
        fun kv hkv => henc kv (List.mem_cons_of_mem _ hkv)
      refine ⟨addnewline2 indent level ++ (stringText ps ++ ([58, 32] ++ (t.text ++ 44 :: out))),
        .cons (newline indent level) ps noWs space t noWs ms, (stringBytes ps, v') :: vs, ?_, ?_,
        ?_, .cons ⟨hname, htext.reads⟩ hnamed⟩
      · rw [encodeMembers]
        simp only [hkey, hput, hout, if_true]
        rfl
      · simp only [Members.text, newline, space, noWs, hms, List.append_assoc, List.cons_append,
          List.nil_append]
      · rw [members, htext.value, hvs]

theorem isarray_empty : isarray N border [] = some 0 := rfl

theorem named_split {tbl : Entries ν} {vs : List (Bytes × Value ν)}
    (h : List.Forall₂ (Named N border nullval) tbl vs) {pre post : Entries ν} {k v : Value ν}
    (heq : tbl = pre ++ (k, v) :: post) :
    ∃ pre' m post', vs = pre' ++ m :: post' ∧ Named N border nullval (k, v) m ∧
      List.Forall₂ (Named N border nullval) post post' := by
  subst heq
  induction pre generalizing vs with
  | nil =>
    obtain ⟨m, post', hm, hpost, rfl⟩ := List.forall₂_cons_left_iff.mp h
    exact ⟨[], m, post', rfl, hm, hpost⟩
  | cons e pre ih =>
    obtain ⟨m', rest, -, hrest, rfl⟩ := List.forall₂_cons_left_iff.mp h
    obtain ⟨pre', m, post', rfl, hm, hpost⟩ := ih hrest
    exact ⟨m' :: pre', m, post', rfl, hm, hpost⟩

theorem named_right {tbl : Entries ν} {vs : List (Bytes × Value ν)}
    (h : List.Forall₂ (Named N border nullval) tbl vs) {m : Bytes × Value ν} (hm : m ∈ vs) :
    ∃ kv ∈ tbl, nameOf N kv.1 = some m.1 := by
  induction h with
  | nil => cases hm
  | cons hkv _ ih =>
    obtain rfl | hm := List.mem_cons.mp hm
    · exact ⟨_, List.mem_cons_self, hkv.1⟩
    · obtain ⟨kv, hkv, hname⟩ := ih hm
      exact ⟨kv, List.mem_cons_of_mem _ hkv, hname⟩

theorem reads_object (hN : Indexed N limit) {t : Entries ν} {vs : List (Bytes × Value ν)}
    (object : isarray N border t = none) (h : List.Forall₂ (Named N border nullval) t vs) :
    Reads N border nullval (.table t) (.table (objectTable N [] vs)) := by
  have hkeyed : Keyed N limit ([] : Entries ν) := fun kv hkv => by cases hkv
  obtain ⟨hmembers, hother⟩ := get_objectTable hN hkeyed vs
  refine .object object (fun pre k v post name heq hname hpost => ?_) fun k hk => ?_
  · obtain ⟨pre', ⟨s, v'⟩, post', rfl, ⟨hs, hreads⟩, hlater⟩ := named_split h heq
    obtain rfl : s = name := Option.some.inj (hs.symm.trans hname)
    rwa [hmembers pre' s v' post' rfl fun m hm hsame => ?_]
    obtain ⟨kv, hkv, hkvname⟩ := named_right hlater hm
    exact hpost kv hkv (by rw [hkvname, hsame])
  · rw [hother k fun m hm hkm => ?_]
    · rfl
    · obtain ⟨kv, hkv, hname⟩ := named_right h hm
      exact hk kv hkv m.1 hname hkm

theorem reads_array (hN : Indexed N limit) {t : Entries ν} (vs : List (Value ν)) {n : ℕ}
    (array : isarray N border t = some n) (hlen : vs.length = n) (hn : n ≤ limit)
    (h : ∀ j (hj : j < vs.length),
      Reads N border nullval (Dkjson.get N t (.number (N.ofNat (1 + j)))) vs[j]) :
    Reads N border nullval (.table t) (.table (arrayTable N [] 0 vs)) := by
  have hkeyed : Keyed N limit ([] : Entries ν) := fun kv hkv => by cases hkv
  obtain ⟨helements, hother⟩ := get_arrayTable hN hkeyed
    (by omega : 0 + vs.length ≤ limit)
  refine .array array (fun i low high => ?_) fun k hk => ?_
  · obtain ⟨j, rfl⟩ := Nat.exists_eq_add_of_le low
    have hj : j < vs.length := by omega
    have helement := helements j hj
    rw [Nat.zero_add] at helement
    rw [helement]
    exact h j hj
  · rw [hother k fun i low high => hk i low (by omega)]
    rfl

theorem encode2_writes (hN : Indexed N limit) {v : Value ν}
    (hv : Writable N border limit format4x v) :
    ∀ fuel level, v.depth ≤ fuel → ∃ t v',
      encode2 N format4x border indent fuel level v = some (.ok t.text) ∧
        Texts N border nullval v t v' := by
  induction hv with
  | nil => exact fun fuel level _ => ⟨.null, nullval, by rw [encode2]; rfl, rfl, .nil, by simp⟩
  | null => exact fun fuel level _ => ⟨.null, nullval, by rw [encode2]; rfl, rfl, .null, by simp⟩
  | bool b =>
    intro fuel level _
    refine ⟨.bool b, .bool b, ?_, rfl, .bool b, by simp⟩
    cases b <;> rw [encode2] <;> rfl
  | @number x x' n text read =>
    intro fuel level _
    refine ⟨.number n, .number x', by rw [encode2, text]; rfl, ?_, .number ?_, fun _ => ⟨x, rfl⟩⟩
    · rw [DkjsonReads.value, read]
      rfl
    · rw [text, read]
  | @string s quotable =>
    intro fuel level _
    obtain ⟨ps, hquoted, hbytes⟩ := quotestring_text s quotable
    refine ⟨.string ps, .string s, by rw [encode2, hquoted]; rfl, ?_, .string s, by simp⟩
    rw [DkjsonReads.value, hbytes]
  | @array t n array bound _ ih =>
    intro fuel level hfuel
    rw [Value.depth] at hfuel
    obtain ⟨fuel, rfl⟩ := Nat.exists_eq_add_one_of_ne_zero (by omega : fuel ≠ 0)
    have henc : ∀ i, 1 ≤ i → i ≤ n → ∃ t₁ v₁,
        encode2 N format4x border indent fuel (level + 1)
          (Dkjson.get N t (.number (N.ofNat i))) = some (.ok t₁.text) ∧
        Texts N border nullval (Dkjson.get N t (.number (N.ofNat i))) t₁ v₁ :=
      fun i low high => ih i low high fuel (level + 1)
        ((depth_get t _).trans (Nat.le_of_succ_le_succ hfuel))
    cases n with
    | zero =>
      refine ⟨.emptyArray ⟨[32, 32], by simp [isWs]⟩, .table [], ?_, rfl, ?_, by simp⟩
      · simp only [encode2, array, encodeItems]
        rfl
      · exact reads_array hN [] array rfl bound fun j hj => absurd hj (Nat.not_lt_zero j)
    | succ r =>
      obtain ⟨out, items, vs, hout, hitems, hvs, hlen, hreads⟩ := encodeItems_writes r
        fun j low high => henc j low (by omega)
      refine ⟨.array items, .table (arrayTable N [] 0 vs), ?_, ?_,
        reads_array hN vs array hlen bound hreads, by simp⟩
      · simp only [encode2, array, hout, Text.text, hitems]
        simp
      · rw [DkjsonReads.value, hvs]
        rfl
  | @object t object names _ ih =>
    intro fuel level hfuel
    rw [Value.depth] at hfuel
    obtain ⟨fuel, rfl⟩ := Nat.exists_eq_add_one_of_ne_zero (by omega : fuel ≠ 0)
    have hne : t ≠ [] := by
      rintro rfl
      rw [isarray_empty] at object
      cases object
    obtain ⟨out, ms, vs, hout, hms, hvs, hnamed⟩ := encodeMembers_writes indent (level + 1)
      (newline indent level) hne false names fun kv hkv =>
        ih kv hkv fuel (level + 1) ((depth_entry hkv).trans (Nat.le_of_succ_le_succ hfuel))
    refine ⟨.object ms, .table (objectTable N [] vs), ?_, ?_, reads_object hN object hnamed,
      by simp⟩
    · simp only [encode2, object, hout, Text.text, hms]
      simp [newline]
    · rw [DkjsonReads.value, hvs]
      rfl

end Writes

section Doubles

open Jiauliyan.FloatingPoint Jiauliyan.LuaNumber

theorem quotable_ascii {s : Bytes} (h : ∀ c ∈ s, c < 128 ∧ coded [c] = false)
    (format4x : ℕ → Bytes) : Quotable format4x s := by
  intro w v hin hw _
  have hhigh : ∀ lead ∈ leads, ∀ c ∈ lead, ¬c < 128 := by simp [leads]
  obtain ⟨lead, hlead, b, rfl⟩ := coded_lead hw
  cases lead with
  | nil =>
    have hb := h b (hin.subset List.mem_cons_self)
    rw [List.nil_append, hb.2] at hw
    cases hw
  | cons c lead =>
    have hc := h c (hin.subset List.mem_cons_self)
    exact absurd hc.1 (hhigh _ hlead c List.mem_cons_self)

variable (uninit : ℕ) (tostring : FloatingPoint.Number → Bytes)

theorem lua_indexed : Indexed (luaNumbers uninit tostring) (2 ^ 53 - 1) := by
  have hofNat : ∀ i : ℕ, i ≤ 2 ^ 53 - 1 →
      (luaNumbers uninit tostring).ofNat i = .finite (i : ℤ) := by
    intro i hi
    have hround : binary64.round ((i : ℤ) : ℚ) = .finite (i : ℤ) :=
      round_int (by rw [Nat.abs_cast]; exact_mod_cast (by omega : i < 2 ^ 53)) (by decide)
    rwa [Int.cast_natCast] at hround
  have hindex : ∀ q : ℚ, ∀ i : ℕ, 1 ≤ i →
      ((luaNumbers uninit tostring).index (.finite q) = some i ↔ q = (i : ℤ)) := by
    intro q i hi
    show (if q.den = 1 ∧ 1 ≤ q.num then some q.num.toNat else none) = some i ↔ q = (i : ℤ)
    constructor
    · intro h
      split_ifs at h with hq
      rw [← Option.some.inj h, Int.toNat_of_nonneg (by omega)]
      exact ((Rat.den_eq_one_iff q).mp hq.1).symm
    · rintro rfl
      rw [if_pos ⟨Rat.den_intCast _, by rw [Rat.num_intCast]; omega⟩, Rat.num_intCast,
        Int.toNat_natCast]
  refine ⟨fun i x low high => ?_, fun i low high => ?_⟩
  · rw [hofNat i high]
    cases x with
    | nan | inf b => exact iff_of_false Bool.false_ne_true (fun h => by cases h)
    | finite q =>
      rw [hindex q i low]
      simp [luaNumbers, FloatingPoint.Number.eq, eq_comm]
  · rw [hofNat i high, hindex _ i low]

variable (format4x : ℕ → Bytes) (border : Entries FloatingPoint.Number → FloatingPoint.Number)
  (indent : Bool) (nullval : Value FloatingPoint.Number)

/-- What `encode` writes, `decode` reads back. -/
theorem encode_decode {v : Value FloatingPoint.Number}
    (hv : Writable (luaNumbers uninit tostring) border (2 ^ 53 - 1) format4x v) (level : ℕ)
    (front : Bytes) (w : Ws) {rest : Bytes} (hrest : ∀ c ∈ rest.head?, follows c = true)
    (hnumber : (∃ x, v = .number x) → rest ≠ []) :
    ∃ out v', encode (luaNumbers uninit tostring) format4x border indent level v =
        some (.ok out) ∧
      decode (luaNumbers uninit tostring) (front ++ (w.val ++ (out ++ rest))) (front.length + 1)
          nullval = some ⟨v', front.length + 1 + w.val.length + out.length, none⟩ ∧
      Reads (luaNumbers uninit tostring) border nullval v v' := by
  obtain ⟨t, v', hput, htext⟩ := encode2_writes (lua_indexed uninit tostring) hv v.depth level
    (Nat.le_refl _)
  exact ⟨t.text, v', hput, decode_at _ nullval front w htext.value
    ⟨hrest, fun hn => hnumber (htext.number hn)⟩, htext.reads⟩

def twenty : Value FloatingPoint.Number :=
  .table [(.string [97], .string [34, 10]), (.number (.finite 20), .bool true)]

theorem twenty_decodes : ∃ out v',
    encode (luaNumbers 0 fun _ => [50, 48]) (fun _ => []) (fun _ => .nan) true 0 twenty =
        some (.ok out) ∧
      decode (luaNumbers 0 fun _ => [50, 48]) ([] ++ (noWs.val ++ (out ++ [])))
          (([] : Bytes).length + 1) .nil =
        some ⟨v', ([] : Bytes).length + 1 + noWs.val.length + out.length, none⟩ ∧
      Reads (luaNumbers 0 fun _ => [50, 48]) (fun _ => .nan) .nil twenty v' := by
  have hname := quotable_ascii (s := [97]) (by simp [coded]) fun _ => []
  have hnumber := quotable_ascii (s := [50, 48]) (by simp [coded]) fun _ => []
  have hstring := quotable_ascii (s := [34, 10]) (by simp [coded, escapecodes]) fun _ => []
  refine encode_decode 0 _ (fun _ => []) (fun _ => .nan) true .nil (.object rfl ?_ ?_) 0 [] noWs
    (fun c hc => by cases hc) fun ⟨x, hx⟩ => (by cases hx)
  · intro kv hkv
    simp only [List.mem_cons, List.not_mem_nil, or_false] at hkv
    obtain rfl | rfl := hkv
    · exact ⟨_, rfl, hname⟩
    · exact ⟨_, rfl, hnumber⟩
  · intro kv hkv
    simp only [List.mem_cons, List.not_mem_nil, or_false] at hkv
    obtain rfl | rfl := hkv
    · exact .string hstring
    · exact .bool true

end Doubles

end Jiauliyan.DkjsonWrites
