import Mathlib.Data.Finset.Max
import Jiauliyan.Client
import Jiauliyan.LuaPattern

namespace Jiauliyan.FormEncoding

open Jiauliyan.LuaPattern
open Jiauliyan.Framing (Bytes)
open Jiauliyan.Client (subFrom)

def iscntrl (c : UInt8) : Bool := c ≤ 0x1F || c == 0x7F

def special (c : UInt8) : Bool := c == 0x26 || c == 0x3D || c == 0x2B || iscntrl c

def hexDigit (n : ℕ) : UInt8 := if n < 10 then UInt8.ofNat (0x30 + n) else UInt8.ofNat (0x37 + n)

/-- `string.format("%%%02X", n)` -/
def formatHex (n : UInt8) : Bytes := [0x25, hexDigit (n.toNat / 16), hexDigit (n.toNat % 16)]

def urlEncode (s : Bytes) : Bytes :=
  let s := (gsub ⟨special, []⟩ (fun c => formatHex (c.headD 0)) none s).1
  (gsub ⟨fun c => c == 0x20, []⟩ (fun _ => [0x2B]) none s).1

/-- The entries of a table, in the order in which `pairs` visits them. -/
structure Table where
  entries : List (Bytes × Bytes)
  distinct : (entries.map Prod.fst).Nodup

def urlEncodeTable (t : Table) : Bytes :=
  subFrom (t.entries.foldl
    (fun s kv => s ++ [0x26] ++ urlEncode kv.1 ++ [0x3D] ++ urlEncode kv.2) []) 2

def hexValue (c : UInt8) : Option ℕ :=
  if 0x30 ≤ c ∧ c ≤ 0x39 then some (c.toNat - 0x30)
  else if 0x41 ≤ c ∧ c ≤ 0x46 then some (c.toNat - 0x37)
  else if 0x61 ≤ c ∧ c ≤ 0x66 then some (c.toNat - 0x57)
  else none

def escapeAt : Bytes → Option (UInt8 × Bytes)
  | p :: a :: b :: s =>
    if p = 0x25 then
      (hexValue a).bind fun x => (hexValue b).map fun y => (UInt8.ofNat (16 * x + y), s)
    else none
  | _ => none

theorem escapeAt_some {s rest : Bytes} {c : UInt8} (h : escapeAt s = some (c, rest)) :
    ∃ a b x y, s = 0x25 :: a :: b :: rest ∧ hexValue a = some x ∧ hexValue b = some y ∧
      c = UInt8.ofNat (16 * x + y) := by
  match s, h with
  | p :: a :: b :: s, h =>
    rw [escapeAt] at h
    split_ifs at h with hp
    obtain ⟨x, hx, h⟩ := Option.bind_eq_some_iff.mp h
    obtain ⟨y, hy, h⟩ := Option.map_eq_some_iff.mp h
    obtain ⟨rfl, rfl⟩ := Prod.mk.inj h
    exact ⟨a, b, x, y, by rw [hp], hx, hy, rfl⟩

def percentDecode (s : Bytes) : Bytes :=
  match _h : escapeAt s with
  | some (c, rest) => c :: percentDecode rest
  | none =>
    match s with
    | [] => []
    | c :: s => c :: percentDecode s
termination_by s.length
decreasing_by
  · obtain ⟨a, b, x, y, rfl, -⟩ := escapeAt_some ‹_›
    simp only [List.length_cons]
    omega
  · exact Nat.lt_succ_self _

def plusToSpace (s : Bytes) : Bytes := s.map fun c => if c = 0x2B then 0x20 else c

def decodeComponent (s : Bytes) : Bytes := percentDecode (plusToSpace s)

def decodePair (piece : Bytes) : Bytes × Bytes :=
  (decodeComponent (piece.takeWhile (· ≠ 0x3D)),
    decodeComponent ((piece.dropWhile (· ≠ 0x3D)).drop 1))

/-- Empty pieces are skipped. -/
def formDecode (s : Bytes) : List (Bytes × Bytes) :=
  ((s.splitOn 0x26).filter (· ≠ [])).map decodePair

/-- The table in which the pairs are entered, one after the other. -/
def tableOf (kvs : List (Bytes × Bytes)) : Bytes → Option Bytes :=
  kvs.foldl (fun t kv => Function.update t kv.1 (some kv.2)) fun _ => none

/-- No percent sign of the text has two hexadecimal digits behind it. -/
def Unmistakable (s : Bytes) : Prop := ∀ t, t <:+ s → escapeAt t = none

section Percent

variable {s rest : Bytes} {c : UInt8}

theorem percentDecode_escape (h : escapeAt s = some (c, rest)) :
    percentDecode s = c :: percentDecode rest := by
  rw [percentDecode]
  split
  · next c' rest' h' =>
    obtain ⟨rfl, rfl⟩ := Prod.mk.inj (Option.some.inj (h.symm.trans h'))
    rfl
  · next h' => cases h.symm.trans h'

theorem percentDecode_keep (h : escapeAt (c :: s) = none) :
    percentDecode (c :: s) = c :: percentDecode s := by
  rw [percentDecode]
  split
  · next c' rest' h' => cases h.symm.trans h'
  · rfl

theorem percentDecode_nil : percentDecode [] = [] := by
  rw [percentDecode]
  rfl

theorem unmistakable_cons : Unmistakable (c :: s) ↔ escapeAt (c :: s) = none ∧ Unmistakable s := by
  constructor
  · intro h
    exact ⟨h _ List.suffix_rfl, fun t ht => h t (ht.trans (List.suffix_cons c s))⟩
  · rintro ⟨hc, hs⟩ t ht
    obtain rfl | ht := List.suffix_cons_iff.mp ht
    · exact hc
    · exact hs t ht

theorem percentDecode_cases (s : Bytes) :
    Unmistakable s ∧ percentDecode s = s ∨
      ¬Unmistakable s ∧ (percentDecode s).length < s.length := by
  induction s using percentDecode.induct with
  | case1 s c rest h ih =>
    obtain ⟨a, b, x, y, rfl, -⟩ := escapeAt_some h
    refine .inr ⟨fun hs => ?_, ?_⟩
    · cases (hs _ List.suffix_rfl).symm.trans h
    · have hle : (percentDecode rest).length ≤ rest.length := by
        obtain ⟨-, heq⟩ | ⟨-, hlt⟩ := ih
        · rw [heq]
        · exact hlt.le
      rw [percentDecode_escape h]
      simp only [List.length_cons]
      omega
  | case2 h =>
    refine .inl ⟨fun t ht => ?_, percentDecode_nil⟩
    rw [List.suffix_nil.mp ht]
    exact h
  | case3 c s h ih =>
    rw [unmistakable_cons, percentDecode_keep h]
    simp only [h, true_and, List.cons.injEq, List.length_cons, Nat.add_lt_add_iff_right]
    exact ih

theorem percentDecode_iff (s : Bytes) : percentDecode s = s ↔ Unmistakable s := by
  obtain ⟨hs, heq⟩ | ⟨hs, hlt⟩ := percentDecode_cases s
  · exact iff_of_true heq hs
  · refine iff_of_false (fun heq => ?_) hs
    rw [heq] at hlt
    exact absurd hlt (lt_irrefl _)

end Percent

section Bytes

variable {a c : UInt8} {s t : Bytes}

theorem hexDigit_value : ∀ n < 16, hexValue (hexDigit n) = some n := by decide

theorem hexDigit_plain : ∀ n < 16, special (hexDigit n) = false ∧ hexDigit n ≠ 0x20 ∧
    hexDigit n ≠ 0x26 ∧ hexDigit n ≠ 0x2B ∧ hexDigit n ≠ 0x3D := by decide

theorem nibbles_lt (c : UInt8) : c.toNat / 16 < 16 ∧ c.toNat % 16 < 16 := by
  have hc := c.toNat_lt
  omega

theorem escapeAt_formatHex (c : UInt8) (s : Bytes) : escapeAt (formatHex c ++ s) = some (c, s) := by
  obtain ⟨hhigh, hlow⟩ := nibbles_lt c
  have hc : 16 * (c.toNat / 16) + c.toNat % 16 = c.toNat := Nat.div_add_mod _ _
  simp only [formatHex, List.cons_append, List.nil_append, escapeAt, if_true,
    hexDigit_value _ hhigh, hexDigit_value _ hlow, Option.bind_some, Option.map_some, hc,
    UInt8.ofNat_toNat]

theorem hexValue_plain {x : ℕ} (h : hexValue a = some x) : special a = false ∧ a ≠ 0x20 := by
  have hrange : 0x30 ≤ a.toNat ∧ a.toNat ≤ 0x39 ∨ 0x41 ≤ a.toNat ∧ a.toNat ≤ 0x66 := by
    simp only [hexValue, UInt8.le_iff_toNat_le] at h
    split_ifs at h with h1 h2 h3
    · exact .inl h1
    · exact .inr ⟨h2.1, h2.2.trans (by decide)⟩
    · exact .inr ⟨le_trans (by decide) h3.1, h3.2⟩
  simp only [special, iscntrl, Bool.or_eq_false_iff, beq_eq_false_iff_ne, ne_eq,
    decide_eq_false_iff_not, UInt8.le_iff_toNat_le, ← UInt8.toNat_inj]
  simp only [UInt8.reduceToNat]
  omega

def coded (c : UInt8) : Bytes :=
  if special c then formatHex c else if c = 0x20 then [0x2B] else [c]

def received (c : UInt8) : Bytes := if special c then formatHex c else [c]

theorem urlEncode_eq (s : Bytes) : urlEncode s = s.flatMap coded := by
  have hspace : ∀ c, (if special c then formatHex ([c].headD 0) else [c]).flatMap
      (fun c => if c == 0x20 then [0x2B] else [c]) = coded c := by
    intro c
    rw [coded]
    split_ifs with hc h20
    · obtain ⟨hhigh, hlow⟩ := nibbles_lt c
      simp [formatHex, (hexDigit_plain _ hhigh).2.1, (hexDigit_plain _ hlow).2.1]
    · subst h20
      rfl
    · simp [h20]
  rw [urlEncode, gsub_class, gsub_class, List.flatMap_assoc]
  exact congrArg (fun f => s.flatMap f) (funext hspace)

theorem plusToSpace_coded (c : UInt8) : plusToSpace (coded c) = received c := by
  rw [coded, received]
  split_ifs with hc h20
  · obtain ⟨hhigh, hlow⟩ := nibbles_lt c
    simp [formatHex, plusToSpace, (hexDigit_plain _ hhigh).2.2.2.1, (hexDigit_plain _ hlow).2.2.2.1]
  · rw [h20]
    rfl
  · have hplus : c ≠ 0x2B := by
      rintro rfl
      exact hc rfl
    simp [plusToSpace, hplus]

theorem plusToSpace_urlEncode (s : Bytes) : plusToSpace (urlEncode s) = s.flatMap received := by
  rw [urlEncode_eq, plusToSpace, List.map_flatMap]
  exact congrArg (fun f => s.flatMap f) (funext plusToSpace_coded)

theorem received_special (hc : special c = true) : received c = formatHex c := if_pos hc

theorem received_plain (hc : special c = false) : received c = [c] :=
  if_neg (Bool.eq_false_iff.mp hc)

theorem received_digit {x : ℕ} (h : s.flatMap received = a :: t) (ha : hexValue a = some x) :
    ∃ s', s = a :: s' ∧ t = s'.flatMap received := by
  cases s with
  | nil => cases h
  | cons c s =>
    rw [List.flatMap_cons] at h
    cases hc : special c with
    | true =>
      rw [received_special hc] at h
      obtain ⟨rfl, -⟩ := List.cons.inj h
      cases ha
    | false =>
      rw [received_plain hc] at h
      obtain ⟨rfl, rfl⟩ := List.cons.inj h
      exact ⟨s, rfl, rfl⟩

theorem escapeAt_percent (s : Bytes) : escapeAt (0x25 :: s.flatMap received) =
    (escapeAt (0x25 :: s)).map fun (c, rest) => (c, rest.flatMap received) := by
  cases h : escapeAt (0x25 :: s) with
  | some r =>
    obtain ⟨c, rest⟩ := r
    obtain ⟨a, b, x, y, hs, ha, hb, rfl⟩ := escapeAt_some h
    obtain rfl := (List.cons.inj hs).2
    have hplain := fun {a : UInt8} {x : ℕ} (ha : hexValue a = some x) =>
      received_plain (hexValue_plain ha).1
    simp only [List.flatMap_cons, hplain ha, hplain hb, List.singleton_append, escapeAt, if_true,
      ha, hb, Option.bind_some, Option.map_some]
  | none =>
    cases h' : escapeAt (0x25 :: s.flatMap received) with
    | none => rfl
    | some r =>
      obtain ⟨c, rest⟩ := r
      obtain ⟨a, b, x, y, hs, ha, hb, -⟩ := escapeAt_some h'
      obtain ⟨s', rfl, hs'⟩ := received_digit (List.cons.inj hs).2 ha
      obtain ⟨s'', rfl, -⟩ := received_digit hs'.symm hb
      simp [escapeAt, ha, hb] at h

theorem escapeAt_other (hc : c ≠ 0x25) (s : Bytes) : escapeAt (c :: s) = none := by
  match s with
  | [] | [_] => rfl
  | a :: b :: s => rw [escapeAt, if_neg hc]

/-- The standard decoder undoes the encoding, except for the percent signs: it takes those of the
text for its own. -/
theorem decodeComponent_urlEncode (s : Bytes) :
    decodeComponent (urlEncode s) = percentDecode s := by
  rw [decodeComponent, plusToSpace_urlEncode]
  induction s using percentDecode.induct with
  | case1 s c rest h ih =>
    obtain ⟨a, b, x, y, rfl, -⟩ := escapeAt_some h
    have hsent := escapeAt_percent (a :: b :: rest)
    rw [h, Option.map_some] at hsent
    rw [List.flatMap_cons, received_plain rfl, percentDecode_escape h, List.singleton_append,
      percentDecode_escape hsent, ih]
  | case2 h => rfl
  | case3 c s h ih =>
    rw [percentDecode_keep h, List.flatMap_cons]
    cases hc : special c with
    | true =>
      rw [received_special hc, percentDecode_escape (escapeAt_formatHex c _), ih]
    | false =>
      have hkeep : escapeAt (c :: s.flatMap received) = none := by
        by_cases h25 : c = 0x25
        · subst h25
          rw [escapeAt_percent, h, Option.map_none]
        · exact escapeAt_other h25 _
      rw [received_plain hc, List.singleton_append, percentDecode_keep hkeep, ih]

theorem urlEncode_separators (s : Bytes) : ∀ c ∈ urlEncode s, c ≠ 0x26 ∧ c ≠ 0x3D := by
  intro c hc
  rw [urlEncode_eq] at hc
  obtain ⟨b, -, hb⟩ := List.mem_flatMap.mp hc
  rw [coded] at hb
  split_ifs at hb with hs h20
  · obtain ⟨hhigh, hlow⟩ := nibbles_lt b
    simp only [formatHex, List.mem_cons, List.not_mem_nil, or_false] at hb
    obtain rfl | rfl | rfl := hb
    · decide
    · obtain ⟨-, -, hamp, -, heq⟩ := hexDigit_plain _ hhigh
      exact ⟨hamp, heq⟩
    · obtain ⟨-, -, hamp, -, heq⟩ := hexDigit_plain _ hlow
      exact ⟨hamp, heq⟩
  · rw [List.mem_singleton.mp hb]
    decide
  · rw [List.mem_singleton.mp hb]
    constructor
    · rintro rfl
      exact hs rfl
    · rintro rfl
      exact hs rfl

end Bytes

def piece (kv : Bytes × Bytes) : Bytes := urlEncode kv.1 ++ [0x3D] ++ urlEncode kv.2

theorem piece_nonempty (kv : Bytes × Bytes) : piece kv ≠ [] := by simp [piece]

theorem piece_no_amp (kv : Bytes × Bytes) : 0x26 ∉ piece kv := by
  intro h
  rw [piece, List.mem_append, List.mem_append, List.mem_singleton] at h
  obtain (h | h) | h := h
  · exact (urlEncode_separators _ _ h).1 rfl
  · exact absurd h (by decide)
  · exact (urlEncode_separators _ _ h).1 rfl

theorem decodePair_piece (kv : Bytes × Bytes) :
    decodePair (piece kv) = (percentDecode kv.1, percentDecode kv.2) := by
  have hkey : ∀ c ∈ urlEncode kv.1, decide (c ≠ 0x3D) = true := fun c hc =>
    decide_eq_true (urlEncode_separators _ c hc).2
  rw [decodePair, piece, List.append_assoc, List.takeWhile_append_of_pos hkey,
    List.dropWhile_append_of_pos hkey, List.singleton_append, List.takeWhile_cons_of_neg (by simp),
    List.dropWhile_cons_of_neg (by simp), List.append_nil, List.drop_one, List.tail_cons,
    decodeComponent_urlEncode, decodeComponent_urlEncode]

theorem urlEncodeTable_eq (t : Table) :
    urlEncodeTable t = [0x26].intercalate (t.entries.map piece) := by
  have hfold : ∀ (kvs : List (Bytes × Bytes)) (s : Bytes),
      kvs.foldl (fun s kv => s ++ [0x26] ++ urlEncode kv.1 ++ [0x3D] ++ urlEncode kv.2) s =
        s ++ kvs.flatMap fun kv => 0x26 :: piece kv := by
    intro kvs
    induction kvs with
    | nil => exact fun s => (List.append_nil s).symm
    | cons kv kvs ih =>
      intro s
      rw [List.foldl_cons, ih, List.flatMap_cons, piece]
      simp only [List.append_assoc, List.cons_append, List.nil_append]
  have hjoin : ∀ kvs : List (Bytes × Bytes),
      (kvs.flatMap fun kv => 0x26 :: piece kv).drop 1 = [0x26].intercalate (kvs.map piece) := by
    intro kvs
    induction kvs with
    | nil => rfl
    | cons kv kvs ih =>
      cases kvs with
      | nil => simp
      | cons kv' kvs =>
        rw [List.map_cons, List.map_cons, List.intercalate_cons_cons, ← List.map_cons, ← ih]
        simp
  rw [urlEncodeTable, subFrom, hfold, List.nil_append]
  exact hjoin t.entries

theorem formDecode_urlEncodeTable (t : Table) : formDecode (urlEncodeTable t) =
    t.entries.map fun kv => (percentDecode kv.1, percentDecode kv.2) := by
  rw [formDecode, urlEncodeTable_eq]
  cases hkvs : t.entries with
  | nil => rfl
  | cons kv kvs =>
    have hsplit : ([0x26].intercalate ((kv :: kvs).map piece)).splitOn 0x26 =
        (kv :: kvs).map piece := by
      refine List.splitOn_intercalate _ ?_ (List.cons_ne_nil _ _)
      intro l hl hmem
      obtain ⟨kv', -, rfl⟩ := List.mem_map.mp hl
      exact piece_no_amp kv' hmem
    have hfull : ((kv :: kvs).map piece).filter (· ≠ []) = (kv :: kvs).map piece := by
      rw [List.filter_eq_self]
      intro l hl
      obtain ⟨kv', -, rfl⟩ := List.mem_map.mp hl
      exact decide_eq_true (piece_nonempty kv')
    rw [hsplit, hfull, List.map_map]
    exact List.map_congr_left fun kv' _ => decodePair_piece kv'

section Tables

variable {kvs : List (Bytes × Bytes)} {k v : Bytes}

theorem tableOf_snoc (kvs : List (Bytes × Bytes)) (kv : Bytes × Bytes) :
    tableOf (kvs ++ [kv]) = Function.update (tableOf kvs) kv.1 (some kv.2) := List.foldl_append

theorem tableOf_none : tableOf kvs k = none ↔ k ∉ kvs.map Prod.fst := by
  induction kvs using List.reverseRecOn with
  | nil => exact iff_of_true rfl List.not_mem_nil
  | append_singleton kvs kv ih =>
    rw [tableOf_snoc, List.map_append, List.mem_append, not_or, ← ih]
    by_cases hk : k = kv.1
    · subst hk
      simp
    · simp [hk]

theorem tableOf_mem (h : (kvs.map Prod.fst).Nodup) (hkv : (k, v) ∈ kvs) :
    tableOf kvs k = some v := by
  induction kvs using List.reverseRecOn with
  | nil => cases hkv
  | append_singleton kvs kv ih =>
    rw [List.map_append, List.nodup_append] at h
    obtain ⟨hnodup, -, hdisjoint⟩ := h
    rw [tableOf_snoc]
    obtain hkv | hkv := List.mem_append.mp hkv
    · have hne : k ≠ kv.1 :=
        hdisjoint k (List.mem_map_of_mem hkv) kv.1 (List.mem_singleton_self _)
      rw [Function.update_of_ne hne, ih hnodup hkv]
    · rw [← List.mem_singleton.mp hkv, Function.update_self]

theorem fixed_of_onto {α : Type} {f : α → α} {size : α → ℕ} {s : Finset α}
    (hsize : ∀ x, f x ≠ x → size (f x) < size x) (honto : ∀ x ∈ s, ∃ y ∈ s, f y = x) :
    ∀ x ∈ s, f x = x := by
  classical
  by_contra hnot
  push Not at hnot
  obtain ⟨x₀, hx₀, hne₀⟩ := hnot
  have hmoved : (s.filter fun x => f x ≠ x).Nonempty := ⟨x₀, Finset.mem_filter.mpr ⟨hx₀, hne₀⟩⟩
  obtain ⟨x, hx, hmax⟩ := Finset.exists_max_image _ size hmoved
  obtain ⟨hxs, hne⟩ := Finset.mem_filter.mp hx
  -- what is taken to the largest that is moved is larger
  obtain ⟨y, hys, rfl⟩ := honto x hxs
  have hyne : f y ≠ y := fun h => hne (by rw [h, h])
  have hle := hmax y (Finset.mem_filter.mpr ⟨hys, hyne⟩)
  exact absurd (hsize y hyne) (not_lt.mpr hle)

theorem percentDecode_shorter (s : Bytes) (h : percentDecode s ≠ s) :
    (percentDecode s).length < s.length := by
  obtain ⟨-, heq⟩ | ⟨-, hlt⟩ := percentDecode_cases s
  · exact absurd heq h
  · exact hlt

theorem decoded_iff (t : Table) :
    tableOf (t.entries.map fun kv => (percentDecode kv.1, percentDecode kv.2)) =
      tableOf t.entries ↔
        ∀ kv ∈ t.entries, percentDecode kv.1 = kv.1 ∧ percentDecode kv.2 = kv.2 := by
  constructor
  · intro h
    have hkeys : ∀ k ∈ (t.entries.map Prod.fst).toFinset, percentDecode k = k := by
      refine fixed_of_onto percentDecode_shorter fun k hk => ?_
      have hsome : ¬tableOf t.entries k = none := by
        rw [tableOf_none, not_not]
        exact List.mem_toFinset.mp hk
      rw [← h, tableOf_none, not_not, List.map_map] at hsome
      obtain ⟨kv, hkv, rfl⟩ := List.mem_map.mp hsome
      exact ⟨kv.1, List.mem_toFinset.mpr (List.mem_map_of_mem hkv), rfl⟩
    have hfst : ∀ kv ∈ t.entries, percentDecode kv.1 = kv.1 := fun kv hkv =>
      hkeys kv.1 (List.mem_toFinset.mpr (List.mem_map_of_mem hkv))
    have hnodup : ((t.entries.map fun kv => (percentDecode kv.1, percentDecode kv.2)).map
        Prod.fst).Nodup := by
      rw [List.map_map]
      exact (List.map_congr_left hfst).symm ▸ t.distinct
    rintro ⟨k, v⟩ hkv
    refine ⟨hfst _ hkv, ?_⟩
    have hdecoded := tableOf_mem hnodup (List.mem_map_of_mem hkv)
    rw [h, hfst _ hkv, tableOf_mem t.distinct hkv] at hdecoded
    exact (Option.some.inj hdecoded).symm
  · intro h
    have hid : t.entries.map (fun kv => (percentDecode kv.1, percentDecode kv.2)) = t.entries := by
      conv_rhs => rw [← List.map_id t.entries]
      exact List.map_congr_left fun kv hkv => Prod.ext (h kv hkv).1 (h kv hkv).2
    rw [hid]

end Tables

/-- A table is decoded to itself unless one of its texts has an escape sequence of its own, and
texts without any are told apart. -/
theorem urlEncode_iff (t : Table) :
    (tableOf (formDecode (urlEncodeTable t)) = tableOf t.entries ↔
      ∀ kv ∈ t.entries, Unmistakable kv.1 ∧ Unmistakable kv.2) ∧
    Set.InjOn urlEncode {s | Unmistakable s} := by
  constructor
  · rw [formDecode_urlEncodeTable, decoded_iff]
    simp only [percentDecode_iff]
  · intro s hs s' hs' h
    rw [← (percentDecode_iff s).mpr hs, ← (percentDecode_iff s').mpr hs',
      ← decodeComponent_urlEncode, h, decodeComponent_urlEncode]

theorem percent_unescaped :
    (¬∀ t : Table, tableOf (formDecode (urlEncodeTable t)) = tableOf t.entries) ∧
      ¬Function.Injective urlEncode := by
  constructor
  · intro h
    have hsame := congrFun (h ⟨[([0x71], [0x25, 0x34, 0x31])], by decide⟩) [0x71]
    have hkey : percentDecode [0x71] = [0x71] := by
      rw [percentDecode_keep rfl, percentDecode_nil]
    have hvalue : percentDecode [0x25, 0x34, 0x31] = [0x41] := by
      rw [percentDecode_escape rfl, percentDecode_nil]
      rfl
    rw [formDecode_urlEncodeTable, List.map_singleton, hkey, hvalue] at hsame
    revert hsame
    decide
  · intro h
    have hsame : urlEncode [0x26] = urlEncode [0x25, 0x32, 0x36] := by
      rw [urlEncode_eq, urlEncode_eq]
      decide
    exact absurd (h hsame) (by decide)

end Jiauliyan.FormEncoding
