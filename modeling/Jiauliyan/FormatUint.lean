import Jiauliyan.PutUint

namespace Jiauliyan.FormatUint

open Jiauliyan.Memory Jiauliyan.CString Jiauliyan.StringCompare Jiauliyan.Format
open Jiauliyan.FormatHeap Jiauliyan.Numeral Jiauliyan.PutUint

def strcpy (block : ℕ → UInt8) (pos : ℕ) : Chars → ℕ → UInt8
  | [] => Function.update block pos 0
  | c :: s =>
    if c = 0 then Function.update block pos 0 else strcpy (Function.update block pos c) (pos + 1) s

def charsFrom (block : ℕ → UInt8) (pos size : ℕ) : Chars :=
  (List.range (size - pos)).map fun i => block (pos + i)

def strcat (block : ℕ → UInt8) (pos size : ℕ) (s : Chars) : ℕ → UInt8 :=
  strcpy block (pos + strlen (charsFrom block pos size)) s

def strdup (fresh : ℕ → ℕ → UInt8) (s : Chars) : Chars :=
  content (charsFrom (strcpy (fresh (strlen s + 1)) 0 s) 0 (strlen s + 1))

def join (size : ℕ) : (ℕ → UInt8) × ℕ → List Chars → (ℕ → UInt8) × ℕ
  | (block, pos), [] => (block, pos)
  | (block, pos), s :: argv => join size (strcat block pos size s, pos + strlen s) argv

def strvcat (fresh : ℕ → ℕ → UInt8) (argv : List Chars) : Chars :=
  let args := argv.take 16
  let size := args.foldl (fun length s => length + strlen s) 0 + 1
  content (charsFrom (join size (Function.update (fresh size) 0 0, 0) args).1 0 size)

/-- The buffer on the stack, with the index and the cells stored so far. -/
structure Buffer where
  cells : ℤ → UInt8
  i : ℤ
  stores : List ℤ

/-- `buffer[i--] = c`. -/
def Buffer.put (b : Buffer) (c : UInt8) : Buffer :=
  ⟨Function.update b.cells b.i c, b.i - 1, b.stores ++ [b.i]⟩

def fill (digits : Chars) (base : ℕ) : ℕ → ℕ → Buffer → Buffer
  | 0, _, b => b
  | k + 1, value, b =>
    if value = 0 then b
    else fill digits base k (value / base) (b.put (digits.getD (value % base) 0))

/-- The bytes of the buffer from index `i` on. -/
def Buffer.rest (b : Buffer) (i : ℤ) : Chars :=
  (List.range (16 - i).toNat).map fun j : ℕ => b.cells (i + j)

def signed (stack : ℤ → UInt8) (value : ℕ) (fl : Flags) : Buffer :=
  let filled := fill (digits fl.upper) (radix fl).toNat 15 value
    ⟨Function.update stack 15 0, 14, [15]⟩
  if fl.sign then filled.put 43 else filled

structure Formatted where
  text : Chars
  touched : List ℤ

def formatUint (stack : ℤ → UInt8) (fresh : ℕ → ℕ → UInt8) (value : ℕ) (fl : Flags) :
    Formatted :=
  if value = 0 then ⟨strdup fresh [48], []⟩
  else
    let buffer := signed stack value fl
    let i := buffer.i + 1
    let s := buffer.rest i
    let text :=
      if fl.alt && fl.octal then strvcat fresh [[48], s]
      else if fl.alt && fl.hex then
        strvcat fresh [if fl.upper then [48, 88] else [48, 120], s]
      else strdup fresh s
    ⟨text, buffer.stores ++ (List.range (strlen s + 1)).map fun j : ℕ => i + j⟩

def formatInt (stack : ℤ → UInt8) (fresh : ℕ → ℕ → UInt8) (value : ℤ) (fl : Flags) : Chars :=
  if value < 0 then
    strvcat fresh [[45], (formatUint stack fresh (-value % 4294967296).toNat fl).text]
  else (formatUint stack fresh value.toNat fl).text

def Starts (block : ℕ → UInt8) (s : Chars) : Prop := ∀ i < s.length, block i = s.getD i 0

theorem starts_nil (block : ℕ → UInt8) : Starts block [] :=
  fun i hi => absurd hi (Nat.not_lt_zero i)

theorem starts_snoc {block : ℕ → UInt8} {s : Chars} (h : Starts block s) (c : UInt8) :
    Starts (Function.update block s.length c) (s ++ [c]) := by
  intro i hi
  rw [List.length_append, List.length_singleton] at hi
  obtain rfl | hne := eq_or_ne i s.length
  · rw [Function.update_self, List.getD_append_right _ _ _ _ le_rfl, Nat.sub_self]
    rfl
  · rw [Function.update_of_ne hne, h i (by omega), List.getD_append _ _ _ _ (by omega)]

theorem strcpy_starts {block : ℕ → UInt8} {s : Chars} (h : Starts block s) (t : Chars) :
    Starts (strcpy block s.length t) (s ++ content t ++ [0]) := by
  induction t generalizing block s with
  | nil => simpa only [strcpy, content, List.takeWhile_nil, List.append_nil] using starts_snoc h 0
  | cons c t ih =>
    by_cases hc : c = 0
    · have he : content (c :: t) = [] := by rw [content, List.takeWhile_cons, if_neg (by simp [hc])]
      rw [strcpy, if_pos hc, he, List.append_nil]
      exact starts_snoc h 0
    · have he : content (c :: t) = c :: content t := by
        rw [content, List.takeWhile_cons, if_pos (by simp [hc])]
        rfl
      have hn := ih (starts_snoc h c)
      rw [List.length_append, List.length_singleton, List.append_assoc s] at hn
      rw [strcpy, if_neg hc, he]
      exact hn

theorem starts_zero {block : ℕ → UInt8} {s : Chars} (h : Starts block (s ++ [0])) :
    block s.length = 0 := by
  rw [h s.length (by simp), List.getD_append_right _ _ _ _ le_rfl, Nat.sub_self]
  rfl

theorem charsFrom_starts {block : ℕ → UInt8} {s : Chars} {size : ℕ}
    (h : Starts block (s ++ [0])) (h0 : 0 ∉ s) (hsize : s.length < size) :
    content (charsFrom block 0 size) = s := by
  have hs : (List.range s.length).map block = s := by
    refine List.ext_getElem (by simp) fun i hi _ => ?_
    rw [List.length_map, List.length_range] at hi
    rw [List.getElem_map, List.getElem_range, h i (by simp; omega),
      List.getD_append _ _ _ _ hi, List.getD_eq_getElem _ _ hi]
  obtain ⟨k, rfl⟩ : ∃ k, size = s.length + (k + 1) := ⟨size - s.length - 1, by omega⟩
  simp only [charsFrom, Nat.zero_add, Nat.sub_zero]
  rw [List.range_add, List.map_append, hs, List.range_succ_eq_map, List.map_cons, List.map_cons,
    Nat.add_zero, starts_zero h]
  exact content_terminated h0 _

theorem strdup_eq (fresh : ℕ → ℕ → UInt8) (s : Chars) : strdup fresh s = content s := by
  have h := strcpy_starts (starts_nil (fresh (strlen s + 1))) s
  exact charsFrom_starts h (content_no_zero s) (by rw [← strlen_eq]; omega)

theorem strcat_starts {block : ℕ → UInt8} {s : Chars} (size : ℕ) (h : Starts block (s ++ [0]))
    (t : Chars) : Starts (strcat block s.length size t) (s ++ content t ++ [0]) := by
  have hlen : strlen (charsFrom block s.length size) = 0 := by
    cases hk : size - s.length with
    | zero => simp [charsFrom, hk, strlen]
    | succ k =>
      rw [charsFrom, hk, List.range_succ_eq_map, List.map_cons, Nat.add_zero, starts_zero h]
      rfl
  rw [strcat, hlen, Nat.add_zero]
  refine strcpy_starts (fun i hi => ?_) t
  rw [h i (by rw [List.length_append]; omega), List.getD_append _ _ _ _ hi]

theorem join_starts {block : ℕ → UInt8} {s : Chars} (size : ℕ) (h : Starts block (s ++ [0]))
    (argv : List Chars) :
    Starts (join size (block, s.length) argv).1 (s ++ argv.flatMap content ++ [0]) := by
  induction argv generalizing block s with
  | nil => simpa only [join, List.flatMap_nil, List.append_nil] using h
  | cons t argv ih =>
    have hn := ih (strcat_starts size h t)
    rw [List.length_append, ← strlen_eq] at hn
    rw [join, List.flatMap_cons, ← List.append_assoc s]
    exact hn

theorem strlen_sum (argv : List Chars) (n : ℕ) :
    argv.foldl (fun length s => length + strlen s) n = n + (argv.flatMap content).length := by
  induction argv generalizing n with
  | nil => rfl
  | cons s argv ih =>
    rw [List.foldl_cons, ih, List.flatMap_cons, List.length_append, strlen_eq, Nat.add_assoc]

theorem strvcat_eq (fresh : ℕ → ℕ → UInt8) (argv : List Chars) :
    strvcat fresh argv = (argv.take 16).flatMap content := by
  have hsum := strlen_sum (argv.take 16) 0
  have hempty : ∀ size, Starts (Function.update (fresh size) 0 0) ([] ++ [0]) := fun size =>
    starts_snoc (starts_nil (fresh size)) 0
  refine charsFrom_starts (join_starts _ (hempty _) (argv.take 16)) ?_ ?_
  · rw [List.mem_flatMap]
    rintro ⟨s, -, hs⟩
    exact content_no_zero s hs
  · rw [hsum]
    omega

theorem content_of_notMem {s : Chars} (h : 0 ∉ s) : content s = s :=
  List.takeWhile_eq_self_iff.mpr fun c hc => by simpa using fun h0 : c = 0 => h (h0 ▸ hc)

theorem strvcat_pair (fresh : ℕ → ℕ → UInt8) {s : Chars} (hs : 0 ∉ s) (t : Chars) :
    strvcat fresh [s, t] = s ++ content t := by
  rw [strvcat_eq]
  simp only [List.take_succ_cons, List.take_nil, List.flatMap_cons, List.flatMap_nil,
    List.append_nil, content_of_notMem hs]

/-- The cells behind the index hold `s` and its terminator, and nothing outside the
buffer was stored. -/
structure Written (b : Buffer) (s : Chars) : Prop where
  text : ∀ j < s.length, b.cells (b.i + 1 + j) = s.getD j 0
  nul : b.cells 15 = 0
  size : b.i + 1 + s.length = 15
  stores : ∀ x ∈ b.stores, 0 ≤ x ∧ x < 16

@[simp]
theorem put_i (b : Buffer) (c : UInt8) : (b.put c).i = b.i - 1 := rfl

theorem put_cells (b : Buffer) (c : UInt8) (x : ℤ) :
    (b.put c).cells x = if x = b.i then c else b.cells x := Function.update_apply b.cells b.i c x

theorem put_stores (b : Buffer) (c : UInt8) : (b.put c).stores = b.stores ++ [b.i] := rfl

theorem written_put {b : Buffer} {s : Chars} (h : Written b s) (hi : 0 ≤ b.i) (c : UInt8) :
    Written (b.put c) (c :: s) := by
  have hsize := h.size
  refine ⟨fun j hj => ?_, ?_, ?_, fun x hx => ?_⟩
  · rw [put_cells, put_i, Int.sub_add_cancel]
    cases j with
    | zero => rw [Nat.cast_zero, Int.add_zero, if_pos rfl, List.getD_cons_zero]
    | succ j =>
      have he : b.i + ((j + 1 : ℕ) : ℤ) = b.i + 1 + j := by omega
      rw [he, if_neg (by omega), List.getD_cons_succ]
      exact h.text j (Nat.lt_of_succ_lt_succ hj)
  · rw [put_cells, if_neg (by omega)]
    exact h.nul
  · rw [List.length_cons, put_i]
    omega
  · rw [put_stores, List.mem_append, List.mem_singleton] at hx
    obtain hx | rfl := hx
    · exact h.stores x hx
    · omega

theorem fill_written (ds : Chars) {base : ℕ} (hb : 1 < base) {k value : ℕ} {b : Buffer}
    {s : Chars} (h : Written b s) (hk : (k : ℤ) ≤ b.i + 1) (h0 : 0 < value)
    (hlen : (numeral base value).length ≤ k) :
    Written (fill ds base k value b) ((numeral base value).map (ds.getD · 0) ++ s) := by
  induction k generalizing value b s with
  | zero => exact absurd (List.length_eq_zero_iff.mp (Nat.le_zero.mp hlen)) (numeral_ne_nil hb _)
  | succ k ih =>
    have hput := written_put h (by omega) (ds.getD (value % base) 0)
    rw [fill, if_neg (by omega)]
    obtain hlt | hge := Nat.lt_or_ge value base
    · -- the last digit: the next round ends the loop
      have hdone : ∀ b', fill ds base k 0 b' = b' := fun b' => by cases k <;> rfl
      rw [Nat.div_eq_of_lt hlt, hdone, numeral_of_lt hlt]
      rwa [Nat.mod_eq_of_lt hlt] at hput ⊢
    · rw [numeral_step hb hge, List.length_append, List.length_singleton] at hlen
      have hi : (k : ℤ) ≤ (b.put (ds.getD (value % base) 0)).i + 1 := by
        rw [put_i]
        omega
      have hn := ih hput hi (Nat.div_pos hge (by omega)) (by omega)
      rw [numeral_step hb hge, List.map_append, List.append_assoc]
      exact hn

theorem rest_written {b : Buffer} {s : Chars} (h : Written b s) : b.rest (b.i + 1) = s ++ [0] := by
  have hsize := h.size
  have hn : (16 - (b.i + 1)).toNat = s.length + 1 := by omega
  refine List.ext_getElem (by simp [Buffer.rest, hn]) fun j hj _ => ?_
  rw [Buffer.rest, List.length_map, List.length_range, hn] at hj
  simp only [Buffer.rest, List.getElem_map, List.getElem_range]
  obtain hlt | rfl := Nat.lt_succ_iff_lt_or_eq.mp hj
  · rw [h.text j hlt, List.getElem_append_left hlt, List.getD_eq_getElem _ _ hlt]
  · rw [hsize, h.nul, List.getElem_append_right le_rfl]
    simp

theorem digits_ne_zero (upper : Bool) : ∀ d < 16, (digits upper).getD d 0 ≠ 0 := by
  cases upper <;> decide

theorem zero_notMem_numeral (upper : Bool) (r : Radix) (value : ℕ) :
    0 ∉ numeralText upper r value := by
  intro h
  obtain ⟨d, hd, he⟩ := List.mem_map.mp h
  have hb := base_bounds r
  have hlt := digit_lt hb.1 value d hd
  exact digits_ne_zero upper d (by omega) he

/-- What `__format_uint` makes of a value: the sign stands behind the prefix. -/
def formatText (r : Radix) (fl : Flags) (value : ℕ) : Chars :=
  (if value = 0 then [] else altText r fl ++ signText fl.sign) ++ numeralText fl.upper r value

theorem zero_notMem_sign (sign : Bool) : 0 ∉ signText sign := by cases sign <;> decide

theorem signed_written (stack : ℤ → UInt8) (r : Radix) (fl : Flags) {value : ℕ}
    (hv : value < 4294967296) (h0 : 0 < value) :
    Written (signed stack value (r.set fl)) (signText fl.sign ++ numeralText fl.upper r value) := by
  have hlen := numeral_length_le (r := r) hv
  have hstart : Written ⟨Function.update stack 15 0, 14, [15]⟩ [] := by
    refine ⟨fun j hj => absurd hj (Nat.not_lt_zero j), Function.update_self 15 0 stack, rfl, ?_⟩
    intro x hx
    rw [List.mem_singleton.mp hx]
    decide
  have hfill := fill_written (digits fl.upper) (base_bounds r).1 hstart (k := 15) le_rfl h0
    (by omega)
  have hsize := hfill.size
  have hsign : (r.set fl).sign = fl.sign := by cases r <;> rfl
  rw [List.length_append, List.length_map, List.length_nil] at hsize
  rw [List.append_nil] at hfill
  simp only [signed, radix_set, Int.toNat_natCast, upper_set, hsign]
  cases fl.sign with
  | false =>
    rw [if_neg Bool.false_ne_true]
    exact hfill
  | true =>
    rw [if_pos rfl]
    exact written_put hfill (by omega) 43

theorem prefixed (fresh : ℕ → ℕ → UInt8) (r : Radix) (fl : Flags) (s : Chars) :
    (if (r.set fl).alt && (r.set fl).octal then strvcat fresh [[48], s]
      else if (r.set fl).alt && (r.set fl).hex then
        strvcat fresh [if fl.upper then [48, 88] else [48, 120], s]
      else strdup fresh s) = altText r fl ++ content s := by
  have hoct : strvcat fresh [[48], s] = [48] ++ content s := strvcat_pair fresh (by decide) s
  have hhex : strvcat fresh [if fl.upper then [48, 88] else [48, 120], s] =
      (if fl.upper then [48, 88] else [48, 120]) ++ content s :=
    strvcat_pair fresh (by cases fl.upper <;> decide) s
  rw [hoct, hhex, strdup_eq]
  cases r <;> cases ha : fl.alt <;> simp [Radix.set, altText, ha]

theorem formatUint_spec (stack : ℤ → UInt8) (fresh : ℕ → ℕ → UInt8) (r : Radix) (fl : Flags)
    {value : ℕ} (hv : value < 4294967296) :
    (formatUint stack fresh value (r.set fl)).text = formatText r fl value ∧
      ∀ x ∈ (formatUint stack fresh value (r.set fl)).touched, 0 ≤ x ∧ x < 16 := by
  by_cases h0 : value = 0
  · refine ⟨?_, fun x hx => ?_⟩
    · rw [formatUint, if_pos h0, strdup_eq, formatText, if_pos h0, h0, numeralText_zero]
      rfl
    · rw [formatUint, if_pos h0] at hx
      exact absurd hx List.not_mem_nil
  have hw := signed_written stack r fl hv (Nat.pos_of_ne_zero h0)
  have hsize := hw.size
  have hzero : 0 ∉ signText fl.sign ++ numeralText fl.upper r value := by
    rw [List.mem_append, not_or]
    exact ⟨zero_notMem_sign fl.sign, zero_notMem_numeral fl.upper r value⟩
  have hrest := rest_written hw
  have hcontent := content_terminated hzero []
  rw [formatUint, if_neg h0, formatText, if_neg h0]
  simp only [upper_set, hrest]
  refine ⟨?_, fun x hx => ?_⟩
  · rw [prefixed, hcontent, List.append_assoc]
  · rw [List.mem_append, List.mem_map] at hx
    obtain hx | ⟨j, hj, rfl⟩ := hx
    · exact hw.stores x hx
    · rw [List.mem_range, strlen_eq, hcontent] at hj
      have hlen := numeral_length_le (r := r) hv
      have hsl : (signText fl.sign).length ≤ 1 := by cases fl.sign <;> decide
      rw [List.length_append, numeralText, List.length_map] at hsize hj
      omega

theorem formatText_ne_zero (r : Radix) (fl : Flags) (value : ℕ) : 0 ∉ formatText r fl value := by
  have hs := zero_notMem_sign fl.sign
  have hn := zero_notMem_numeral fl.upper r value
  have ha : 0 ∉ altText r fl := by
    cases r <;> unfold altText <;> split_ifs <;> decide
  rw [formatText]
  split_ifs <;> simp [ha, hs, hn]

theorem negated {v : ℤ} (h : v < 0) (hv : -2147483648 ≤ v) :
    (-v % 4294967296).toNat = v.natAbs := by
  omega

theorem putint_eq (w : World) (fl : Flags) (n : ℕ) :
    putint w (i32 n) fl = (putuint w (i32 n).natAbs fl).map
      ((if i32 n < 0 then [45] else []) ++ ·) := by
  have hb := i32_bounds n
  by_cases hneg : i32 n < 0
  · rw [putint, if_pos hneg, if_pos hneg, negated hneg hb.1]
    rfl
  · have habs : (i32 n).toNat = (i32 n).natAbs := by omega
    rw [putint, if_neg hneg, if_neg hneg, habs]
    simp only [List.nil_append, Option.map_id']

theorem formatInt_eq (stack : ℤ → UInt8) (fresh : ℕ → ℕ → UInt8) (r : Radix) (fl : Flags) (n : ℕ) :
    formatInt stack fresh (i32 n) (r.set fl) =
      (if i32 n < 0 then [45] else []) ++ formatText r fl (i32 n).natAbs := by
  have hb := i32_bounds n
  have hrange : (i32 n).natAbs < 4294967296 := by omega
  have htext := (formatUint_spec stack fresh r fl hrange).1
  by_cases hneg : i32 n < 0
  · rw [formatInt, if_pos hneg, if_pos hneg, negated hneg hb.1, htext,
      strvcat_pair fresh (by decide), content_of_notMem (formatText_ne_zero r fl _)]
  · have habs : (i32 n).toNat = (i32 n).natAbs := by omega
    rw [formatInt, if_neg hneg, if_neg hneg, habs, htext, List.nil_append]

/-- A single sign and the decimal numeral of the absolute value. -/
def intText (fl : Flags) (v : ℤ) : Chars :=
  (if v < 0 then [45] else if fl.sign then [43] else []) ++ numeralText fl.upper .dec v.natAbs

theorem altText_dec (fl : Flags) : altText .dec fl = [] := by
  cases ha : fl.alt <;> simp [altText, ha]

theorem formatText_dec (fl : Flags) (value : ℕ) :
    formatText .dec fl value = putText .dec fl value := by
  rw [formatText, putText, altText_dec, List.nil_append, List.append_nil]

theorem intText_iff (fl : Flags) (v : ℤ) :
    (if v < 0 then [45] else []) ++ putText .dec fl v.natAbs = intText fl v ↔
      (fl.sign = true → 0 < v) := by
  refine ⟨fun h hs => ?_, fun h => ?_⟩
  · by_contra hpos
    have hlen := congrArg List.length h
    obtain hneg | rfl : v < 0 ∨ v = 0 := by omega
    · simp [intText, putText, altText_dec, hs, signText, hneg, hneg.ne] at hlen
    · simp [intText, putText, hs] at hlen
  · cases hs : fl.sign with
    | false => simp [intText, putText, altText_dec, hs, signText]
    | true =>
      have hpos := h hs
      simp [intText, putText, altText_dec, hs, signText, hpos.not_gt, hpos.ne']

theorem plus_notMem (upper : Bool) (r : Radix) (value : ℕ) : 43 ∉ numeralText upper r value := by
  have hplus : ∀ d < 16, (digits upper).getD d 0 ≠ 43 := by cases upper <;> decide
  intro h
  obtain ⟨d, hd, he⟩ := List.mem_map.mp h
  have hb := base_bounds r
  have hlt := digit_lt hb.1 value d hd
  exact hplus d (by omega) he

theorem plus_mem {w : World} {r : Radix} {fl : Flags} {value : ℕ} {out : Chars}
    (hs : fl.sign = true) (h0 : value ≠ 0) (h : putuint w value (r.set fl) = some out) :
    43 ∈ out := by
  obtain ⟨ds, -, rfl⟩ := putuint_digits h0 h
  rw [digitPrefix_set, hs]
  exact List.mem_cons_self

theorem putint_iff (w : World) (fl : Flags) (n : ℕ) :
    putint w (i32 n) (Radix.dec.set fl) = some (intText fl (i32 n)) ↔
      (fl.sign = true → 0 < i32 n) ∧ (i32 n).natAbs < 1410065408 := by
  have hb := i32_bounds n
  rw [putint_eq, Option.map_eq_some_iff]
  refine ⟨fun ⟨out, hout, he⟩ => ?_, fun ⟨hs, hlt⟩ => ?_⟩
  · have hpos : fl.sign = true → 0 < i32 n := by
      intro hs
      by_contra hpos
      obtain hneg | h0 : i32 n < 0 ∨ i32 n = 0 := by omega
      · rw [intText, if_pos hneg, if_pos hneg] at he
        have hmem := plus_mem hs (by omega) hout
        rw [List.append_cancel_left he] at hmem
        exact plus_notMem fl.upper .dec _ hmem
      · rw [h0] at he hout
        have ht := Option.some.inj (hout.symm.trans
          (putuint_right w fl (r := .dec) (by decide : (0 : ℤ).natAbs < Radix.dec.limit)))
        rw [ht] at he
        have h := (intText_iff fl 0).mp he hs
        omega
    rw [← (intText_iff fl (i32 n)).mpr hpos] at he
    have hlen := congrArg List.length (List.append_cancel_left he)
    exact ⟨hpos, lt_limit (by omega) hout hlen⟩
  · exact ⟨_, putuint_right w fl hlt, (intText_iff fl (i32 n)).mpr hs⟩

/-- Signed numerals: what `%d` puts, and what `__format_int` makes of the exponents and integer
parts of doubles. -/
theorem int_text_iff (w : World) (stack : ℤ → UInt8) (fresh : ℕ → ℕ → UInt8) (v : UInt32)
    (fl : Flags) :
    (putint w (i32 v.toNat) (Radix.dec.set fl) = some (intText fl (i32 v.toNat)) ↔
      (fl.sign = true → 0 < i32 v.toNat) ∧ (i32 v.toNat).natAbs < 1410065408) ∧
    (formatInt stack fresh (i32 v.toNat) (Radix.dec.set fl) = intText fl (i32 v.toNat) ↔
      (fl.sign = true → 0 < i32 v.toNat)) := by
  refine ⟨putint_iff w fl v.toNat, ?_⟩
  rw [formatInt_eq, formatText_dec]
  exact intText_iff fl (i32 v.toNat)

/-- A negative value with `FLAG_SIGN` gets two signs. -/
theorem two_signs : ∃ w stack fresh fl, ∃ v : UInt32,
    ¬(putint w (i32 v.toNat) (Radix.dec.set fl) = some (intText fl (i32 v.toNat)) ∧
      formatInt stack fresh (i32 v.toNat) (Radix.dec.set fl) = intText fl (i32 v.toNat)) := by
  refine ⟨⟨fun _ => [], fun _ _ => 0, fun _ _ _ => some []⟩, fun _ => 0, fun _ _ => 0,
    { noFlags with sign := true }, 4294967291, fun h => ?_⟩
  have hpos := (putint_iff _ _ _).mp h.1
  exact absurd (hpos.1 rfl) (by decide)

theorem text_length (r : Radix) (fl : Flags) (value : ℕ) :
    (formatText r fl value).length = (putText r fl value).length := by
  rw [formatText, putText]
  split_ifs
  · rfl
  · simp only [List.length_append]
    omega

theorem texts_agree_iff (r : Radix) (fl : Flags) {value : ℕ} (h0 : value ≠ 0) :
    putText r fl value = formatText r fl value ↔
      ¬(fl.sign = true ∧ fl.alt = true ∧ r ≠ .dec) := by
  rw [putText, formatText, if_neg h0, if_neg h0, List.append_left_inj]
  cases hs : fl.sign <;> cases ha : fl.alt <;> cases r <;> cases hu : fl.upper <;>
    simp [signText, altText, ha, hu]

theorem putuint_agrees_iff (w : World) (r : Radix) (fl : Flags) {value : ℕ}
    (hv : value < 4294967296) :
    putuint w value (r.set fl) = some (formatText r fl value) ↔
      value = 0 ∨ value < r.limit ∧ ¬(fl.sign = true ∧ fl.alt = true ∧ r ≠ .dec) := by
  by_cases h0 : value = 0
  · have ht : formatText r fl value = putText r fl value := by
      rw [formatText, putText, if_pos h0, if_pos h0]
    have hlt : value < r.limit := by
      rw [h0]
      cases r <;> decide
    rw [ht]
    exact iff_of_true (putuint_right w fl hlt) (.inl h0)
  · rw [← texts_agree_iff r fl h0]
    refine ⟨fun h => ?_, fun h => ?_⟩
    · have hlt := lt_limit hv h (text_length r fl value)
      exact .inr ⟨hlt, Option.some.inj ((putuint_right w fl hlt).symm.trans h)⟩
    · obtain ⟨hlt, he⟩ := h.resolve_left h0
      rw [← he]
      exact putuint_right w fl hlt

/-- The integer formatters agree on every value and every choice of sign, prefix, case and base
exactly as far as the loop of `stream_putuint` is right, except that the sign stands on the
other side of the prefix. -/
theorem formatters_agree_iff (w : World) (stack : ℤ → UInt8) (fresh : ℕ → ℕ → UInt8) (v : UInt32)
    (r : Radix) (fl : Flags) :
    (putuint w v.toNat (r.set fl) = some (formatUint stack fresh v.toNat (r.set fl)).text ↔
      v.toNat = 0 ∨ v.toNat < r.limit ∧ ¬(fl.sign = true ∧ fl.alt = true ∧ r ≠ .dec)) ∧
    (putint w (i32 v.toNat) (r.set fl) = some (formatInt stack fresh (i32 v.toNat) (r.set fl)) ↔
      i32 v.toNat = 0 ∨
        (i32 v.toNat).natAbs < r.limit ∧ ¬(fl.sign = true ∧ fl.alt = true ∧ r ≠ .dec)) := by
  have hv : v.toNat < 4294967296 := v.toNat_lt
  have hb := i32_bounds v.toNat
  constructor
  · rw [(formatUint_spec stack fresh r fl hv).1]
    exact putuint_agrees_iff w r fl hv
  · have hrange : (i32 v.toNat).natAbs < 4294967296 := by omega
    have hagree := putuint_agrees_iff w r fl hrange
    rw [Int.natAbs_eq_zero] at hagree
    rw [putint_eq, formatInt_eq, ← hagree, Option.map_eq_some_iff]
    refine ⟨fun ⟨out, hout, he⟩ => ?_, fun h => ⟨_, h, rfl⟩⟩
    rw [← List.append_cancel_left he]
    exact hout

/-- Two to the 28 in hexadecimal has a text in one of them. -/
theorem formatters_differ : ∃ w stack fresh fl, ∃ (r : Radix) (v : UInt32),
    ¬(putuint w v.toNat (r.set fl) = some (formatUint stack fresh v.toNat (r.set fl)).text ∧
      putint w (i32 v.toNat) (r.set fl) =
        some (formatInt stack fresh (i32 v.toNat) (r.set fl))) := by
  refine ⟨⟨fun _ => [], fun _ _ => 0, fun _ _ _ => some []⟩, fun _ => 0, fun _ _ => 0,
    noFlags, .hex, 268435456, fun h => ?_⟩
  have hnone : putuint ⟨fun _ => [], fun _ _ => 0, fun _ _ _ => some []⟩
      (268435456 : UInt32).toNat (Radix.hex.set noFlags) = none := by decide
  exact absurd (hnone.symm.trans h.1) (by simp)

end Jiauliyan.FormatUint
