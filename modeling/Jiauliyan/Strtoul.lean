import Jiauliyan.FormatUint

namespace Jiauliyan.Strtoul

open Jiauliyan.CString Jiauliyan.StringCompare Jiauliyan.Format Jiauliyan.Numeral
open Jiauliyan.PutUint Jiauliyan.FormatUint

def ULONG_MAX : ℕ := 4294967295

def ERANGE : ℕ := 2

def isspace (c : ℤ) : Bool := c = 32 || c = 12 || c = 10 || c = 13 || c = 9 || c = 11

def isdigitInt (c : ℤ) : Bool := 48 ≤ c && c ≤ 57

def isupper (c : ℤ) : Bool := 65 ≤ c && c ≤ 90

def islower (c : ℤ) : Bool := 97 ≤ c && c ≤ 122

def isalpha (c : ℤ) : Bool := isupper c || islower c

/-- The character taken last, the string behind it and the offset of that string. -/
structure Cursor where
  c : ℤ
  s : Chars
  n : ℕ

def skipSpace : Chars → ℕ → Cursor
  | [], n => ⟨0, [], n + 1⟩
  | x :: s, n => if isspace x.toNat then skipSpace s (n + 1) else ⟨x.toNat, s, n + 1⟩

/-- `c = *s++` with a signed `char`. -/
def Cursor.next (k : Cursor) : Cursor := ⟨schar (k.s.headD 0), k.s.tail, k.n + 1⟩

def readSign (k : Cursor) : Bool × Cursor :=
  if k.c = 45 then (true, k.next) else if k.c = 43 then (false, k.next) else (false, k)

def readPrefix (k : Cursor) (base : ℤ) : Cursor × ℤ :=
  if (base = 0 ∨ base = 16) ∧ k.c = 48 ∧ (k.s.headD 0 = 120 ∨ k.s.headD 0 = 88) then
    (⟨schar (k.s.getD 1 0), k.s.drop 2, k.n + 2⟩, 16)
  else (k, base)

/-- The value of a digit or letter; any other character ends the number. -/
def digitValue (c : ℤ) : Option ℤ :=
  if isdigitInt c then some (c - 48)
  else if isalpha c then some (c - if isupper c then 65 - 10 else 97 - 10)
  else none

structure Acc where
  acc : ℕ
  any : ℤ
  errno : ℕ

def Acc.add (a : Acc) (base c : ℤ) : Acc :=
  let unsigned := (base % 4294967296).toNat
  let cutoff := ULONG_MAX / unsigned
  let cutlim := i32 (ULONG_MAX % unsigned)
  if a.any < 0 then a
  else if (cutoff < a.acc ∨ a.acc = cutoff) ∧ cutlim < c then ⟨ULONG_MAX, -1, ERANGE⟩
  else ⟨(a.acc * unsigned % 4294967296 + c.toNat) % 4294967296, 1, a.errno⟩

/-- The loop over the digits, with the offset behind the character that ends it. -/
def scan (base c : ℤ) (s : Chars) (n : ℕ) (a : Acc) : Acc × ℕ :=
  match digitValue c with
  | none => (a, n)
  | some d =>
    if base ≤ d then (a, n)
    else
      match s with
      | [] => (a.add base d, n + 1)
      | x :: s => scan base x.toNat s (n + 1) (a.add base d)

/-- The value returned, the offset stored through `endptr`, and `errno`. -/
structure Number where
  value : ℕ
  endptr : ℕ
  errno : ℕ

def strtoul (nptr : Chars) (base : ℤ) (errno : ℕ) : Number :=
  let (neg, k) := readSign (skipSpace nptr 0)
  let (k, base) := readPrefix k base
  let base := if base = 0 then if k.c = 48 then 8 else 10 else base
  let (a, n) := scan base k.c k.s k.n ⟨0, 0, errno⟩
  ⟨if neg ∧ 0 < a.any then (4294967296 - a.acc) % 4294967296 else a.acc,
    if a.any ≠ 0 then n - 1 else 0, a.errno⟩

theorem digit_read (upper : Bool) : ∀ d < 16,
    digitValue (((digits upper).getD d 0).toNat : ℤ) = some (d : ℤ) := by
  cases upper <;> decide

theorem digit_plain (upper : Bool) : ∀ d < 16,
    isspace (((digits upper).getD d 0).toNat : ℤ) = false ∧
      (((digits upper).getD d 0).toNat : ℤ) ≠ 45 ∧ (((digits upper).getD d 0).toNat : ℤ) ≠ 43 ∧
      (((digits upper).getD d 0).toNat < 128) ∧
      (((digits upper).getD d 0).toNat = 48 ↔ d = 0) ∧
      (digits upper).getD d 0 ≠ 120 ∧ (digits upper).getD d 0 ≠ 88 := by
  cases upper <;> decide

theorem le_foldl {b : ℕ} (hb : 1 < b) (ds : List ℕ) (n : ℕ) :
    n ≤ ds.foldl (fun acc d => acc * b + d) n := by
  induction ds generalizing n with
  | nil => exact le_rfl
  | cons d ds ih =>
    have h : n ≤ n * b := Nat.le_mul_of_pos_right n (by omega)
    exact (by omega : n ≤ n * b + d).trans (ih (n * b + d))

theorem add_right {r : Radix} {acc d errno : ℕ} {any : ℤ} (hany : 0 ≤ any) (hd : d < r.base)
    (h : acc * r.base + d < 4294967296) :
    Acc.add ⟨acc, any, errno⟩ r.base d = ⟨acc * r.base + d, 1, errno⟩ := by
  have hbase : ((r.base : ℤ) % 4294967296).toNat = r.base := by cases r <;> rfl
  have hlim : i32 (ULONG_MAX % r.base) = (ULONG_MAX % r.base : ℕ) := by cases r <;> decide
  have hcut : ¬((ULONG_MAX / r.base < acc ∨ acc = ULONG_MAX / r.base) ∧
      i32 (ULONG_MAX % r.base) < (d : ℤ)) := by
    rw [hlim]
    rintro ⟨hc, hl⟩
    cases r <;> simp only [Radix.base, ULONG_MAX] at * <;> omega
  simp only [Acc.add, hbase]
  rw [if_neg (by omega), if_neg hcut, Nat.mod_eq_of_lt (by omega : acc * r.base < 4294967296),
    Int.toNat_natCast, Nat.mod_eq_of_lt h]

theorem scan_digits (r : Radix) (upper : Bool) (behind : Chars) {d : ℕ} {ds : List ℕ}
    (hlt : ∀ x ∈ d :: ds, x < r.base) (acc errno n : ℕ) {any : ℤ} (hany : 0 ≤ any)
    (h : (d :: ds).foldl (fun acc d => acc * r.base + d) acc < 4294967296) :
    scan r.base ((digits upper).getD d 0).toNat (ds.map ((digits upper).getD · 0) ++ 0 :: behind) n
        ⟨acc, any, errno⟩ =
      (⟨(d :: ds).foldl (fun acc d => acc * r.base + d) acc, 1, errno⟩, n + ds.length + 1) := by
  have hb := base_bounds r
  have hd : d < r.base := hlt d List.mem_cons_self
  have hread := digit_read upper d (by omega)
  rw [List.foldl_cons] at h ⊢
  have hsum := (le_foldl hb.1 ds (acc * r.base + d)).trans_lt h
  cases ds with
  | nil =>
    rw [List.map_nil, List.nil_append, scan, hread]
    simp only [if_neg (by omega : ¬(r.base : ℤ) ≤ d), add_right hany hd hsum]
    rw [scan]
    rfl
  | cons e ds =>
    have ih := scan_digits r upper behind (fun x hx => hlt x (List.mem_cons_of_mem d hx))
      (acc * r.base + d) errno (n + 1) (Int.zero_le_ofNat 1) h
    rw [List.map_cons, List.cons_append, scan, hread]
    simp only [if_neg (by omega : ¬(r.base : ℤ) ≤ d), add_right hany hd hsum]
    rw [ih, List.length_cons]
    congr 1
    omega
termination_by ds.length

theorem start_digit (upper : Bool) {d : ℕ} (hd : d < 16) (s : Chars) :
    readSign (skipSpace ((digits upper).getD d 0 :: s) 0) =
      (false, ⟨((digits upper).getD d 0).toNat, s, 1⟩) := by
  obtain ⟨hspace, hminus, hplus, -⟩ := digit_plain upper d hd
  rw [skipSpace, if_neg (by rw [hspace]; exact Bool.false_ne_true), readSign, if_neg hminus,
    if_neg hplus]

theorem readPrefix_digits (upper : Bool) (behind : Chars) {ds : List ℕ} (hds : ∀ x ∈ ds, x < 16)
    (c base : ℤ) (n : ℕ) :
    readPrefix ⟨c, ds.map ((digits upper).getD · 0) ++ 0 :: behind, n⟩ base =
      (⟨c, ds.map ((digits upper).getD · 0) ++ 0 :: behind, n⟩, base) := by
  refine if_neg ?_
  rintro ⟨-, -, hx⟩
  cases ds with
  | nil =>
    rw [List.map_nil, List.nil_append, List.headD_cons] at hx
    exact absurd hx (by decide)
  | cons e ds =>
    obtain ⟨-, -, -, -, -, h120, h88⟩ := digit_plain upper e (hds e List.mem_cons_self)
    rw [List.map_cons, List.cons_append, List.headD_cons] at hx
    exact hx.elim h120 h88

theorem strtoul_digits (r : Radix) (upper : Bool) (behind : Chars) {d : ℕ} {ds : List ℕ}
    (hlt : ∀ x ∈ d :: ds, x < r.base) (h : value r.base (d :: ds) < 4294967296) (base : ℤ)
    (hbase : base = r.base ∨ base = 0 ∧ (if d = 0 then 8 else 10) = r.base) (errno : ℕ) :
    strtoul ((d :: ds).map ((digits upper).getD · 0) ++ 0 :: behind) base errno =
      ⟨value r.base (d :: ds), ((d :: ds).map ((digits upper).getD · 0)).length, errno⟩ := by
  have hb := base_bounds r
  have hd : d < 16 := (hlt d List.mem_cons_self).trans_le hb.2
  have hds : ∀ x ∈ ds, x < 16 := fun x hx => (hlt x (List.mem_cons_of_mem d hx)).trans_le hb.2
  obtain ⟨-, -, -, -, hzero, -⟩ := digit_plain upper d hd
  have hres : (if base = 0 then if (((digits upper).getD d 0).toNat : ℤ) = 48 then 8 else 10
      else base) = (r.base : ℤ) := by
    obtain rfl | ⟨rfl, he⟩ := hbase
    · exact if_neg (by omega)
    · rw [if_pos rfl, ← he]
      have hiff : (((digits upper).getD d 0).toNat : ℤ) = 48 ↔ d = 0 := by
        rw [← hzero]
        omega
      simp only [hiff]
      split_ifs <;> rfl
  have hscan := scan_digits r upper behind hlt 0 errno 1 le_rfl h
  simp only [strtoul, List.map_cons, List.cons_append, start_digit upper hd,
    readPrefix_digits upper behind hds, hres, hscan]
  rw [if_neg (fun h => Bool.false_ne_true h.1), if_pos (by decide), Nat.add_sub_cancel,
    List.length_cons, List.length_map, Nat.add_comm 1]
  rfl

theorem strtoul_prefixed (upper : Bool) (behind : Chars) {x : UInt8} (hx : x = 120 ∨ x = 88)
    {d : ℕ} {ds : List ℕ} (hlt : ∀ y ∈ d :: ds, y < Radix.hex.base)
    (h : value 16 (d :: ds) < 4294967296) (base : ℤ) (hbase : base = 16 ∨ base = 0) (errno : ℕ) :
    strtoul (48 :: x :: (d :: ds).map ((digits upper).getD · 0) ++ 0 :: behind) base errno =
      ⟨value 16 (d :: ds), (48 :: x :: (d :: ds).map ((digits upper).getD · 0)).length,
        errno⟩ := by
  have hd : d < 16 := hlt d List.mem_cons_self
  obtain ⟨-, -, -, hsmall, -⟩ := digit_plain upper d hd
  have hstart := start_digit upper (d := 0) (by decide)
    (x :: (d :: ds).map ((digits upper).getD · 0) ++ 0 :: behind)
  have hzero : (digits upper).getD 0 0 = 48 := by cases upper <;> rfl
  have hprefix : readPrefix ⟨(48 : UInt8).toNat,
      x :: (d :: ds).map ((digits upper).getD · 0) ++ 0 :: behind, 1⟩ base =
      (⟨((digits upper).getD d 0).toNat, ds.map ((digits upper).getD · 0) ++ 0 :: behind, 3⟩,
        16) := by
    have hschar : schar ((digits upper).getD d 0) = ((digits upper).getD d 0).toNat := if_pos hsmall
    rw [readPrefix, if_pos ⟨hbase.symm, rfl, hx⟩]
    simp only [List.map_cons, List.cons_append, List.getD_cons_succ, List.getD_cons_zero, hschar]
    rfl
  have hscan := scan_digits .hex upper behind hlt 0 errno 3 le_rfl h
  have hsixteen : (if (16 : ℤ) = 0 then
      if (((digits upper).getD d 0).toNat : ℤ) = 48 then 8 else 10 else 16) =
        (Radix.hex.base : ℤ) := rfl
  rw [hzero] at hstart
  simp only [strtoul, List.cons_append] at hstart hprefix ⊢
  simp only [hstart, hprefix, hsixteen, hscan]
  rw [if_neg (fun h => Bool.false_ne_true h.1), if_pos (by decide), Nat.add_sub_cancel,
    List.length_cons, List.length_cons, List.length_map, List.length_cons, Nat.add_comm 3]
  rfl

def bases (r : Radix) (fl : Flags) : List ℤ :=
  match r with
  | .dec => [10, 0]
  | .oct => if fl.alt then [8, 0] else [8]
  | .hex => if fl.alt then [16, 0] else [16]

theorem mem_bases {r : Radix} {fl : Flags} {base : ℤ} (h : base ∈ bases r fl) :
    base = r.base ∨ base = 0 ∧ (fl.alt = true ∨ r = .dec) := by
  cases r <;> cases ha : fl.alt <;> simp [bases, ha] at h <;> simp [Radix.base, h]

theorem zero_read (r : Radix) (behind : Chars) {base : ℤ}
    (hbase : base = r.base ∨ base = 0) (errno : ℕ) :
    strtoul (48 :: 0 :: behind) base errno = ⟨0, 1, errno⟩ := by
  have hone : ∀ x ∈ [0], x < r.base := by cases r <;> decide
  have hzero : value r.base [0] = 0 := by cases r <;> rfl
  obtain rfl | rfl := hbase
  · have hread := strtoul_digits r false behind hone (by omega) r.base (.inl rfl) errno
    rwa [hzero] at hread
  · have hoct : ∀ x ∈ [0], x < Radix.oct.base := by decide
    exact strtoul_digits .oct false behind hoct (by decide) 0 (.inr ⟨rfl, rfl⟩) errno

theorem positive_read (r : Radix) (fl : Flags) (behind : Chars) {n : ℕ} (h0 : 0 < n)
    (hn : n < 4294967296) {base : ℤ}
    (hbase : base = r.base ∨ base = 0 ∧ (fl.alt = true ∨ r = .dec)) (errno : ℕ) :
    strtoul (altText r fl ++ numeralText fl.upper r n ++ 0 :: behind) base errno =
      ⟨n, (altText r fl ++ numeralText fl.upper r n).length, errno⟩ := by
  have hb := base_bounds r
  have hvalue := value_numeral hb.1 n
  have hlt := digit_lt hb.1 n
  rw [numeralText]
  cases hnum : numeral r.base n with
  | nil => exact absurd hnum (numeral_ne_nil hb.1 n)
  | cons d ds =>
    have hd : d ≠ 0 := (leading_pos h0 hnum).ne'
    rw [hnum] at hvalue hlt
    have hplain := strtoul_digits r fl.upper behind hlt (by omega) base
    rw [hvalue] at hplain
    cases r with
    | dec =>
      rw [altText_dec, List.nil_append]
      exact hplain (hbase.imp_right fun h => ⟨h.1, if_neg hd⟩) errno
    | oct =>
      cases ha : fl.alt with
      | false =>
        rw [altText, if_neg (by simp [ha]), List.nil_append]
        exact hplain (.inl (hbase.resolve_right (by simp [ha]))) errno
      | true =>
        -- the prefix is one more digit, and shows the base
        have hzero : altText .oct fl = [(digits fl.upper).getD 0 0] := by
          cases hu : fl.upper <;> simp [altText, ha, digits, digitsLower, digitsUpper]
        have hvalue' : value Radix.oct.base (0 :: d :: ds) = n := hvalue
        have hlt' : ∀ x ∈ 0 :: d :: ds, x < Radix.oct.base := by
          simpa [Radix.base] using hlt
        have hread := strtoul_digits .oct fl.upper behind hlt' (by omega) base
          (hbase.imp_right fun h => ⟨h.1, rfl⟩) errno
        rw [hzero, List.singleton_append, ← List.map_cons (f := ((digits fl.upper).getD · 0))]
        rwa [hvalue'] at hread
    | hex =>
      cases ha : fl.alt with
      | false =>
        rw [altText, if_neg (by simp [ha]), List.nil_append]
        exact hplain (.inl (hbase.resolve_right (by simp [ha]))) errno
      | true =>
        have hx : altText .hex fl = [48, if fl.upper then 88 else 120] := by
          cases hu : fl.upper <;> simp [altText, ha, hu]
        have hread := strtoul_prefixed fl.upper behind (x := if fl.upper then 88 else 120)
          (by cases fl.upper <;> simp) hlt (hvalue.trans_lt hn) base
          (hbase.imp_right And.left) errno
        rw [hx]
        exact hvalue ▸ hread

/-- Number text round trip: what `__format_uint` makes without `FLAG_SIGN` stays inside its buffer
and is read back by `strtoul`, whatever lies behind it. -/
theorem text_round_trip (stack : ℤ → UInt8) (fresh : ℕ → ℕ → UInt8) (v : UInt32) (r : Radix)
    (fl : Flags) (behind : Chars) (errno : ℕ) :
    let f := formatUint stack fresh v.toNat (r.set { fl with sign := false })
    (∀ x ∈ f.touched, 0 ≤ x ∧ x < 16) ∧ ∀ base ∈ bases r fl,
      strtoul (f.text ++ 0 :: behind) base errno = ⟨v.toNat, f.text.length, errno⟩ := by
  have hv : v.toNat < 4294967296 := v.toNat_lt
  obtain ⟨htext, htouched⟩ := formatUint_spec stack fresh r { fl with sign := false } hv
  refine ⟨htouched, fun base hmem => ?_⟩
  have hbase := mem_bases hmem
  rw [htext, formatText]
  by_cases h0 : v.toNat = 0
  · rw [if_pos h0, List.nil_append, h0, numeralText_zero]
    exact zero_read r behind (hbase.imp_right And.left) errno
  · have hread := positive_read r fl behind (Nat.pos_of_ne_zero h0) hv hbase errno
    rw [if_neg h0, signText, if_neg Bool.false_ne_true, List.append_nil]
    exact hread

end Jiauliyan.Strtoul
