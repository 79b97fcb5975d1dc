import Jiauliyan.Strtoul

namespace Jiauliyan.StrtoulRange

open Jiauliyan.Memory Jiauliyan.CString Jiauliyan.StringCompare Jiauliyan.Numeral
open Jiauliyan.Strtoul

def digitOf (c : UInt8) : Option ℕ :=
  if 48 ≤ c.toNat ∧ c.toNat ≤ 57 then some (c.toNat - 48)
  else if 65 ≤ c.toNat ∧ c.toNat ≤ 90 then some (c.toNat - 55)
  else if 97 ≤ c.toNat ∧ c.toNat ≤ 122 then some (c.toNat - 87)
  else none

def digitsOf (base : ℕ) : Chars → List ℕ
  | [] => []
  | c :: s =>
    match digitOf c with
    | none => []
    | some d => if d < base then d :: digitsOf base s else []

/-- The sign, the base, the offset of the first digit and the digits of a string. -/
structure Reading where
  neg : Bool
  base : ℕ
  start : ℕ
  digits : List ℕ

def unspaced (s : Chars) : Chars := s.dropWhile fun c => isspace c.toNat

def unsigned (t : Chars) : Chars :=
  if t.head? = some 45 ∨ t.head? = some 43 then t.tail else t

def Prefixed (base : ℕ) (u : Chars) : Prop :=
  (base = 0 ∨ base = 16) ∧ (u.take 2 = [48, 120] ∨ u.take 2 = [48, 88])

instance (base : ℕ) (u : Chars) : Decidable (Prefixed base u) :=
  inferInstanceAs
    (Decidable ((base = 0 ∨ base = 16) ∧ (u.take 2 = [48, 120] ∨ u.take 2 = [48, 88])))

def guess (base : ℕ) (u : Chars) : ℕ :=
  if base = 0 then if u.head? = some 48 then 8 else 10 else base

def reading (s : Chars) (base : ℕ) : Reading :=
  let t := unspaced s
  let u := unsigned t
  if Prefixed base u then
    ⟨t.head? = some 45, 16, s.length - (u.drop 2).length, digitsOf 16 (u.drop 2)⟩
  else ⟨t.head? = some 45, guess base u, s.length - u.length, digitsOf (guess base u) u⟩

/-- The number that a string denotes. -/
def Reading.number (r : Reading) : ℕ := value r.base r.digits

/-- The value returned, `errno` where the number is out of range, and the end pointer. -/
structure Converts (s behind : Chars) (base errno : ℕ) : Prop where
  within : (reading s base).number ≤ ULONG_MAX →
    (strtoul (s ++ 0 :: behind) base errno).value =
      if (reading s base).neg then (4294967296 - (reading s base).number) % 4294967296
      else (reading s base).number
  beyond : ULONG_MAX < (reading s base).number →
    (strtoul (s ++ 0 :: behind) base errno).value = ULONG_MAX ∧
      (strtoul (s ++ 0 :: behind) base errno).errno = ERANGE
  endptr : (strtoul (s ++ 0 :: behind) base errno).endptr =
    if (reading s base).digits = [] then 0
    else (reading s base).start + (reading s base).digits.length

/-- Some digit is above `ULONG_MAX % base`, and the digits before it make a number that is at
least `ULONG_MAX / base`, modulo 2^32. -/
def Noticed (base : ℕ) (ds : List ℕ) : Prop :=
  ∃ before d after, ds = before ++ d :: after ∧ ULONG_MAX % base < d ∧
    ULONG_MAX / base ≤ value base before % 4294967296

variable {base : ℕ}

theorem noticed_snoc (ds : List ℕ) (d : ℕ) :
    Noticed base (ds ++ [d]) ↔ Noticed base ds ∨
      ULONG_MAX % base < d ∧ ULONG_MAX / base ≤ value base ds % 4294967296 := by
  constructor
  · rintro ⟨before, e, after, heq, hd, hv⟩
    obtain rfl | ⟨after', x, rfl⟩ := after.eq_nil_or_concat'
    · obtain ⟨rfl, he⟩ := List.append_inj' heq rfl
      obtain rfl := List.head_eq_of_cons_eq he
      exact .inr ⟨hd, hv⟩
    · rw [← List.cons_append, ← List.append_assoc] at heq
      obtain ⟨rfl, -⟩ := List.append_inj' heq rfl
      exact .inl ⟨before, e, after', rfl, hd, hv⟩
  · rintro (⟨before, e, after, rfl, hd, hv⟩ | ⟨hd, hv⟩)
    · exact ⟨before, e, after ++ [d], by simp, hd, hv⟩
    · exact ⟨ds, d, [], rfl, hd, hv⟩

theorem base_word (hb : base ≤ 36) : ((base : ℤ) % 4294967296).toNat = base := by omega

theorem cutlim_eq (h2 : 2 ≤ base) (hb : base ≤ 36) :
    i32 (ULONG_MAX % base) = (ULONG_MAX % base : ℕ) := by
  have hlt : ULONG_MAX % base < base := Nat.mod_lt _ (by omega)
  exact FormatHeap.i32_nonneg (by omega)

def addAll (base errno : ℕ) (ds : List ℕ) : Acc :=
  ds.foldl (fun a (d : ℕ) => a.add base d) ⟨0, 0, errno⟩

theorem addAll_snoc (base errno : ℕ) (ds : List ℕ) (d : ℕ) :
    addAll base errno (ds ++ [d]) = (addAll base errno ds).add base d := by
  rw [addAll, List.foldl_append]
  rfl

theorem addAll_spec (h2 : 2 ≤ base) (hb : base ≤ 36) (errno : ℕ) (ds : List ℕ) :
    (Noticed base ds → addAll base errno ds = ⟨ULONG_MAX, -1, ERANGE⟩) ∧
      (¬Noticed base ds → addAll base errno ds =
        ⟨value base ds % 4294967296, if ds = [] then 0 else 1, errno⟩) := by
  induction ds using List.reverseRecOn with
  | nil =>
    refine ⟨?_, fun _ => rfl⟩
    rintro ⟨before, d, after, heq, -⟩
    exact absurd heq (by simp)
  | append_singleton ds d ih =>
    rw [noticed_snoc, addAll_snoc]
    by_cases hn : Noticed base ds
    · rw [ih.1 hn]
      have hkeep : Acc.add ⟨ULONG_MAX, -1, ERANGE⟩ base d = ⟨ULONG_MAX, -1, ERANGE⟩ := by
        simp only [Acc.add]
        exact if_pos (by decide)
      exact ⟨fun _ => hkeep, fun h => absurd (.inl hn) h⟩
    · have hany : ¬(if ds = [] then (0 : ℤ) else 1) < 0 := by split_ifs <;> decide
      have htest : ((ULONG_MAX / base < value base ds % 4294967296 ∨
          value base ds % 4294967296 = ULONG_MAX / base) ∧ i32 (ULONG_MAX % base) < (d : ℤ)) ↔
          ULONG_MAX % base < d ∧ ULONG_MAX / base ≤ value base ds % 4294967296 := by
        rw [cutlim_eq h2 hb]
        omega
      rw [ih.2 hn]
      simp only [Acc.add, base_word hb, if_neg hany, htest, or_iff_right hn]
      refine ⟨fun h => if_pos h, fun h => ?_⟩
      rw [if_neg h, value_append, Int.toNat_natCast]
      congr 1
      · simp [Nat.add_mod, Nat.mul_mod]
      · simp

theorem not_noticed (h2 : 2 ≤ base) {ds : List ℕ} (h : value base ds ≤ ULONG_MAX) :
    ¬Noticed base ds := by
  induction ds using List.reverseRecOn with
  | nil =>
    rintro ⟨before, d, after, heq, -⟩
    exact absurd heq (by simp)
  | append_singleton ds d ih =>
    rw [value_append] at h
    have hle : value base ds ≤ value base ds * base := Nat.le_mul_of_pos_right _ (by omega)
    rw [noticed_snoc, not_or]
    refine ⟨ih (by omega), fun ⟨hd, hv⟩ => ?_⟩
    rw [Nat.mod_eq_of_lt (by unfold ULONG_MAX at h; omega)] at hv
    have hmul : ULONG_MAX / base * base ≤ value base ds * base := Nat.mul_le_mul_right _ hv
    have hdiv := Nat.div_add_mod' ULONG_MAX base
    omega

structure At (k : Cursor) (w : Chars) (n : ℕ) : Prop where
  c : k.c = (w.headD 0).toNat ∨ k.c = schar (w.headD 0)
  s : k.s = w.tail
  n : k.n = n + 1

variable {k : Cursor} {w : Chars} {n : ℕ}

theorem At.next (h : At k w n) : At k.next w.tail (n + 1) := by
  refine ⟨.inr ?_, ?_, ?_⟩
  · rw [Cursor.next, h.s]
  · rw [Cursor.next, h.s]
  · rw [Cursor.next, h.n]

theorem At.eq_iff (h : At k w n) {v : UInt8} (hv : v < 128) : k.c = v.toNat ↔ w.headD 0 = v := by
  have hlow := UInt8.lt_iff_toNat_lt.mp hv
  have h128 : (128 : UInt8).toNat = 128 := rfl
  have hinj : w.headD 0 = v ↔ (w.headD 0).toNat = v.toNat := UInt8.toNat_inj.symm
  have hx := (w.headD 0).toNat_lt
  rw [hinj]
  obtain hc | hc := h.c
  · rw [hc]
    omega
  · rw [hc, schar]
    split_ifs <;> omega

theorem skipSpace_at (s behind : Chars) (n : ℕ) :
    At (skipSpace (s ++ 0 :: behind) n) (unspaced s ++ 0 :: behind)
      (n + (s.length - (unspaced s).length)) := by
  induction s generalizing n with
  | nil => exact ⟨.inl rfl, rfl, rfl⟩
  | cons c s ih =>
    rw [List.cons_append, skipSpace]
    by_cases hc : isspace (c.toNat : ℤ) = true
    · have hdrop : unspaced (c :: s) = unspaced s := List.dropWhile_cons_of_pos hc
      have hle : (unspaced s).length ≤ s.length := (List.dropWhile_suffix _).length_le
      have hn := ih (n + 1)
      rw [if_pos hc, hdrop, List.length_cons]
      rwa [show n + 1 + (s.length - (unspaced s).length) =
        n + (s.length + 1 - (unspaced s).length) by omega] at hn
    · have hdrop : unspaced (c :: s) = c :: s := List.dropWhile_cons_of_neg hc
      rw [if_neg hc, hdrop, Nat.sub_self]
      exact ⟨.inl rfl, rfl, rfl⟩

theorem headD_append (t behind : Chars) (x : UInt8) (hx : x ≠ 0) :
    (t ++ 0 :: behind).headD 0 = x ↔ t.head? = some x := by
  cases t with
  | nil => simp [eq_comm, hx]
  | cons c t => simp

theorem readSign_at {t behind : Chars} (h : At k (t ++ 0 :: behind) n) :
    (readSign k).1 = decide (t.head? = some 45) ∧
      At (readSign k).2 (unsigned t ++ 0 :: behind) (n + (t.length - (unsigned t).length)) := by
  have hminus : k.c = 45 ↔ t.head? = some 45 := by
    rw [← headD_append t behind 45 (by decide)]
    exact h.eq_iff (v := 45) (by decide)
  have hplus : k.c = 43 ↔ t.head? = some 43 := by
    rw [← headD_append t behind 43 (by decide)]
    exact h.eq_iff (v := 43) (by decide)
  have hnext : ∀ x, t.head? = some x → At k.next (t.tail ++ 0 :: behind) (n + 1) := by
    intro x hx
    cases t with
    | nil => cases hx
    | cons c t => exact h.next
  have hlen : ∀ x, t.head? = some x → t.length - t.tail.length = 1 := by
    intro x hx
    cases t with
    | nil => cases hx
    | cons c t => simp
  rw [readSign, unsigned]
  by_cases hm : t.head? = some 45
  · rw [if_pos (hminus.mpr hm), if_pos (.inl hm), hlen _ hm]
    exact ⟨by simp [hm], hnext _ hm⟩
  · rw [if_neg fun hc => hm (hminus.mp hc)]
    by_cases hp : t.head? = some 43
    · rw [if_pos (hplus.mpr hp), if_pos (.inr hp), hlen _ hp]
      exact ⟨by simp [hm], hnext _ hp⟩
    · rw [if_neg fun hc => hp (hplus.mp hc), if_neg (not_or.mpr ⟨hm, hp⟩), Nat.sub_self]
      exact ⟨by simp [hm], h⟩

theorem take_two {u : Chars} (behind : Chars) {x : UInt8} (hx : x ≠ 0) :
    (u ++ 0 :: behind).headD 0 = 48 ∧ (u ++ 0 :: behind).tail.headD 0 = x ↔
      u.take 2 = [48, x] := by
  cases u with
  | nil => simp
  | cons c u =>
    cases u with
    | nil => simp [eq_comm, hx]
    | cons d u => simp

theorem readPrefix_at {u behind : Chars} (h : At k (u ++ 0 :: behind) n) (base : ℕ) :
    if Prefixed base u then
      (readPrefix k base).2 = 16 ∧
        At (readPrefix k base).1 (u.drop 2 ++ 0 :: behind) (n + (u.length - (u.drop 2).length))
    else readPrefix k base = (k, (base : ℤ)) := by
  have hzero : k.c = 48 ↔ (u ++ 0 :: behind).headD 0 = 48 := h.eq_iff (v := 48) (by decide)
  have htest : ((base : ℤ) = 0 ∨ (base : ℤ) = 16) ∧ k.c = 48 ∧
      (k.s.headD 0 = 120 ∨ k.s.headD 0 = 88) ↔ Prefixed base u := by
    rw [Prefixed, ← take_two behind (by decide : (120 : UInt8) ≠ 0),
      ← take_two behind (by decide : (88 : UInt8) ≠ 0), hzero, h.s, ← and_or_left]
    exact and_congr_left fun _ => by omega
  rw [readPrefix]
  by_cases hp : Prefixed base u
  · rw [if_pos hp, if_pos (htest.mpr hp)]
    obtain ⟨-, hp⟩ := hp
    cases u with
    | nil => simp at hp
    | cons c u =>
      cases u with
      | nil => simp at hp
      | cons d u =>
        have hs : k.s = d :: (u ++ 0 :: behind) := h.s
        refine ⟨rfl, .inr ?_, ?_, ?_⟩
        · rw [hs]
          cases u <;> rfl
        · rw [hs]
          cases u <;> rfl
        · rw [h.n]
          simp
          omega
  · rw [if_neg hp, if_neg fun hc => hp (htest.mp hc)]

theorem digitValue_ranges (c : ℤ) :
    digitValue c =
      if 48 ≤ c ∧ c ≤ 57 then some (c - 48)
      else if 65 ≤ c ∧ c ≤ 90 then some (c - 55)
      else if 97 ≤ c ∧ c ≤ 122 then some (c - 87)
      else none := by
  simp only [digitValue, isdigitInt, isalpha, isupper, islower, Bool.and_eq_true, Bool.or_eq_true,
    decide_eq_true_eq]
  split_ifs <;> first | rfl | omega

theorem digitValue_eq (x : UInt8) :
    digitValue x.toNat = (digitOf x).map Int.ofNat ∧
      digitValue (schar x) = (digitOf x).map Int.ofNat := by
  have hx := x.toNat_lt
  rw [digitValue_ranges, digitValue_ranges, digitOf, schar]
  constructor <;> split_ifs
  all_goals
    first
    | omega
    | rfl
    | (rw [Option.map_some, Int.ofNat_eq_natCast]; congr 1; omega)

theorem At.digit (h : At k w n) : digitValue k.c = (digitOf (w.headD 0)).map Int.ofNat := by
  obtain hc | hc := h.c
  · rw [hc, (digitValue_eq _).1]
  · rw [hc, (digitValue_eq _).2]

theorem scan_at {u behind : Chars} (h : At k (u ++ 0 :: behind) n) (base : ℕ) (a : Acc) :
    scan base k.c k.s k.n a =
      ((digitsOf base u).foldl (fun a (d : ℕ) => a.add base d) a,
        n + (digitsOf base u).length + 1) := by
  induction u generalizing k n a with
  | nil =>
    have hend : digitValue k.c = none := h.digit
    unfold scan
    simp only [hend, h.n]
    rfl
  | cons c u ih =>
    have hs : k.s = u ++ 0 :: behind := h.s
    have hread : digitValue k.c = (digitOf c).map Int.ofNat := h.digit
    cases hd : digitOf c with
    | none =>
      rw [hd, Option.map_none] at hread
      unfold scan
      simp only [hread, digitsOf, hd, h.n]
      rfl
    | some d =>
      rw [hd, Option.map_some] at hread
      by_cases hlt : d < base
      · have hge : ¬(base : ℤ) ≤ Int.ofNat d := by
          simp only [Int.ofNat_eq_natCast]
          omega
        obtain ⟨x, t, ht⟩ : ∃ x t, u ++ 0 :: behind = x :: t := by
          cases u with
          | nil => exact ⟨_, _, rfl⟩
          | cons y u => exact ⟨_, _, rfl⟩
        have hnext : At ⟨x.toNat, t, n + 2⟩ (u ++ 0 :: behind) (n + 1) := by
          rw [ht]
          exact ⟨.inl rfl, rfl, rfl⟩
        have hrec := ih hnext (a.add base d)
        rw [hs, ht, scan]
        simp only [hread, if_neg hge, digitsOf, hd, if_pos hlt, h.n]
        rw [List.foldl_cons, List.length_cons]
        exact hrec.trans (by rw [Nat.add_assoc n 1, Nat.add_comm 1])
      · have hge : (base : ℤ) ≤ Int.ofNat d := by
          simp only [Int.ofNat_eq_natCast]
          omega
        unfold scan
        simp only [hread, if_pos hge, digitsOf, hd, if_neg hlt, h.n]
        rfl

theorem guess_eq {u behind : Chars} (h : At k (u ++ 0 :: behind) n) (base : ℕ) :
    (if (base : ℤ) = 0 then if k.c = 48 then 8 else 10 else (base : ℤ)) = (guess base u : ℤ) := by
  have hzero : k.c = 48 ↔ u.head? = some 48 := by
    rw [← headD_append u behind 48 (by decide)]
    exact h.eq_iff (v := 48) (by decide)
  rw [guess]
  by_cases hb : base = 0
  · rw [if_pos hb, if_pos (Int.natCast_eq_zero.mpr hb)]
    by_cases hu : u.head? = some 48
    · rw [if_pos hu, if_pos (hzero.mpr hu)]
      rfl
    · rw [if_neg hu, if_neg fun h0 => hu (hzero.mp h0)]
      rfl
  · rw [if_neg hb, if_neg fun h0 => hb (Int.natCast_eq_zero.mp h0)]

theorem unsigned_le (t : Chars) : (unsigned t).length ≤ t.length := by
  rw [unsigned]
  split_ifs
  · rw [List.length_tail]
    omega
  · exact le_rfl

theorem digits_at (s behind : Chars) (base : ℕ) :
    ∃ u, digitsOf (reading s base).base u = (reading s base).digits ∧
      (readSign (skipSpace (s ++ 0 :: behind) 0)).1 = (reading s base).neg ∧
      let p := readPrefix (readSign (skipSpace (s ++ 0 :: behind) 0)).2 base
      At p.1 (u ++ 0 :: behind) (reading s base).start ∧
        (if p.2 = 0 then if p.1.c = 48 then 8 else 10 else p.2) = ((reading s base).base : ℤ) := by
  obtain ⟨hneg, hsign⟩ := readSign_at (skipSpace_at s behind 0)
  have hfront := readPrefix_at hsign base
  have hspaced : (unspaced s).length ≤ s.length := (List.dropWhile_suffix _).length_le
  have hsigned := unsigned_le (unspaced s)
  by_cases hp : Prefixed base (unsigned (unspaced s))
  · have hread : reading s base = ⟨(unspaced s).head? = some 45, 16,
        s.length - ((unsigned (unspaced s)).drop 2).length,
        digitsOf 16 ((unsigned (unspaced s)).drop 2)⟩ := if_pos hp
    rw [if_pos hp] at hfront
    obtain ⟨hbase, hat⟩ := hfront
    have hdrop : ((unsigned (unspaced s)).drop 2).length ≤ (unsigned (unspaced s)).length := by
      simp
    refine ⟨(unsigned (unspaced s)).drop 2, by rw [hread], by rw [hread, hneg], ?_⟩
    have hstart : 0 + (s.length - (unspaced s).length) +
        ((unspaced s).length - (unsigned (unspaced s)).length) +
        ((unsigned (unspaced s)).length - ((unsigned (unspaced s)).drop 2).length) =
        s.length - ((unsigned (unspaced s)).drop 2).length := by omega
    rw [hstart] at hat
    rw [hread]
    refine ⟨hat, ?_⟩
    rw [hbase]
    rfl
  · have hread : reading s base = ⟨(unspaced s).head? = some 45, guess base (unsigned (unspaced s)),
        s.length - (unsigned (unspaced s)).length,
        digitsOf (guess base (unsigned (unspaced s))) (unsigned (unspaced s))⟩ := if_neg hp
    rw [if_neg hp] at hfront
    have hstart : 0 + (s.length - (unspaced s).length) +
        ((unspaced s).length - (unsigned (unspaced s)).length) =
        s.length - (unsigned (unspaced s)).length := by omega
    rw [hstart] at hsign
    refine ⟨unsigned (unspaced s), by rw [hread], by rw [hread, hneg], ?_⟩
    rw [hread, hfront]
    exact ⟨hsign, guess_eq hsign base⟩

theorem strtoul_reading (s behind : Chars) (base errno : ℕ) :
    strtoul (s ++ 0 :: behind) base errno =
      let r := reading s base
      let a := addAll r.base errno r.digits
      ⟨if r.neg = true ∧ 0 < a.any then (4294967296 - a.acc) % 4294967296 else a.acc,
        if a.any ≠ 0 then r.start + r.digits.length else 0, a.errno⟩ := by
  obtain ⟨u, hdigits, hneg, hat, hbase⟩ := digits_at s behind base
  have hscan := scan_at hat (reading s base).base ⟨0, 0, errno⟩
  rw [hdigits] at hscan
  simp only [strtoul, hneg, hbase, hscan, addAll, Nat.add_sub_cancel]
  rfl

theorem reading_base {base : ℕ} (h : base = 0 ∨ 2 ≤ base ∧ base ≤ 36) (s : Chars) :
    2 ≤ (reading s base).base ∧ (reading s base).base ≤ 36 := by
  rw [reading]
  have h16 : 2 ≤ 16 ∧ 16 ≤ 36 := by decide
  split_ifs
  · exact h16
  · simp only [guess]
    split_ifs <;> omega

/-- A number out of range saturates, and its digits are all taken, exactly if some digit is
noticed. -/
theorem strtoul_saturates_iff (s behind : Chars) {base : ℕ}
    (h : base = 0 ∨ 2 ≤ base ∧ base ≤ 36) :
    (∀ errno, Converts s behind base errno) ↔
      ((reading s base).number ≤ ULONG_MAX ∨
        Noticed (reading s base).base (reading s base).digits) := by
  obtain ⟨h2, h36⟩ := reading_base h s
  constructor
  · intro hall
    by_contra hnot
    obtain ⟨hbig, hn⟩ := not_or.mp hnot
    have herr := ((hall 0).beyond (by omega)).2
    rw [strtoul_reading] at herr
    simp only [(addAll_spec h2 h36 0 _).2 hn] at herr
    exact absurd herr (by decide)
  · intro hcond errno
    have hspec := addAll_spec h2 h36 errno (reading s base).digits
    have hread := strtoul_reading s behind base errno
    by_cases hn : Noticed (reading s base).base (reading s base).digits
    · have hbig : ¬(reading s base).number ≤ ULONG_MAX := fun hle => not_noticed h2 hle hn
      have hne : (reading s base).digits ≠ [] := by
        rintro hnil
        obtain ⟨before, d, after, heq, -⟩ := hn
        rw [hnil] at heq
        exact absurd heq (by simp)
      simp only [hspec.1 hn] at hread
      refine ⟨fun hle => absurd hle hbig, fun _ => ?_, ?_⟩
      · rw [hread]
        exact ⟨if_neg fun hc => absurd hc.2 (by decide), rfl⟩
      · simp [hread, hne]
    · have hle := hcond.resolve_right hn
      have hlt : (reading s base).number < 4294967296 := Nat.lt_succ_of_le hle
      have hmod : value (reading s base).base (reading s base).digits % 4294967296 =
          (reading s base).number := Nat.mod_eq_of_lt hlt
      simp only [hspec.2 hn, hmod] at hread
      refine ⟨fun _ => ?_, fun hbig => absurd hle (by omega), ?_⟩
      · rw [hread]
        by_cases hnil : (reading s base).digits = []
        · have hzero : (reading s base).number = 0 := by
            rw [Reading.number, hnil]
            rfl
          simp [hnil, hzero]
        · simp [hnil]
      · rw [hread]
        by_cases hnil : (reading s base).digits = []
        · simp [hnil]
        · simp [hnil]

theorem strtoul_hex_converts : Converts [45, 48, 120, 102, 102] [] 0 0 :=
  (strtoul_saturates_iff [45, 48, 120, 102, 102] [] (.inl rfl)).mpr (.inl (by decide)) 0

/-- 0x100000000 is read as 0. -/
theorem strtoul_wraps :
    ¬Converts [48, 120, 49, 48, 48, 48, 48, 48, 48, 48, 48] [] 16 0 := by
  intro h
  have hv := (h.beyond (by decide)).1
  rw [strtoul_reading] at hv
  exact absurd hv (by decide)

end Jiauliyan.StrtoulRange
