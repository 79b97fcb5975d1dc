import Jiauliyan.Runs
import Jiauliyan.Stdio

namespace Jiauliyan.StringSearch

open Jiauliyan.CString Jiauliyan.StringCompare Jiauliyan.Stdio Jiauliyan.Runs

/-- A string without its terminator. -/
structure Terminated where
  chars : Chars
  no_nul : 0 ∉ chars

/-- All bytes that may be read through a pointer to the string. -/
def Terminated.bytes (s : Terminated) : Chars := s.chars ++ [0]

-- A pointer is an offset. A function yields nothing where it reads behind the bytes that it is
-- given.
def stops (s : Chars) (c : ℤ) (n p : ℕ) : Option Bool :=
  if n ≤ p then some true else s[p]?.map fun b => decide ((b.toNat : ℤ) = c)

theorem stops_lt {s : Chars} {c : ℤ} {n p : ℕ} (h : stops s c n p = some false) : p < n := by
  by_contra hle
  rw [stops, if_pos (not_lt.mp hle)] at h
  cases h

/-- The loop of `memchr` from `p` on, four tests a round. -/
def memchrFrom (s : Chars) (c : ℤ) (n p : ℕ) : Option ℕ :=
  match _h : stops s c n p with
  | none => none
  | some true => some p
  | some false =>
    match stops s c n (p + 1) with
    | none => none
    | some true => some (p + 1)
    | some false =>
      match stops s c n (p + 2) with
      | none => none
      | some true => some (p + 2)
      | some false =>
        match stops s c n (p + 3) with
        | none => none
        | some true => some (p + 3)
        | some false => memchrFrom s c n (p + 4)
termination_by n - p
decreasing_by
  have hlt := stops_lt ‹stops s c n p = some false›
  omega

def memchr (s : Chars) (c : ℤ) (n : ℕ) : Option (Option ℕ) :=
  (memchrFrom s c n 0).map fun p => if n ≤ p then none else some p

def strchrFrom (ch : ℤ) : Chars → ℕ → Option (Option ℕ)
  | [], _ => none
  | b :: p, k =>
    if schar b = ch then some (some k) else if b = 0 then some none else strchrFrom ch p (k + 1)

def strchr (p : Chars) (ch : ℤ) : Option (Option ℕ) := strchrFrom ch p 0

def strrchrFrom (ch : ℤ) : Chars → ℕ → Option ℕ → Option (Option ℕ)
  | [], _, _ => none
  | b :: p, k, save =>
    let save := if schar b = ch then some k else save
    if b = 0 then some save else strrchrFrom ch p (k + 1) save

def strrchr (p : Chars) (ch : ℤ) : Option (Option ℕ) := strrchrFrom ch p 0 none

/-- The inner loop of `strspn`, `strpbrk` and `strtok_r`: whether `c` is in the string. -/
def found (c : UInt8) : Chars → Option Bool
  | [] => none
  | sc :: spanp => if sc = 0 then some false else if sc = c then some true else found c spanp

/-- The inner loop of `strcspn` and `strtok_r`, which stops at the terminator too. -/
def foundNul (c : UInt8) : Chars → Option Bool
  | [] => none
  | sc :: spanp => if sc = c then some true else if sc = 0 then some false else foundNul c spanp

def strspnFrom (s2 : Chars) : Chars → ℕ → Option ℕ
  | [], _ => none
  | c :: p, k => (found c s2).bind fun b => if b then strspnFrom s2 p (k + 1) else some k

def strspn (s1 s2 : Chars) : Option ℕ := strspnFrom s2 s1 0

def strcspnFrom (s2 : Chars) : Chars → ℕ → Option ℕ
  | [], _ => none
  | c :: p, k => (foundNul c s2).bind fun b => if b then some k else strcspnFrom s2 p (k + 1)

def strcspn (s1 s2 : Chars) : Option ℕ := strcspnFrom s2 s1 0

def strpbrkFrom (s2 : Chars) : Chars → ℕ → Option (Option ℕ)
  | [], _ => none
  | c :: s1, k =>
    if c = 0 then some none
    else (found c s2).bind fun b => if b then some (some k) else strpbrkFrom s2 s1 (k + 1)

def strpbrk (s1 s2 : Chars) : Option (Option ℕ) := strpbrkFrom s2 s1 0

def First (l : Chars) (b : UInt8) (k : ℕ) : Prop := l[k]? = some b ∧ ∀ j < k, l[j]? ≠ some b

def Last (l : Chars) (b : UInt8) (k : ℕ) : Prop := l[k]? = some b ∧ ∀ j, k < j → l[j]? ≠ some b

/-- A search reads inside its bytes and returns the place of `b`, or `NULL` if there is none. -/
def Finds (Place : Chars → UInt8 → ℕ → Prop) (l : Chars) (b : UInt8) (r : Option (Option ℕ)) :
    Prop :=
  ∃ q, r = some q ∧ (∀ k, q = some k ↔ Place l b k) ∧ (q = none ↔ b ∉ l)

def lastIdx (P : UInt8 → Bool) : Chars → Option ℕ
  | [] => none
  | b :: l =>
    match lastIdx P l with
    | some k => some (k + 1)
    | none => if P b then some 0 else none

variable {l : Chars} {b : UInt8} {c ch : ℤ}

theorem beq_false_iff (l : Chars) (b : UInt8) : (∀ x ∈ l, (x == b) = false) ↔ b ∉ l := by
  constructor
  · intro hall hmem
    have hb := hall b hmem
    rw [beq_self_eq_true] at hb
    cases hb
  · intro hmem x hx
    rw [beq_eq_false_iff_ne]
    rintro rfl
    exact hmem hx

theorem findIdx_first (l : Chars) (b : UInt8) :
    Finds First l b (some (l.findIdx? fun x => x == b)) := by
  refine ⟨_, rfl, fun k => ?_, ?_⟩
  · rw [List.findIdx?_eq_some_iff_getElem]
    constructor
    · rintro ⟨hk, hb, hlow⟩
      refine ⟨by rw [List.getElem?_eq_getElem hk, beq_iff_eq.mp hb], fun j hj => ?_⟩
      rw [List.getElem?_eq_getElem (hj.trans hk)]
      intro heq
      exact hlow j hj (beq_iff_eq.mpr (Option.some.inj heq))
    · rintro ⟨hb, hlow⟩
      obtain ⟨hk, hb⟩ := List.getElem?_eq_some_iff.mp hb
      refine ⟨hk, beq_iff_eq.mpr hb, fun j hj => ?_⟩
      intro heq
      apply hlow j hj
      rw [List.getElem?_eq_getElem (hj.trans hk), beq_iff_eq.mp heq]
  · rw [List.findIdx?_eq_none_iff]
    exact beq_false_iff l b

theorem lastIdx_none {P : UInt8 → Bool} : lastIdx P l = none ↔ ∀ x ∈ l, P x = false := by
  induction l with
  | nil => exact iff_of_true rfl fun x hx => absurd hx List.not_mem_nil
  | cons b l ih =>
    rw [List.forall_mem_cons, ← ih, lastIdx]
    cases lastIdx P l with
    | some k => simp
    | none => simp

theorem lastIdx_some {P : UInt8 → Bool} {k : ℕ} : lastIdx P l = some k ↔
    (∃ x, l[k]? = some x ∧ P x = true) ∧ ∀ j x, k < j → l[j]? = some x → P x = false := by
  induction l generalizing k with
  | nil => simp [lastIdx]
  | cons b l ih =>
    cases hl : lastIdx P l with
    | some i =>
      -- the last one is in the tail
      obtain ⟨⟨x, hx, hpx⟩, hlate⟩ := ih.mp hl
      simp only [lastIdx, hl, Option.some.injEq]
      constructor
      · rintro rfl
        refine ⟨⟨x, hx, hpx⟩, fun j y hj hy => ?_⟩
        obtain ⟨j, rfl⟩ : ∃ n, j = n + 1 := ⟨j - 1, by omega⟩
        exact hlate j y (Nat.lt_of_succ_lt_succ hj) hy
      · rintro ⟨⟨y, hy, hpy⟩, hlate'⟩
        have hnot : ¬k < i + 1 := fun hlt => by
          have hfalse := hlate' (i + 1) x hlt hx
          rw [hpx] at hfalse
          cases hfalse
        by_contra hne
        obtain ⟨k, rfl⟩ : ∃ n, k = n + 1 := ⟨k - 1, by omega⟩
        have hfalse := hlate k y (by omega) hy
        rw [hpy] at hfalse
        cases hfalse
    | none =>
      have hall := lastIdx_none.mp hl
      have htail : ∀ j x, 0 < j → (b :: l)[j]? = some x → P x = false := by
        intro j x hj hx
        obtain ⟨j, rfl⟩ : ∃ n, j = n + 1 := ⟨j - 1, by omega⟩
        exact hall x (List.mem_of_getElem? hx)
      simp only [lastIdx, hl]
      by_cases hb : P b = true
      · rw [if_pos hb, Option.some.injEq]
        constructor
        · rintro rfl
          exact ⟨⟨b, rfl, hb⟩, htail⟩
        · rintro ⟨⟨x, hx, hpx⟩, -⟩
          by_contra hne
          have hfalse := htail k x (by omega) hx
          rw [hpx] at hfalse
          cases hfalse
      · rw [if_neg hb]
        refine iff_of_false (fun h => nomatch h) ?_
        rintro ⟨⟨x, hx, hpx⟩, -⟩
        obtain rfl | hk := Nat.eq_zero_or_pos k
        · obtain rfl : b = x := Option.some.inj hx
          exact hb hpx
        · have hfalse := htail k x hk hx
          rw [hpx] at hfalse
          cases hfalse

theorem lastIdx_last (l : Chars) (b : UInt8) :
    Finds Last l b (some (lastIdx (fun x => x == b) l)) := by
  refine ⟨_, rfl, fun k => ?_, ?_⟩
  · rw [lastIdx_some]
    constructor
    · rintro ⟨⟨x, hx, heq⟩, hlate⟩
      obtain rfl := beq_iff_eq.mp heq
      refine ⟨hx, fun j hj hj' => ?_⟩
      have hfalse := hlate j x hj hj'
      rw [beq_self_eq_true] at hfalse
      cases hfalse
    · rintro ⟨hb, hlate⟩
      refine ⟨⟨b, hb, beq_self_eq_true b⟩, fun j x hj hx => ?_⟩
      rw [beq_eq_false_iff_ne]
      rintro rfl
      exact hlate j hj hx
  · rw [lastIdx_none]
    exact beq_false_iff l b

def nextPlace (s : Chars) (c : ℤ) (p : ℕ) : ℕ :=
  p + (s.drop p).findIdx fun b => decide ((b.toNat : ℤ) = c)

theorem stops_cases (s : Chars) (c : ℤ) {p : ℕ} (hp : p ≤ s.length) :
    (stops s c s.length p = some true ∧ nextPlace s c p = p) ∨
      (stops s c s.length p = some false ∧ p + 1 ≤ s.length ∧
        nextPlace s c p = nextPlace s c (p + 1)) := by
  obtain hlt | rfl := Nat.lt_or_eq_of_le hp
  · have hdrop : s.drop p = s[p] :: s.drop (p + 1) := List.drop_eq_getElem_cons hlt
    have hstop : stops s c s.length p = some (decide ((s[p].toNat : ℤ) = c)) := by
      rw [stops, if_neg (by omega), List.getElem?_eq_getElem hlt, Option.map_some]
    rw [hstop]
    by_cases hb : (s[p].toNat : ℤ) = c
    · left
      simp only [nextPlace, hdrop, List.findIdx_cons, hb, decide_true, cond_true, Nat.add_zero,
        and_self]
    · right
      simp only [nextPlace, hdrop, List.findIdx_cons, hb, decide_false, cond_false]
      exact ⟨trivial, hlt, by omega⟩
  · left
    refine ⟨if_pos le_rfl, ?_⟩
    simp only [nextPlace, List.drop_length, List.findIdx_nil, Nat.add_zero]

theorem memchrFrom_eq (s : Chars) (c : ℤ) {p : ℕ} (hp : p ≤ s.length) :
    memchrFrom s c s.length p = some (nextPlace s c p) := by
  induction hk : s.length - p using Nat.strongRecOn generalizing p with
  | ind k ih =>
    rw [memchrFrom]
    obtain ⟨h0, hn0⟩ | ⟨h0, hp1, hn0⟩ := stops_cases s c hp
    · rw [h0, hn0]
    obtain ⟨h1, hn1⟩ | ⟨h1, hp2, hn1⟩ := stops_cases s c hp1
    · rw [h0, h1, hn0, hn1]
    obtain ⟨h2, hn2⟩ | ⟨h2, hp3, hn2⟩ := stops_cases s c hp2
    · rw [h0, h1, h2, hn0, hn1, hn2]
    obtain ⟨h3, hn3⟩ | ⟨h3, hp4, hn3⟩ := stops_cases s c hp3
    · rw [h0, h1, h2, h3, hn0, hn1, hn2, hn3]
    rw [h0, h1, h2, h3, hn0, hn1, hn2, hn3]
    exact ih (s.length - (p + 4)) (by omega) hp4 rfl

theorem memchr_eq (s : Chars) (c : ℤ) :
    memchr s c s.length = some (s.findIdx? fun b => decide ((b.toNat : ℤ) = c)) := by
  rw [memchr, memchrFrom_eq s c (Nat.zero_le _), Option.map_some, nextPlace, Nat.zero_add,
    List.drop_zero, List.findIdx?_eq_guard_findIdx_lt]
  by_cases hlt : (s.findIdx fun b => decide ((b.toNat : ℤ) = c)) < s.length
  · rw [if_neg (not_le.mpr hlt), Option.guard_apply, if_pos (decide_eq_true hlt)]
  · rw [if_pos (not_lt.mp hlt), Option.guard_apply, if_neg (by simpa using hlt)]

theorem strchrFrom_eq (ch : ℤ) {s : Chars} (hs : 0 ∉ s) (k : ℕ) :
    strchrFrom ch (s ++ [0]) k =
      some (((s ++ [0]).findIdx? fun b => decide (schar b = ch)).map (k + ·)) := by
  induction s generalizing k with
  | nil =>
    rw [List.nil_append, strchrFrom, List.findIdx?_cons]
    by_cases h0 : schar 0 = ch
    · rw [if_pos h0, if_pos (decide_eq_true h0)]
      rfl
    · rw [if_neg h0, if_pos rfl, if_neg (by simpa using h0)]
      rfl
  | cons b s ih =>
    obtain ⟨hb, hs⟩ := not_or.mp (List.mem_cons.not.mp hs)
    rw [List.cons_append, strchrFrom, List.findIdx?_cons]
    by_cases heq : schar b = ch
    · rw [if_pos heq, if_pos (decide_eq_true heq)]
      rfl
    · rw [if_neg heq, if_neg (Ne.symm hb), if_neg (by simpa using heq), ih hs, Option.map_map]
      simp only [Function.comp_def, Nat.add_assoc, Nat.add_comm 1]

theorem strrchrFrom_eq (ch : ℤ) {s : Chars} (hs : 0 ∉ s) (k : ℕ) (save : Option ℕ) :
    strrchrFrom ch (s ++ [0]) k save =
      some (((lastIdx (fun b => decide (schar b = ch)) (s ++ [0])).map (k + ·)).or save) := by
  induction s generalizing k save with
  | nil =>
    by_cases h0 : schar 0 = ch
    · simp [strrchrFrom, lastIdx, h0]
    · simp [strrchrFrom, lastIdx, h0]
  | cons b s ih =>
    obtain ⟨hb, hs⟩ := not_or.mp (List.mem_cons.not.mp hs)
    rw [List.cons_append, strrchrFrom, if_neg (Ne.symm hb), ih hs, lastIdx]
    cases lastIdx (fun b => decide (schar b = ch)) (s ++ [0]) with
    | some i =>
      simp only [Option.map_some, Option.some_or]
      rw [Nat.add_assoc, Nat.add_comm 1]
    | none =>
      by_cases heq : schar b = ch
      · simp [heq]
      · simp [heq]

theorem byteOf_mod (c : ℤ) : ((byteOf c).toNat : ℤ) = c % 256 := by
  rw [byteOf, UInt8.toNat_ofNat']
  omega

theorem unsigned_iff (b : UInt8) (c : ℤ) :
    (b.toNat : ℤ) = c ↔ b = byteOf c ∧ 0 ≤ c ∧ c < 256 := by
  have hb := b.toNat_lt
  have hc := byteOf_mod c
  constructor
  · intro heq
    refine ⟨UInt8.toNat.inj ?_, by omega, by omega⟩
    omega
  · rintro ⟨rfl, hlow, hhigh⟩
    omega

theorem signed_iff (b : UInt8) (c : ℤ) :
    schar b = c ↔ b = byteOf c ∧ -128 ≤ c ∧ c < 128 := by
  have hb := b.toNat_lt
  have hc := byteOf_mod c
  unfold schar
  constructor
  · intro heq
    refine ⟨UInt8.toNat.inj ?_, ?_, ?_⟩
    all_goals
      split_ifs at heq <;> omega
  · rintro ⟨rfl, hlow, hhigh⟩
    split_ifs <;> omega

theorem finds_iff {Place : Chars → UInt8 → ℕ → Prop} (search : (UInt8 → Bool) → Option ℕ)
    {same : UInt8 → Bool} {fits : Prop} (l : Chars) (b : UInt8)
    (hsame : ∀ x, same x = true ↔ x = b ∧ fits)
    (hright : Finds Place l b (some (search fun x => x == b)))
    (hnone : search (fun _ => false) = none) :
    Finds Place l b (some (search same)) ↔ fits ∨ b ∉ l := by
  by_cases hfits : fits
  · have heq : same = fun x => x == b := by
      funext x
      rw [Bool.eq_iff_iff, hsame, beq_iff_eq, and_iff_left hfits]
    rw [heq]
    exact iff_of_true hright (.inl hfits)
  · have hnever : same = fun _ => false := by
      funext x
      rw [Bool.eq_false_iff]
      exact fun h => hfits ((hsame x).mp h).2
    rw [hnever, hnone, or_iff_right hfits]
    obtain ⟨q, hq, hplace, hmem⟩ := hright
    constructor
    · rintro ⟨q', hq', -, hmem'⟩
      obtain rfl := Option.some.inj hq'
      exact hmem'.mp rfl
    · intro hnot
      rw [hmem.mpr hnot] at hplace
      exact ⟨none, rfl, hplace, iff_of_true rfl hnot⟩

/-- `memchr` misses bytes that are there exactly for an int that is no unsigned byte, and `strchr`
and `strrchr` for one that is no signed byte. -/
theorem byte_search_iff (s : Chars) (c : ℤ) (p : Terminated) (ch : ℤ) :
    (Finds First s (byteOf c) (memchr s c s.length) ↔ (0 ≤ c ∧ c < 256) ∨ byteOf c ∉ s) ∧
      (Finds First p.bytes (byteOf ch) (strchr p.bytes ch) ↔
        (-128 ≤ ch ∧ ch < 128) ∨ byteOf ch ∉ p.bytes) ∧
      (Finds Last p.bytes (byteOf ch) (strrchr p.bytes ch) ↔
        (-128 ≤ ch ∧ ch < 128) ∨ byteOf ch ∉ p.bytes) := by
  have hstrchr : strchr p.bytes ch =
      some (p.bytes.findIdx? fun b => decide (schar b = ch)) := by
    rw [strchr, Terminated.bytes, strchrFrom_eq ch p.no_nul]
    simp
  have hstrrchr : strrchr p.bytes ch =
      some (lastIdx (fun b => decide (schar b = ch)) p.bytes) := by
    rw [strrchr, Terminated.bytes, strrchrFrom_eq ch p.no_nul]
    simp
  have hsigned : ∀ x, decide (schar x = ch) = true ↔ x = byteOf ch ∧ -128 ≤ ch ∧ ch < 128 :=
    fun x => decide_eq_true_iff.trans (signed_iff x ch)
  rw [memchr_eq, hstrchr, hstrrchr]
  refine ⟨?_, ?_, ?_⟩
  · exact finds_iff s.findIdx? s (byteOf c)
      (fun x => decide_eq_true_iff.trans (unsigned_iff x c)) (findIdx_first s _) (by simp)
  · exact finds_iff p.bytes.findIdx? p.bytes (byteOf ch) hsigned
      (findIdx_first _ _) (by simp)
  · exact finds_iff (fun P => lastIdx P p.bytes) p.bytes (byteOf ch) hsigned
      (lastIdx_last _ _) (lastIdx_none.mpr fun _ _ => rfl)

/-- A `char` of 0x80 is not found, sign-extended by `memchr` and as 128 by the others. -/
theorem high_byte_missed : ¬Finds First [128] (byteOf (-128)) (memchr [128] (-128) 1) ∧
    ¬Finds First [128, 0] (byteOf 128) (strchr [128, 0] 128) ∧
    ¬Finds Last [128, 0] (byteOf 128) (strrchr [128, 0] 128) := by
  refine ⟨?_, ?_, ?_⟩
  · rw [show (1 : ℕ) = ([128] : Chars).length from rfl, memchr_eq]
    rintro ⟨q, hq, -, hmem⟩
    obtain rfl := Option.some.inj hq
    exact hmem.mp (by decide) (by decide)
  · rintro ⟨q, hq, -, hmem⟩
    obtain rfl := Option.some.inj hq
    exact hmem.mp (by decide) (by decide)
  · rintro ⟨q, hq, -, hmem⟩
    obtain rfl := Option.some.inj hq
    exact hmem.mp (by decide) (by decide)

theorem found_eq {s2 : Chars} (hs : 0 ∉ s2) (c : UInt8) :
    found c (s2 ++ [0]) = some (decide (c ∈ s2)) := by
  induction s2 with
  | nil => rfl
  | cons sc s2 ih =>
    obtain ⟨hsc, hs⟩ := not_or.mp (List.mem_cons.not.mp hs)
    rw [List.cons_append, found, if_neg (Ne.symm hsc), ih hs]
    by_cases hc : sc = c
    · simp [hc]
    · simp [hc, Ne.symm hc]

theorem foundNul_eq {s2 : Chars} (hs : 0 ∉ s2) (c : UInt8) :
    foundNul c (s2 ++ [0]) = some (decide (c ∈ s2 ∨ c = 0)) := by
  induction s2 with
  | nil =>
    by_cases hc : 0 = c
    · simp [foundNul, hc]
    · simp [foundNul, hc, Ne.symm hc]
  | cons sc s2 ih =>
    obtain ⟨hsc, hs⟩ := not_or.mp (List.mem_cons.not.mp hs)
    rw [List.cons_append, foundNul, if_neg (Ne.symm hsc), ih hs]
    by_cases hc : sc = c
    · simp [hc]
    · simp [hc, Ne.symm hc]

section Spans

variable {s1 s2 : Chars}

theorem strspnFrom_eq (h1 : 0 ∉ s1) (h2 : 0 ∉ s2) (k : ℕ) :
    strspnFrom (s2 ++ [0]) (s1 ++ [0]) k = some (k + spanLength (· ∈ s2) s1) := by
  induction s1 generalizing k with
  | nil => simp [strspnFrom, found_eq h2, h2, spanLength]
  | cons c s1 ih =>
    rw [List.cons_append, strspnFrom, found_eq h2, Option.bind_some]
    by_cases hc : c ∈ s2
    · rw [if_pos (decide_eq_true hc), ih (fun h => h1 (List.mem_cons_of_mem c h)),
        spanLength_cons_pos (· ∈ s2) hc, Nat.add_assoc, Nat.add_comm 1]
    · rw [if_neg (by simpa using hc), spanLength_cons_neg (· ∈ s2) hc, Nat.add_zero]

theorem strcspnFrom_eq (h1 : 0 ∉ s1) (h2 : 0 ∉ s2) (k : ℕ) :
    strcspnFrom (s2 ++ [0]) (s1 ++ [0]) k = some (k + spanLength (· ∉ s2) s1) := by
  induction s1 generalizing k with
  | nil => simp [strcspnFrom, foundNul_eq h2, spanLength]
  | cons c s1 ih =>
    obtain ⟨hc0, h1⟩ := not_or.mp (List.mem_cons.not.mp h1)
    rw [List.cons_append, strcspnFrom, foundNul_eq h2, Option.bind_some]
    by_cases hc : c ∈ s2
    · rw [if_pos (decide_eq_true (.inl hc)), spanLength_cons_neg (· ∉ s2) (not_not.mpr hc),
        Nat.add_zero]
    · have hnot : ¬(c ∈ s2 ∨ c = 0) := not_or.mpr ⟨hc, Ne.symm hc0⟩
      rw [if_neg (by simpa using hnot), ih h1, spanLength_cons_pos (· ∉ s2) hc, Nat.add_assoc,
        Nat.add_comm 1]

theorem strpbrkFrom_eq (h1 : 0 ∉ s1) (h2 : 0 ∉ s2) (k : ℕ) :
    strpbrkFrom (s2 ++ [0]) (s1 ++ [0]) k = some (if spanLength (· ∉ s2) s1 < s1.length then
      some (k + spanLength (· ∉ s2) s1) else none) := by
  induction s1 generalizing k with
  | nil => rfl
  | cons c s1 ih =>
    obtain ⟨hc0, h1⟩ := not_or.mp (List.mem_cons.not.mp h1)
    rw [List.cons_append, strpbrkFrom, if_neg (Ne.symm hc0), found_eq h2, Option.bind_some]
    by_cases hc : c ∈ s2
    · rw [if_pos (decide_eq_true hc), spanLength_cons_neg (· ∉ s2) (not_not.mpr hc),
        if_pos (List.length_pos_of_mem List.mem_cons_self), Nat.add_zero]
    · rw [if_neg (by simpa using hc), ih h1, spanLength_cons_pos (· ∉ s2) hc, List.length_cons,
        Nat.add_assoc, Nat.add_comm 1]
      simp only [Nat.add_lt_add_iff_right]

end Spans

theorem strlen_terminated {s : Chars} (hs : 0 ∉ s) : strlen (s ++ [0]) = s.length := by
  rw [strlen_eq, content_terminated hs]

/-- `strspn` and `strcspn` give the longest prefixes in and out of the set of bytes, `strpbrk` the
end of the latter unless it is the whole string, and none of them reads behind a terminator. -/
theorem spans_agree (s1 s2 : Terminated) :
    ∃ n k, strspn s1.bytes s2.bytes = some n ∧ Longest (· ∈ s2.chars) s1.chars n ∧
      strcspn s1.bytes s2.bytes = some k ∧ Longest (· ∉ s2.chars) s1.chars k ∧
      strpbrk s1.bytes s2.bytes = some (if k < strlen s1.bytes then some k else none) := by
  refine ⟨_, _, ?_, spanLength_longest _ _, ?_, spanLength_longest _ _, ?_⟩
  · rw [strspn, Terminated.bytes, Terminated.bytes, strspnFrom_eq s1.no_nul s2.no_nul,
      Nat.zero_add]
  · rw [strcspn, Terminated.bytes, Terminated.bytes, strcspnFrom_eq s1.no_nul s2.no_nul,
      Nat.zero_add]
  · rw [Terminated.bytes, Terminated.bytes, strlen_terminated s1.no_nul, strpbrk,
      strpbrkFrom_eq s1.no_nul s2.no_nul, Nat.zero_add]

end Jiauliyan.StringSearch
