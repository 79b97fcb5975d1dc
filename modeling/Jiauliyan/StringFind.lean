import Jiauliyan.PatternMeaning
import Jiauliyan.StringSearch

namespace Jiauliyan.StringFind

open Jiauliyan.CString Jiauliyan.StringCompare Jiauliyan.LuaMatch Jiauliyan.PatternMeaning
open Jiauliyan.StringSearch

def cstring (p : Chars) : Chars := p.takeWhile (· ≠ 0)

def posrelat (pos : ℤ) (len : ℕ) : ℤ := if 0 ≤ pos then pos else len + pos + 1

/-- The offset where a search starts. -/
def initOf (init : ℤ) (l1 : ℕ) : ℕ := min (posrelat init l1 - 1).toNat l1

def lmemfindFrom (c : UInt8) (s2 : Chars) (l1 off : ℕ) (s1 : Chars) : Option ℕ :=
  if _h : l1 = 0 then none
  else
    match memchr (s1.take l1) (schar c) l1 with
    | some (some k) =>
      if (s1.drop (k + 1)).take s2.length = s2 then some (off + k)
      else lmemfindFrom c s2 (l1 - (k + 1)) (off + (k + 1)) (s1.drop (k + 1))
    | _ => none
termination_by l1

def lmemfind (s1 s2 : Chars) : Option ℕ :=
  match s2 with
  | [] => some 0
  | c :: s2 =>
    if s1.length < s2.length + 1 then none else lmemfindFrom c s2 (s1.length - s2.length) 0 s1

def SPECIALS : Chars := [94, 36, 42, 43, 63, 46, 40, 91, 37, 45]

def special (p : Chars) : Bool :=
  match strpbrk (cstring p ++ [0]) (SPECIALS ++ [0]) with
  | some none => false
  | _ => true

def anchored (p : Chars) : Bool := (cstring p).headD 0 = 94

def unanchored (p : Chars) : Chars := if anchored p then (cstring p).tail else cstring p

structure Match where
  first : ℕ
  stop : ℕ
  captures : MatchState

/-- The loop over the places where a match may start, `r` of which follow `s1`. -/
def searchFrom (src p : Chars) (anchor : Bool) : ℕ → ℕ → Except Message (Option Match)
  | r, s1 =>
    match matchAt src (p.length + 1) [] s1 p with
    | .error e => .error e
    | .ok (some res, ms) => .ok (some ⟨s1, res, ms⟩)
    | .ok (none, _) =>
      match r with
      | 0 => .ok none
      | r + 1 => if anchor then .ok none else searchFrom src p anchor r (s1 + 1)

def search (src p : Chars) (init : ℕ) : Except Message (Option Match) :=
  searchFrom src (unanchored p) (anchored p) (src.length - init) init

inductive CaptureValue
  | position (n : ℕ)
  | text (s : Chars)

def slice (src : Chars) (s e : ℕ) : Chars := (src.drop s).take (e - s)

def captureValue (src : Chars) (c : Capture) : Except Message CaptureValue :=
  match c.len with
  | .unfinished => .error "unfinished capture"
  | .position => .ok (.position (c.start + 1))
  | .closed l => .ok (.text (slice src c.start (c.start + l)))

def pushOnecapture (src : Chars) (m : Match) (i : ℕ) : Except Message CaptureValue :=
  match m.captures[i]? with
  | some c => captureValue src c
  | none => if i = 0 then .ok (.text (slice src m.first m.stop)) else .error "invalid capture index"

/-- `whole` says whether a pattern without captures stands for a capture of the whole match. -/
def pushCaptures (src : Chars) (m : Match) (whole : Bool) : Except Message (List CaptureValue) :=
  (List.range (if m.captures.length = 0 ∧ whole then 1 else m.captures.length)).mapM
    (pushOnecapture src m)

/-- What `string.find` returns unless it is nil: the first and last index and the captures. -/
structure Found where
  first : ℕ
  last : ℕ
  captures : List CaptureValue

def plainFind (s p : Chars) (init : ℕ) : Except Message (Option Found) :=
  .ok ((lmemfind (s.drop init) p).map fun k => ⟨init + k + 1, init + k + p.length, []⟩)

def patternFind (s p : Chars) (init : ℕ) : Except Message (Option Found) :=
  match search s p init with
  | .error e => .error e
  | .ok none => .ok none
  | .ok (some m) =>
    (pushCaptures s m false).map fun captures => some ⟨m.first + 1, m.stop, captures⟩

def strFind (s p : Chars) (init : ℤ) (plain : Bool) : Except Message (Option Found) :=
  if plain ∨ ¬special p then plainFind s p (initOf init s.length)
  else patternFind s p (initOf init s.length)

def strMatch (s p : Chars) (init : ℤ) : Except Message (Option (List CaptureValue)) :=
  match search s p (initOf init s.length) with
  | .error e => .error e
  | .ok none => .ok none
  | .ok (some m) => (pushCaptures s m true).map some

/-- A call of the iterator of `string.gmatch`: the captures, and where the next call starts. -/
def gmatchAux (s p : Chars) (start : ℕ) : Except Message (Option (List CaptureValue × ℕ)) :=
  if s.length < start then .ok none
  else
    match searchFrom s (cstring p) false (s.length - start) start with
    | .error e => .error e
    | .ok none => .ok none
    | .ok (some m) =>
      (pushCaptures s m true).map fun captures =>
        some (captures, if m.stop = m.first then m.stop + 1 else m.stop)

/-- The third argument of `string.gsub`. A function or a table that gives nil or false gives
nothing here. -/
inductive Replacement
  | string (news : Chars)
  | function (f : List CaptureValue → Option Chars)
  | table (t : CaptureValue → Option Chars)

/-- A function of the script that takes the match as its only argument. -/
def unary (f : Chars → Chars) : Replacement :=
  .function fun captures =>
    match captures with
    | [.text m] => some (f m)
    | _ => none

section Gsub

variable (tostring : ℕ → Chars) (src : Chars)

/-- `tostring` is how Lua writes an integer. -/
def CaptureValue.chars : CaptureValue → Chars
  | .position n => tostring n
  | .text s => s

def addS (m : Match) : Chars → Except Message Chars
  | [] => .ok []
  | c :: news =>
    if c ≠ 37 then (addS m news).map (c :: ·)
    else
      match news with
      | [] => .ok [0]
      | d :: news =>
        if ¬Jiauliyan.Strtoul.isdigitInt d.toNat then (addS m news).map (d :: ·)
        else if d = 48 then (addS m news).map (slice src m.first m.stop ++ ·)
        else
          match pushOnecapture src m (d.toNat - 49) with
          | .error e => .error e
          | .ok v => (addS m news).map (v.chars tostring ++ ·)

def addValue (m : Match) : Replacement → Except Message Chars
  | .string news => addS tostring src m news
  | .function f =>
    (pushCaptures src m true).map fun captures => (f captures).getD (slice src m.first m.stop)
  | .table t => (pushOnecapture src m 0).map fun v => (t v).getD (slice src m.first m.stop)

/-- The loop of `str_gsub`: what is added to the buffer from `s` on, and the number of
substitutions. Every round but the last moves on. -/
def gsubLoop (p : Chars) (repl : Replacement) (anchor : Bool) (maxS : ℤ) :
    ℕ → ℕ → ℕ → Except Message (Chars × ℕ)
  | 0, n, s => .ok (src.drop s, n)
  | r + 1, n, s =>
    if (n : ℤ) < maxS then
      match matchAt src (p.length + 1) [] s p with
      | .error err => .error err
      | .ok (e, ms) =>
        match (match e with
          | some e => addValue tostring src ⟨s, e, ms⟩ repl
          | none => .ok []) with
        | .error err => .error err
        | .ok added =>
          let n := if e.isSome then n + 1 else n
          if s < e.getD s then
            if anchor then .ok (added ++ src.drop (e.getD s), n)
            else (gsubLoop p repl anchor maxS r n (e.getD s)).map fun (t, n) => (added ++ t, n)
          else if s < src.length then
            if anchor then .ok (added ++ src.drop s, n)
            else
              (gsubLoop p repl anchor maxS r n (s + 1)).map fun (t, n) =>
                (added ++ at' src s :: t, n)
          else .ok (added ++ src.drop s, n)
    else .ok (src.drop s, n)

def strGsub (p : Chars) (repl : Replacement) (maxS : Option ℤ) : Except Message (Chars × ℕ) :=
  gsubLoop tostring src (unanchored p) repl (anchored p) (maxS.getD (src.length + 1))
    (src.length + 1) 0 0

end Gsub

section Search

variable {src p : Chars} {anchor : Bool} {init s : ℕ}

def outcomes (src p : Chars) (s : ℕ) : Outcomes := meaning src (items p) (s, [])

/-- The leftmost place from `init` on where the pattern has an outcome. An anchored pattern has to
have it at `init`. -/
structure Leftmost (src p : Chars) (anchor : Bool) (init s : ℕ) : Prop where
  from_init : init ≤ s
  inside : s ≤ src.length
  at_anchor : anchor = true → s = init
  outcome : outcomes src p s ≠ []
  first : ∀ t, init ≤ t → t < s → outcomes src p t = []

def Nowhere (src p : Chars) (anchor : Bool) (init : ℕ) : Prop :=
  ∀ s, init ≤ s → s ≤ src.length → (anchor = true → s = init) → outcomes src p s = []

theorem matchAt_choose (src p : Chars) (s : ℕ) :
    matchAt src (p.length + 1) [] s p = choose [] (outcomes src p s) :=
  matchAt_refines src (Nat.lt_succ_self _) [] s

def matchOf (s : ℕ) (os : Outcomes) : Except Message (Option Match) :=
  match os with
  | [] => .ok none
  | .ok (e, ms) :: _ => .ok (some ⟨s, e, ms⟩)
  | .error e :: _ => .error e

theorem Leftmost.later (hs : outcomes src p init = []) (h : Leftmost src p false (init + 1) s) :
    Leftmost src p false init s where
  from_init := (Nat.le_succ init).trans h.from_init
  inside := h.inside
  at_anchor := fun ha => by cases ha
  outcome := h.outcome
  first t ht hts := by
    obtain rfl | hlt := Nat.eq_or_lt_of_le ht
    · exact hs
    · exact h.first t hlt hts

theorem searchFrom_leftmost (src p : Chars) (anchor : Bool) {r init : ℕ}
    (hr : init + r = src.length) :
    (searchFrom src p anchor r init = .ok none ∧ Nowhere src p anchor init) ∨
      ∃ s, Leftmost src p anchor init s ∧
        searchFrom src p anchor r init = matchOf s (outcomes src p s) := by
  induction r generalizing init with
  | zero =>
    rw [searchFrom, matchAt_choose]
    cases ho : outcomes src p init with
    | nil =>
      refine .inl ⟨rfl, fun s hs hle _ => ?_⟩
      obtain rfl : s = init := by omega
      exact ho
    | cons o os =>
      refine .inr ⟨init, ⟨le_rfl, by omega, fun _ => rfl, by simp [ho], fun t _ _ => by omega⟩, ?_⟩
      rw [ho]
      cases o <;> rfl
  | succ r ih =>
    rw [searchFrom, matchAt_choose]
    cases ho : outcomes src p init with
    | nil =>
      simp only [choose]
      cases anchor with
      | true => exact .inl ⟨rfl, fun s _ _ ha => (ha rfl).symm ▸ ho⟩
      | false =>
        rw [if_neg Bool.false_ne_true]
        obtain ⟨hnone, hno⟩ | ⟨s, hs, he⟩ := ih (by omega : init + 1 + r = src.length)
        · refine .inl ⟨hnone, fun s hs hle ha => ?_⟩
          obtain rfl | hlt := Nat.eq_or_lt_of_le hs
          · exact ho
          · exact hno s hlt hle fun h => by cases h
        · exact .inr ⟨s, hs.later ho, he⟩
    | cons o os =>
      refine .inr ⟨init, ⟨le_rfl, by omega, fun _ => rfl, by simp [ho], fun t _ _ => by omega⟩, ?_⟩
      rw [ho]
      cases o <;> rfl

theorem Leftmost.unique {t : ℕ} (hs : Leftmost src p anchor init s)
    (ht : Leftmost src p anchor init t) : s = t := by
  obtain h | h | h := lt_trichotomy s t
  · exact absurd (ht.first s hs.from_init h) hs.outcome
  · exact h
  · exact absurd (hs.first t ht.from_init h) ht.outcome

theorem searchFrom_of_leftmost (hs : Leftmost src p anchor init s) :
    searchFrom src p anchor (src.length - init) init = matchOf s (outcomes src p s) := by
  obtain ⟨-, hno⟩ | ⟨t, ht, he⟩ := searchFrom_leftmost src p anchor
    (Nat.add_sub_cancel' (hs.from_init.trans hs.inside))
  · exact absurd (hno s hs.from_init hs.inside hs.at_anchor) hs.outcome
  · rw [he, hs.unique ht]

theorem searchFrom_of_nowhere (hi : init ≤ src.length) (hno : Nowhere src p anchor init) :
    searchFrom src p anchor (src.length - init) init = .ok none := by
  obtain ⟨hnone, -⟩ | ⟨t, ht, -⟩ := searchFrom_leftmost src p anchor (Nat.add_sub_cancel' hi)
  · exact hnone
  · exact absurd (hno t ht.from_init ht.inside ht.at_anchor) ht.outcome

theorem patternFind_of_leftmost {pattern : Chars} {e : ℕ}
    (hs : Leftmost src (unanchored pattern) (anchored pattern) init s)
    (he : (outcomes src (unanchored pattern) s).head? = some (.ok (e, []))) :
    patternFind src pattern init = .ok (some ⟨s + 1, e, []⟩) := by
  obtain ⟨os, hos⟩ := List.head?_eq_some_iff.mp he
  rw [patternFind, search, searchFrom_of_leftmost hs, hos]
  rfl

theorem patternFind_of_nowhere {pattern : Chars} (hi : init ≤ src.length)
    (hno : Nowhere src (unanchored pattern) (anchored pattern) init) :
    patternFind src pattern init = .ok none := by
  rw [patternFind, search, searchFrom_of_nowhere hi hno]

theorem outcomes_placed {e : ℕ} {ms : MatchState} (hs : s ≤ src.length)
    (h : .ok (e, ms) ∈ outcomes src p s) : Placed src (e, ms) ∧ s ≤ e :=
  meaning_placed (itemsOf_proper _ p) (Placed.start hs) h

theorem initOf_le (init : ℤ) (l : ℕ) : initOf init l ≤ l := Nat.min_le_right _ _

def Within (src : Chars) : CaptureValue → Prop
  | .position n => 1 ≤ n ∧ n ≤ src.length + 1
  | .text s => s <:+: src

theorem slice_infix (src : Chars) (s e : ℕ) : slice src s e <:+: src :=
  ((List.take_prefix _ _).isInfix).trans (List.drop_suffix _ _).isInfix

theorem captureValue_within {c : Capture} {v : CaptureValue} (hc : c.start ≤ src.length)
    (h : captureValue src c = .ok v) : Within src v := by
  rw [captureValue] at h
  cases hlen : c.len with
  | unfinished =>
    rw [hlen] at h
    cases h
  | position =>
    rw [hlen] at h
    cases h
    exact ⟨Nat.le_add_left 1 _, Nat.succ_le_succ hc⟩
  | closed l =>
    rw [hlen] at h
    cases h
    exact slice_infix _ _ _

theorem pushOnecapture_within {m : Match} {i : ℕ} {v : CaptureValue}
    (hm : Placed src (m.stop, m.captures)) (h : pushOnecapture src m i = .ok v) :
    Within src v := by
  rw [pushOnecapture] at h
  cases hc : m.captures[i]? with
  | some c =>
    rw [hc] at h
    exact captureValue_within ((hm.started c (List.mem_of_getElem? hc)).trans hm.inside) h
  | none =>
    rw [hc] at h
    simp only at h
    split_ifs at h
    cases h
    exact slice_infix _ _ _

theorem pushOnecapture_error {m : Match} {i : ℕ} {e : Message} (hi : i < m.captures.length)
    (h : pushOnecapture src m i = .error e) :
    e = "unfinished capture" ∧ ∃ c ∈ m.captures, c.len = .unfinished := by
  rw [pushOnecapture, List.getElem?_eq_getElem hi] at h
  simp only [captureValue] at h
  cases hlen : m.captures[i].len with
  | unfinished =>
    rw [hlen] at h
    cases h
    exact ⟨rfl, _, List.getElem_mem hi, hlen⟩
  | position =>
    rw [hlen] at h
    cases h
  | closed l =>
    rw [hlen] at h
    cases h

theorem mapM_cases {α β : Type} {f : α → Except Message β} (l : List α) :
    (∃ vs, l.mapM f = .ok vs ∧ vs.length = l.length ∧ ∀ v ∈ vs, ∃ a ∈ l, f a = .ok v) ∨
      ∃ e, l.mapM f = .error e ∧ ∃ a ∈ l, f a = .error e := by
  induction l with
  | nil => exact .inl ⟨[], rfl, rfl, fun v hv => by cases hv⟩
  | cons a l ih =>
    rw [List.mapM_cons]
    cases ha : f a with
    | error e => exact .inr ⟨e, rfl, a, List.mem_cons_self, ha⟩
    | ok b =>
      obtain ⟨vs, hvs, hlen, hall⟩ | ⟨e, he, x, hx, hfx⟩ := ih
      · rw [hvs]
        refine .inl ⟨b :: vs, rfl, congrArg (· + 1) hlen, fun v hv => ?_⟩
        obtain rfl | hv := List.mem_cons.mp hv
        · exact ⟨a, List.mem_cons_self, ha⟩
        · obtain ⟨x, hx, hfx⟩ := hall v hv
          exact ⟨x, List.mem_cons_of_mem a hx, hfx⟩
      · rw [he]
        exact .inr ⟨e, rfl, x, List.mem_cons_of_mem a hx, hfx⟩

theorem pushCaptures_cases {m : Match} (hm : Placed src (m.stop, m.captures)) :
    (∃ vs, pushCaptures src m false = .ok vs ∧ vs.length = m.captures.length ∧
      ∀ v ∈ vs, Within src v) ∨
    (pushCaptures src m false = .error "unfinished capture" ∧
      ∃ c ∈ m.captures, c.len = .unfinished) := by
  have hpush : pushCaptures src m false =
      (List.range m.captures.length).mapM (pushOnecapture src m) := by
    rw [pushCaptures, if_neg fun h => Bool.false_ne_true h.2]
  rw [hpush]
  obtain ⟨vs, hvs, hlen, hall⟩ | ⟨e, he, i, hi, hfi⟩ :=
    mapM_cases (f := pushOnecapture src m) (List.range m.captures.length)
  · refine .inl ⟨vs, hvs, by rw [hlen, List.length_range], fun v hv => ?_⟩
    obtain ⟨i, -, hi⟩ := hall v hv
    exact pushOnecapture_within hm hi
  · obtain ⟨rfl, hc⟩ := pushOnecapture_error (List.mem_range.mp hi) hfi
    exact .inr ⟨he, hc⟩

/-- A search for a pattern goes by its leftmost outcome, and by the one that is preferred there.
The indices that it returns and the captures are inside the text. -/
theorem patternFind_leftmost (s p : Chars) (init : ℤ) :
    let i := initOf init s.length
    (patternFind s p i = .ok none ∧ Nowhere s (unanchored p) (anchored p) i) ∨
    ∃ k, Leftmost s (unanchored p) (anchored p) i k ∧
      ((∃ e, (outcomes s (unanchored p) k).head? = some (.error e) ∧
        patternFind s p i = .error e) ∨
      ∃ stop ms, (outcomes s (unanchored p) k).head? = some (.ok (stop, ms)) ∧
        k ≤ stop ∧ stop ≤ s.length ∧
        ((patternFind s p i = .error "unfinished capture" ∧ ∃ c ∈ ms, c.len = .unfinished) ∨
        ∃ captures, patternFind s p i = .ok (some ⟨k + 1, stop, captures⟩) ∧
          captures.length = ms.length ∧ ∀ v ∈ captures, Within s v)) := by
  intro i
  have hi : i ≤ s.length := initOf_le init s.length
  obtain ⟨hnone, hno⟩ | ⟨k, hk, he⟩ := searchFrom_leftmost s (unanchored p) (anchored p)
    (Nat.add_sub_cancel' hi)
  · refine .inl ⟨?_, hno⟩
    rw [patternFind, search, hnone]
  refine .inr ⟨k, hk, ?_⟩
  rw [patternFind, search, he]
  cases ho : outcomes s (unanchored p) k with
  | nil => exact absurd ho hk.outcome
  | cons o os =>
    cases o with
    | error e => exact .inl ⟨e, rfl, rfl⟩
    | ok c =>
      obtain ⟨stop, ms⟩ := c
      have hmem : .ok (stop, ms) ∈ outcomes s (unanchored p) k := by
        rw [ho]
        exact List.mem_cons_self
      obtain ⟨hplaced, hle⟩ := outcomes_placed hk.inside hmem
      refine .inr ⟨stop, ms, rfl, hle, hplaced.inside, ?_⟩
      simp only [matchOf]
      obtain ⟨vs, hvs, hlen, hall⟩ | ⟨hbad, hc⟩ := pushCaptures_cases (m := ⟨k, stop, ms⟩) hplaced
      · rw [hvs]
        exact .inr ⟨vs, rfl, hlen, hall⟩
      · rw [hbad]
        exact .inl ⟨rfl, hc⟩

end Search

section Plain

variable {c : UInt8} {s1 s2 : Chars}

def FirstPlace (s2 s1 : Chars) (k : ℕ) : Prop :=
  s2 <+: s1.drop k ∧ ∀ j < k, ¬s2 <+: s1.drop j

theorem prefix_drop_iff (c : UInt8) (s2 s1 : Chars) (k : ℕ) :
    c :: s2 <+: s1.drop k ↔ s1[k]? = some c ∧ (s1.drop (k + 1)).take s2.length = s2 := by
  by_cases hk : k < s1.length
  · rw [List.drop_eq_getElem_cons hk, List.cons_prefix_cons, List.getElem?_eq_getElem hk,
      List.prefix_iff_eq_take, Option.some.injEq, eq_comm (a := c), eq_comm (a := s2)]
  · have hnil : s1.drop k = [] := List.drop_eq_nil_of_le (not_lt.mp hk)
    rw [hnil, List.getElem?_eq_none (not_lt.mp hk)]
    simp

theorem prefix_length {k : ℕ} (h : c :: s2 <+: s1.drop k) : k + s2.length < s1.length := by
  have hlen := h.length_le
  rw [List.length_cons, List.length_drop] at hlen
  omega

theorem memchr_take {l1 : ℕ} (hl : l1 ≤ s1.length) :
    memchr (s1.take l1) (schar c) l1 =
      some ((s1.take l1).findIdx? fun b => decide ((b.toNat : ℤ) = schar c)) := by
  have hlen : (s1.take l1).length = l1 := List.length_take_of_le hl
  have h := memchr_eq (s1.take l1) (schar c)
  rwa [hlen] at h

theorem schar_ascii (hc : c < 128) (b : UInt8) : (b.toNat : ℤ) = schar c ↔ b = c := by
  have hlt : c.toNat < 128 := UInt8.lt_iff_toNat_lt.mp hc
  rw [schar, if_pos hlt, Int.natCast_inj, UInt8.toNat_inj]

theorem schar_high (hc : ¬c < 128) (b : UInt8) : (b.toNat : ℤ) ≠ schar c := by
  have hge : ¬c.toNat < 128 := fun h => hc (UInt8.lt_iff_toNat_lt.mpr h)
  have hlt := c.toNat_lt
  rw [schar, if_neg hge]
  omega

theorem lmemfindFrom_high (hc : ¬c < 128) {l1 : ℕ} (hl : l1 ≤ s1.length) (off : ℕ) :
    lmemfindFrom c s2 l1 off s1 = none := by
  have hnone : ((s1.take l1).findIdx? fun b => decide ((b.toNat : ℤ) = schar c)) = none := by
    rw [List.findIdx?_eq_none_iff]
    exact fun b _ => decide_eq_false (schar_high hc b)
  rw [lmemfindFrom]
  split_ifs
  · rfl
  · rw [memchr_take hl, hnone]

theorem lmemfindFrom_ascii (hc : c < 128) {l1 : ℕ} (hl : l1 + s2.length = s1.length) (off : ℕ) :
    (lmemfindFrom c s2 l1 off s1 = none ∧ ∀ k, ¬c :: s2 <+: s1.drop k) ∨
      ∃ k, lmemfindFrom c s2 l1 off s1 = some (off + k) ∧ FirstPlace (c :: s2) s1 k := by
  induction hn : l1 using Nat.strongRecOn generalizing l1 off s1 with
  | ind n ih =>
    subst hn
    rw [lmemfindFrom]
    by_cases h0 : l1 = 0
    · rw [dif_pos h0]
      refine .inl ⟨rfl, fun k hk => ?_⟩
      have := prefix_length hk
      omega
    rw [dif_neg h0, memchr_take (by omega)]
    cases hi : (s1.take l1).findIdx? fun b => decide ((b.toNat : ℤ) = schar c) with
    | none =>
      refine .inl ⟨rfl, fun k hk => ?_⟩
      have hlt := prefix_length hk
      obtain ⟨hget, -⟩ := (prefix_drop_iff c s2 s1 k).mp hk
      have hmem : c ∈ s1.take l1 := by
        apply List.mem_of_getElem? (i := k)
        rw [List.getElem?_take_of_lt (by omega), hget]
      have hno := (List.findIdx?_eq_none_iff.mp hi) c hmem
      exact absurd ((schar_ascii hc c).mpr rfl) (of_decide_eq_false hno)
    | some i =>
      obtain ⟨hilt, hget, hbefore⟩ := List.findIdx?_eq_some_iff_getElem.mp hi
      rw [List.length_take_of_le (by omega)] at hilt
      rw [List.getElem_take] at hget
      have hci : s1[i]? = some c := by
        rw [List.getElem?_eq_getElem (by omega)]
        exact congrArg some ((schar_ascii hc _).mp (of_decide_eq_true hget))
      have hnot : ∀ j < i, ¬c :: s2 <+: s1.drop j := by
        intro j hj hpre
        obtain ⟨hjc, -⟩ := (prefix_drop_iff c s2 s1 j).mp hpre
        have hne := hbefore j hj
        rw [List.getElem_take] at hne
        rw [List.getElem?_eq_getElem (by omega)] at hjc
        exact hne (decide_eq_true ((schar_ascii hc _).mpr (Option.some.inj hjc)))
      simp only
      by_cases hrest : (s1.drop (i + 1)).take s2.length = s2
      · rw [if_pos hrest]
        exact .inr ⟨i, rfl, (prefix_drop_iff c s2 s1 i).mpr ⟨hci, hrest⟩, hnot⟩
      · rw [if_neg hrest]
        -- the places up to `i` are ruled out, the others are those of the rest
        have hruled : ∀ j ≤ i, ¬c :: s2 <+: s1.drop j := by
          intro j hj
          obtain rfl | hlt := Nat.eq_or_lt_of_le hj
          · exact fun hpre => hrest ((prefix_drop_iff c s2 s1 j).mp hpre).2
          · exact hnot j hlt
        have hshift : ∀ j, i < j →
            (c :: s2 <+: s1.drop j ↔ c :: s2 <+: (s1.drop (i + 1)).drop (j - (i + 1))) := by
          intro j hj
          rw [List.drop_drop, Nat.add_sub_cancel' hj]
        have hrest : l1 - (i + 1) + s2.length = (s1.drop (i + 1)).length := by
          rw [List.length_drop]
          omega
        obtain ⟨hnone, hall⟩ | ⟨k, hk, hpre, hfirst⟩ := ih (l1 - (i + 1)) (by omega) hrest
          (off + (i + 1)) rfl
        · refine .inl ⟨hnone, fun j => ?_⟩
          obtain hj | hj := Nat.lt_or_ge i j
          · exact fun hpre => hall _ ((hshift j hj).mp hpre)
          · exact hruled j hj
        · refine .inr ⟨i + 1 + k, by rw [hk, Nat.add_assoc], ?_, fun j hjk => ?_⟩
          · rwa [List.drop_drop] at hpre
          · obtain hj | hj := Nat.lt_or_ge i j
            · exact fun hpre => hfirst _ (by omega) ((hshift j hj).mp hpre)
            · exact hruled j hj

theorem lmemfind_ascii (hs : s2.headD 0 < 128) (s1 : Chars) :
    (lmemfind s1 s2 = none ∧ ∀ k, ¬s2 <+: s1.drop k) ∨
      ∃ k, lmemfind s1 s2 = some k ∧ FirstPlace s2 s1 k := by
  cases s2 with
  | nil => exact .inr ⟨0, rfl, List.nil_prefix, fun j hj => absurd hj (Nat.not_lt_zero j)⟩
  | cons c s2 =>
    rw [List.headD_cons] at hs
    simp only [lmemfind]
    by_cases hlen : s1.length < s2.length + 1
    · rw [if_pos hlen]
      refine .inl ⟨rfl, fun k hk => ?_⟩
      have := prefix_length hk
      omega
    · rw [if_neg hlen]
      have hfit : s1.length - s2.length + s2.length = s1.length := by omega
      have h := lmemfindFrom_ascii hs hfit 0
      simpa only [Nat.zero_add] using h

theorem lmemfind_high (hs : ¬s2.headD 0 < 128) (s1 : Chars) : lmemfind s1 s2 = none := by
  cases s2 with
  | nil => exact absurd (by decide) hs
  | cons c s2 =>
    rw [List.headD_cons] at hs
    simp only [lmemfind]
    split_ifs
    · rfl
    · exact lmemfindFrom_high hs (by omega) 0

end Plain

section Shortcut

variable {c : UInt8} {p src s : Chars}

/-- A character that stands for itself in a pattern. Of those that do not, `SPECIALS` lacks the
`)`. -/
def Ordinary (c : UInt8) : Prop := c ∉ SPECIALS ∧ c ≠ 41 ∧ c ≠ 0

theorem Ordinary.ne (h : Ordinary c) {d : UInt8} (hd : d ∈ SPECIALS) : c ≠ d := by
  rintro rfl
  exact h.1 hd

theorem repetitionAt_ordinary (hp : ∀ c ∈ p, Ordinary c) : repetitionAt p = (.once, p) := by
  have hne : ∀ d ∈ SPECIALS, p.headD 0 ≠ d := by
    intro d hd
    cases p with
    | nil =>
      rintro rfl
      exact absurd hd (by decide)
    | cons c p => exact (hp c List.mem_cons_self).ne hd
  rw [repetitionAt, if_neg (hne 63 (by decide)), if_neg (hne 42 (by decide)),
    if_neg (hne 43 (by decide)), if_neg (hne 45 (by decide))]

theorem nextItem_ordinary (hp : ∀ d ∈ c :: p, Ordinary d) :
    nextItem (c :: p) = some (.single (fun d => c == d) .once, p) := by
  have hc := hp c List.mem_cons_self
  have h40 : c ≠ 40 := hc.ne (by decide)
  have h37 : c ≠ 37 := hc.ne (by decide)
  have h91 : c ≠ 91 := hc.ne (by decide)
  have h46 : c ≠ 46 := hc.ne (by decide)
  have h36 : c :: p ≠ [36] := fun h => hc.ne (by decide) (List.cons.inj h).1
  have hrep := repetitionAt_ordinary fun d hd => hp d (List.mem_cons_of_mem c hd)
  simp only [nextItem, List.headD_cons, List.cons_ne_nil, h40, hc.2.1, h37, h36, false_and,
    if_false, singleItem, classend, h91, hrep, singlematch, h46]

theorem meaning_ordinary (hp : ∀ d ∈ p, Ordinary d) {n : ℕ} (hn : p.length < n) (k : ℕ)
    (ms : MatchState) :
    meaning src (itemsOf n p) (k, ms) =
      if p <+: src.drop k then [.ok (k + p.length, ms)] else [] := by
  induction p generalizing n k with
  | nil =>
    rw [itemsOf_nil, if_pos List.nil_prefix]
    rfl
  | cons c p ih =>
    obtain ⟨n, rfl⟩ : ∃ m, n = m + 1 := ⟨n - 1, by omega⟩
    have htail : ∀ d ∈ p, Ordinary d := fun d hd => hp d (List.mem_cons_of_mem c hd)
    rw [List.length_cons] at hn
    rw [itemsOf_cons (nextItem_ordinary hp), meaning, step, repeated]
    by_cases hk : k < src.length
    · have hat : at' src k = src[k] := by
        rw [at', List.getD_eq_getElem?_getD, List.getElem?_eq_getElem hk, Option.getD_some]
      rw [List.drop_eq_getElem_cons hk]
      by_cases hc : c = src[k]
      · have hacc : Accepted src (fun d => c == d) k := ⟨hk, by rw [hat]; exact beq_iff_eq.mpr hc⟩
        have hpre : c :: p <+: src[k] :: src.drop (k + 1) ↔ p <+: src.drop (k + 1) := by
          rw [List.cons_prefix_cons]
          exact and_iff_right hc
        simp only [if_pos hacc, List.map_cons, List.map_nil, List.flatMap_singleton, andThen,
          ih htail (by omega : p.length < n), hpre, List.length_cons, Nat.add_assoc,
          Nat.add_comm 1]
      · have hacc : ¬Accepted src (fun d => c == d) k := by
          rintro ⟨-, h⟩
          rw [hat] at h
          exact hc (beq_iff_eq.mp h)
        have hpre : ¬c :: p <+: src[k] :: src.drop (k + 1) := by
          rw [List.cons_prefix_cons]
          exact fun h => hc h.1
        rw [if_neg hacc, if_neg hpre]
        rfl
    · have hnil : src.drop k = [] := List.drop_eq_nil_of_le (not_lt.mp hk)
      rw [if_neg fun h => hk h.1, hnil, if_neg (by simp)]
      rfl

theorem outcomes_ordinary (hp : ∀ d ∈ p, Ordinary d) (k : ℕ) :
    outcomes src p k = if p <+: src.drop k then [.ok (k + p.length, [])] else [] :=
  meaning_ordinary hp (Nat.lt_succ_self _) k []

theorem cstring_ordinary (hp : ∀ d ∈ p, Ordinary d) : cstring p = p :=
  List.takeWhile_eq_self_iff.mpr fun d hd => decide_eq_true (hp d hd).2.2

theorem special_ordinary (hp : ∀ d ∈ p, Ordinary d) : special p = false := by
  have h0 : 0 ∉ p := fun h => (hp 0 h).2.2 rfl
  have hspan : ¬Runs.spanLength (· ∉ SPECIALS) p < p.length := by
    have hall : p.takeWhile (fun d => decide (d ∉ SPECIALS)) = p :=
      List.takeWhile_eq_self_iff.mpr fun d hd => decide_eq_true (hp d hd).1
    rw [Runs.spanLength, hall]
    exact lt_irrefl _
  rw [special, cstring_ordinary hp, strpbrk, strpbrkFrom_eq h0 (by decide), if_neg hspan]

theorem anchored_ordinary (hp : ∀ d ∈ p, Ordinary d) :
    anchored p = false ∧ unanchored p = p := by
  have h94 : p.headD 0 ≠ 94 := by
    cases p with
    | nil => decide
    | cons c p => exact (hp c List.mem_cons_self).ne (by decide)
  have ha : anchored p = false := by
    rw [anchored, cstring_ordinary hp]
    exact decide_eq_false h94
  rw [unanchored, ha, if_neg Bool.false_ne_true, cstring_ordinary hp]
  exact ⟨rfl, rfl⟩

theorem FirstPlace.unique {k l : ℕ} (hk : FirstPlace p s k) (hl : FirstPlace p s l) : k = l := by
  obtain h | h | h := lt_trichotomy k l
  · exact absurd hk.1 (hl.2 k h)
  · exact h
  · exact absurd hl.1 (hk.2 l h)

theorem patternFind_ordinary (hp : ∀ d ∈ p, Ordinary d) {i : ℕ} (hi : i ≤ s.length) :
    (patternFind s p i = .ok none ∧ ∀ k, ¬p <+: (s.drop i).drop k) ∨
      ∃ k, patternFind s p i = .ok (some ⟨i + k + 1, i + k + p.length, []⟩) ∧
        FirstPlace p (s.drop i) k := by
  obtain ⟨ha, hu⟩ := anchored_ordinary hp
  have hempty : ∀ k, outcomes s p k = [] ↔ ¬p <+: s.drop k := by
    intro k
    rw [outcomes_ordinary hp]
    split_ifs with h
    · simp [h]
    · simp [h]
  rw [patternFind, search, ha, hu]
  obtain ⟨hnone, hno⟩ | ⟨k, hk, he⟩ := searchFrom_leftmost s p false (Nat.add_sub_cancel' hi)
  · rw [hnone]
    refine .inl ⟨rfl, fun k hk => ?_⟩
    rw [List.drop_drop] at hk
    obtain hle | hlt := Nat.le_or_ge (i + k) s.length
    · exact (hempty (i + k)).mp (hno (i + k) (Nat.le_add_right i k) hle fun h => by cases h) hk
    · rw [List.drop_eq_nil_of_le hlt, List.prefix_nil] at hk
      refine (hempty s.length).mp (hno s.length hi le_rfl fun h => by cases h) ?_
      rw [hk]
      exact List.nil_prefix
  · have hpre : p <+: s.drop k := not_not.mp fun h => hk.outcome ((hempty k).mpr h)
    rw [he, outcomes_ordinary hp, if_pos hpre]
    refine .inr ⟨k - i, ?_, ?_, fun j hj hpre => ?_⟩
    · rw [Nat.add_sub_cancel' hk.from_init]
      rfl
    · rwa [List.drop_drop, Nat.add_sub_cancel' hk.from_init]
    · rw [List.drop_drop] at hpre
      have := hk.from_init
      exact (hempty (i + j)).mp (hk.first (i + j) (Nat.le_add_right i j) (by omega)) hpre

theorem plainFind_ascii (hp : ∀ d ∈ p, Ordinary d) (hascii : p.headD 0 < 128) {i : ℕ}
    (hi : i ≤ s.length) : plainFind s p i = patternFind s p i := by
  rw [plainFind]
  obtain ⟨hnone, hno⟩ | ⟨k, hk, hfirst⟩ := patternFind_ordinary hp hi
  · obtain ⟨h, -⟩ | ⟨k, -, hk⟩ := lmemfind_ascii hascii (s.drop i)
    · rw [hnone, h]
      rfl
    · exact absurd hk.1 (hno k)
  · obtain ⟨-, hall⟩ | ⟨l, hl, hfirst'⟩ := lmemfind_ascii hascii (s.drop i)
    · exact absurd hfirst.1 (hall k)
    · rw [hk, hl, hfirst.unique hfirst']
      rfl

theorem strFind_ordinary (s : Chars) (init : ℤ) (hp : ∀ d ∈ p, Ordinary d) :
    strFind s p init false = plainFind s p (initOf init s.length) := by
  have hspecial : false = true ∨ ¬special p = true := .inr (by simp [special_ordinary hp])
  rw [strFind, if_pos hspecial]

/-- Where the plain search stands in for the matcher, it finds the same unless the string begins
with a byte from 0x80 up and is there. -/
theorem plain_agrees_iff (s p : Chars) (init : ℤ) (hp : ∀ d ∈ p, Ordinary d) :
    strFind s p init false = patternFind s p (initOf init s.length) ↔
      p.headD 0 < 128 ∨ ∀ k, ¬p <+: (s.drop (initOf init s.length)).drop k := by
  have hi := initOf_le init s.length
  rw [strFind_ordinary s init hp]
  by_cases hascii : p.headD 0 < 128
  · exact iff_of_true (plainFind_ascii hp hascii hi) (.inl hascii)
  · rw [plainFind, lmemfind_high hascii]
    obtain ⟨hnone, hno⟩ | ⟨k, hk, hfirst⟩ := patternFind_ordinary hp hi
    · rw [hnone]
      exact iff_of_true rfl (.inr hno)
    · rw [hk]
      refine iff_of_false (fun h => by cases h) ?_
      rintro (h | h)
      · exact hascii h
      · exact h k hfirst.1

theorem accent_agrees : strFind [99, 97, 102, 195, 169] [195, 169] 1 false =
      patternFind [99, 97, 102, 195, 169] [195, 169] (initOf 1 5) ↔
    (195 : UInt8) < 128 ∨
      ∀ k, ¬[195, 169] <+: (([99, 97, 102, 195, 169] : Chars).drop (initOf 1 5)).drop k :=
  plain_agrees_iff [99, 97, 102, 195, 169] [195, 169] 1 (by simp [Ordinary, SPECIALS])

/-- A pattern that goes to the matcher, or that the plain search finds as the matcher would. -/
def Searched (p : Chars) : Prop := special p = true ∨ (∀ d ∈ p, Ordinary d) ∧ p.headD 0 < 128

theorem strFind_searched (s : Chars) (init : ℤ) (h : Searched p) :
    strFind s p init false = patternFind s p (initOf init s.length) := by
  obtain hspecial | ⟨hp, hascii⟩ := h
  · have hnot : ¬(false = true ∨ ¬special p = true) := by simp [hspecial]
    rw [strFind, if_neg hnot]
  · rw [strFind_ordinary s init hp]
    exact plainFind_ascii hp hascii (initOf_le init s.length)

/-- `string.find` goes by the leftmost outcome of the pattern, and by the one that is preferred
there. The indices that it returns and the captures are inside the text. -/
theorem strFind_leftmost (s p : Chars) (init : ℤ) (h : Searched p) :
    let i := initOf init s.length
    (strFind s p init false = .ok none ∧ Nowhere s (unanchored p) (anchored p) i) ∨
    ∃ k, Leftmost s (unanchored p) (anchored p) i k ∧
      ((∃ e, (outcomes s (unanchored p) k).head? = some (.error e) ∧
        strFind s p init false = .error e) ∨
      ∃ stop ms, (outcomes s (unanchored p) k).head? = some (.ok (stop, ms)) ∧
        k ≤ stop ∧ stop ≤ s.length ∧
        ((strFind s p init false = .error "unfinished capture" ∧
          ∃ c ∈ ms, c.len = .unfinished) ∨
        ∃ captures, strFind s p init false = .ok (some ⟨k + 1, stop, captures⟩) ∧
          captures.length = ms.length ∧ ∀ v ∈ captures, Within s v)) := by
  rw [strFind_searched s init h]
  exact patternFind_leftmost s p init

theorem dot_searched : (Nowhere [97] [46] false 0 ∨ ∃ k, Leftmost [97] [46] false 0 k) ∧
    (Nowhere [97] [97] false 0 ∨ ∃ k, Leftmost [97] [97] false 0 k) := by
  refine ⟨?_, ?_⟩
  · obtain ⟨-, hno⟩ | ⟨k, hk, -⟩ := strFind_leftmost [97] [46] 1 (.inl (by decide))
    · exact .inl hno
    · exact .inr ⟨k, hk⟩
  · obtain ⟨-, hno⟩ | ⟨k, hk, -⟩ := strFind_leftmost [97] [97] 1
      (.inr ⟨by simp [Ordinary, SPECIALS], by decide⟩)
    · exact .inl hno
    · exact .inr ⟨k, hk⟩

end Shortcut

end Jiauliyan.StringFind
