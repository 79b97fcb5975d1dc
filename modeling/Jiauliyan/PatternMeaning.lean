import Jiauliyan.LuaMatch

namespace Jiauliyan.PatternMeaning

open Jiauliyan.StringCompare Jiauliyan.LuaMatch
open Jiauliyan.Strtoul (isdigitInt)

inductive Repetition
  | once
  | optional
  | greedy
  | greedyOne
  | lazy

inductive Item
  | startCapture (what : CapLen)
  | endCapture
  | balance (b e : UInt8)
  | frontier (accepts : UInt8 → Bool)
  | capture (l : UInt8)
  | atEnd
  | single (accepts : UInt8 → Bool) (repetition : Repetition)
  | malformed (e : Message)

def repetitionAt (ep : Chars) : Repetition × Chars :=
  if ep.headD 0 = 63 then (.optional, ep.tail)
  else if ep.headD 0 = 42 then (.greedy, ep.tail)
  else if ep.headD 0 = 43 then (.greedyOne, ep.tail)
  else if ep.headD 0 = 45 then (.lazy, ep.tail)
  else (.once, ep)

def balanceItem (p : Chars) : Item × Chars :=
  if p.headD 0 = 0 ∨ p.tail.headD 0 = 0 then (.malformed "unbalanced pattern", [])
  else (.balance (p.headD 0) (p.tail.headD 0), p.drop 2)

def frontierItem (p : Chars) : Item × Chars :=
  if p.headD 0 ≠ 91 then (.malformed "missing '[' after '%f' in pattern", [])
  else
    match classend p with
    | .error e => (.malformed e, [])
    | .ok ep => (.frontier fun c => matchbracketclass c (between p.tail ep), ep)

def singleItem (p : Chars) : Item × Chars :=
  match classend p with
  | .error e => (.malformed e, [])
  | .ok ep => (.single (fun c => singlematch c p ep) (repetitionAt ep).1, (repetitionAt ep).2)

def nextItem (p : Chars) : Option (Item × Chars) :=
  if p = [] then none
  else if p.headD 0 = 40 then
    if p.tail.headD 0 = 41 then some (.startCapture .position, p.drop 2)
    else some (.startCapture .unfinished, p.tail)
  else if p.headD 0 = 41 then some (.endCapture, p.tail)
  else if p.headD 0 = 37 ∧ p.tail.headD 0 = 98 then some (balanceItem (p.drop 2))
  else if p.headD 0 = 37 ∧ p.tail.headD 0 = 102 then some (frontierItem (p.drop 2))
  else if p.headD 0 = 37 ∧ isdigitInt (p.tail.headD 0).toNat then
    some (.capture (p.tail.headD 0), p.drop 2)
  else if p = [36] then some (.atEnd, [])
  else some (singleItem p)

def itemsOf : ℕ → Chars → List Item
  | 0, _ => []
  | n + 1, p =>
    match nextItem p with
    | none => []
    | some (item, q) => item :: itemsOf n q

/-- The items of a pattern. -/
def items (p : Chars) : List Item := itemsOf (p.length + 1) p

-- A pattern yields the places where it can end and the captures it then has, in the order in
-- which they are preferred. An error is preferred to everything behind it.
abbrev Config := ℕ × MatchState

abbrev Outcomes := List (Except Message Config)

def andThen (k : Config → Outcomes) : Except Message Config → Outcomes
  | .ok c => k c
  | .error e => [.error e]

section Meaning

variable (src : Chars)

def Accepted (accepts : UInt8 → Bool) (s : ℕ) : Prop :=
  s < src.length ∧ accepts (at' src s) = true

instance (accepts : UInt8 → Bool) (s : ℕ) : Decidable (Accepted src accepts s) :=
  inferInstanceAs (Decidable (_ ∧ _))

def run (accepts : UInt8 → Bool) (s : ℕ) : ℕ := ((src.drop s).takeWhile accepts).length

def descending (accepts : UInt8 → Bool) (s : ℕ) : List ℕ :=
  (List.range (run src accepts s + 1)).reverse.map (s + ·)

def repeated (accepts : UInt8 → Bool) (s : ℕ) : Repetition → List ℕ
  | .once => if Accepted src accepts s then [s + 1] else []
  | .optional => if Accepted src accepts s then [s + 1, s] else [s]
  | .greedy => descending src accepts s
  | .greedyOne => if Accepted src accepts s then descending src accepts (s + 1) else []
  | .lazy => (List.range (run src accepts s + 1)).map (s + ·)

def ends (e : Except Message (Option ℕ)) (ms : MatchState) : Outcomes :=
  match e with
  | .error e => [.error e]
  | .ok none => []
  | .ok (some s) => [.ok (s, ms)]

def step : Item → Config → Outcomes
  | .startCapture what, (s, ms) =>
    if LUA_MAXCAPTURES ≤ ms.length then [.error "too many captures"]
    else [.ok (s, ms ++ [⟨s, what⟩])]
  | .endCapture, (s, ms) =>
    match captureToClose ms with
    | .error e => [.error e]
    | .ok l => [.ok (s, ms.modify l fun c => { c with len := .closed (s - c.start) })]
  | .balance b e, (s, ms) =>
    if at' src s = b then ends (.ok (balanceFrom b e (src.drop (s + 1)) 1 (s + 1))) ms else []
  | .frontier accepts, (s, ms) =>
    if accepts (if s = 0 then 0 else at' src (s - 1)) ∨ ¬accepts (at' src s) then []
    else [.ok (s, ms)]
  | .capture l, (s, ms) => ends (matchCapture src ms s l) ms
  | .atEnd, (s, ms) => if s = src.length then [.ok (s, ms)] else []
  | .single accepts repetition, (s, ms) =>
    (repeated src accepts s repetition).map fun s => .ok (s, ms)
  | .malformed e, _ => [.error e]

def meaning : List Item → Config → Outcomes
  | [], c => [.ok c]
  | item :: is, c => (step src item c).flatMap (andThen (meaning is))

end Meaning

/-- What is preferred of the outcomes; without any the captures stay as they are. -/
def choose (ms : MatchState) : Outcomes → Result
  | [] => .ok (none, ms)
  | .ok (s, ms) :: _ => .ok (some s, ms)
  | .error e :: _ => .error e

section Refinement

def Refines (next : MatchState → ℕ → Result) (k : Config → Outcomes) : Prop :=
  ∀ ms s, next ms s = choose ms (k (s, ms))

variable {src : Chars} {next : MatchState → ℕ → Result} {k : Config → Outcomes}
  {accepts : UInt8 → Bool} {ms : MatchState} {s : ℕ}

theorem choose_append (ms : MatchState) (as bs : Outcomes) :
    choose ms (as ++ bs) =
      match choose ms as with
      | .ok (none, ms) => choose ms bs
      | r => r := by
  cases as with
  | nil => rfl
  | cons a as =>
    cases a with
    | error e => rfl
    | ok c => rfl

theorem choose_none {os : Outcomes} {ms' : MatchState} (h : choose ms os = .ok (none, ms')) :
    os = [] ∧ ms' = ms := by
  match os, h with
  | [], h =>
    cases h
    exact ⟨rfl, rfl⟩
  | .ok c :: _, h => cases h

theorem maxExpand_refines (h : Refines next k) (s i : ℕ) (ms : MatchState) :
    maxExpand next s i ms =
      choose ms (((List.range (i + 1)).reverse.map (s + ·)).flatMap fun s => k (s, ms)) := by
  induction i with
  | zero => simp [maxExpand, h ms s]
  | succ i ih =>
    rw [List.range_succ, List.reverse_append, List.map_append, List.flatMap_append, choose_append,
      List.reverse_singleton, List.map_singleton, List.flatMap_singleton, ← h, maxExpand]
    cases hr : next ms (s + (i + 1)) with
    | error e => rfl
    | ok r =>
      obtain ⟨_ | e, ms'⟩ := r
      · obtain ⟨-, rfl⟩ := choose_none ((h ms _).symm.trans hr)
        exact ih
      · rfl

theorem minExpand_refines (h : Refines next k) (accepts : UInt8 → Bool) (rest : Chars)
    (ms : MatchState) (s : ℕ) :
    minExpand next accepts rest ms s =
      choose ms (((List.range ((rest.takeWhile accepts).length + 1)).map (s + ·)).flatMap
        fun s => k (s, ms)) := by
  induction rest generalizing s with
  | nil => simp [minExpand, h ms s]
  | cons c rest ih =>
    rw [minExpand, List.range_succ_eq_map, List.map_cons, List.flatMap_cons, choose_append,
      Nat.add_zero, ← h]
    cases hr : next ms s with
    | error e => rfl
    | ok r =>
      obtain ⟨_ | e, ms'⟩ := r
      · obtain ⟨-, rfl⟩ := choose_none ((h ms _).symm.trans hr)
        by_cases hc : accepts c = true
        · have hmap : ∀ l : List ℕ, (l.map Nat.succ).map (s + ·) = l.map (s + 1 + ·) := by
            intro l
            rw [List.map_map]
            exact List.map_congr_left fun i _ => by
              simp only [Function.comp_apply]
              omega
          simp only [if_pos hc, ih, List.takeWhile_cons_of_pos hc, List.length_cons, hmap]
        · simp [hc, choose]
      · rfl

theorem startCapture_refines (h : Refines next k) (ms : MatchState) (s : ℕ) (what : CapLen) :
    startCapture next ms s what =
      choose ms ((step src (.startCapture what) (s, ms)).flatMap (andThen k)) := by
  rw [startCapture, step]
  by_cases hlevel : LUA_MAXCAPTURES ≤ ms.length
  · rw [if_pos hlevel, if_pos hlevel]
    rfl
  · rw [if_neg hlevel, if_neg hlevel, List.flatMap_singleton, andThen, h]
    cases hk : k (s, ms ++ [⟨s, what⟩]) with
    | nil => simp [choose]
    | cons o os => cases o <;> rfl

theorem unfinishedBelow_some {level l : ℕ} (h : unfinishedBelow ms level = some l) :
    ms[l]?.map Capture.len = some .unfinished := by
  induction level with
  | zero => cases h
  | succ level ih =>
    rw [unfinishedBelow] at h
    split_ifs at h with hu
    · cases h
      exact hu
    · exact ih h

theorem modify_undo {l : ℕ} (h : ms[l]?.map Capture.len = some .unfinished)
    (f : Capture → Capture) (hf : ∀ c, (f c).start = c.start) :
    (ms.modify l f).modify l (fun c => { c with len := .unfinished }) = ms := by
  rw [List.modify_modify_eq]
  apply List.ext_getElem?
  intro i
  rw [List.getElem?_modify, Option.map_eq_map]
  by_cases hi : l = i
  · subst hi
    obtain ⟨c, hc, hlen⟩ := Option.map_eq_some_iff.mp h
    simp only [hc, if_true, Function.comp_apply, Option.map_some, hf, ← hlen]
  · simp only [hi, if_false, Option.map_id']

theorem endCapture_refines (h : Refines next k) (ms : MatchState) (s : ℕ) :
    endCapture next ms s = choose ms ((step src .endCapture (s, ms)).flatMap (andThen k)) := by
  rw [endCapture, step]
  cases hl : captureToClose ms with
  | error e => rfl
  | ok l =>
    have hnext := h (ms.modify l fun c => { c with len := .closed (s - c.start) }) s
    simp only [List.flatMap_singleton, andThen]
    cases hk : k (s, ms.modify l fun c => { c with len := .closed (s - c.start) }) with
    | nil =>
      have hun : ms[l]?.map Capture.len = some .unfinished := by
        rw [captureToClose] at hl
        split at hl
        · next l' hl' =>
          cases hl
          exact unfinishedBelow_some hl'
        · cases hl
      rw [hk] at hnext
      simp only [hnext, choose]
      rw [modify_undo hun]
      exact fun c => rfl
    | cons o os =>
      rw [hk] at hnext
      cases o <;> simp only [hnext, choose]

theorem ends_refines (h : Refines next k) (e : Except Message (Option ℕ)) (ms : MatchState) :
    (match e with
      | .error e => .error e
      | .ok none => .ok (none, ms)
      | .ok (some s) => next ms s) = choose ms ((ends e ms).flatMap (andThen k)) := by
  match e with
  | .error e => rfl
  | .ok none => rfl
  | .ok (some s) =>
    rw [ends, List.flatMap_singleton]
    exact h ms s

theorem setEnd_length {p ep : Chars} (h : setEnd p = .ok ep) : ep.length < p.length := by
  fun_induction setEnd p with
  | case1 => cases h
  | case2 => cases h
  | case3 c p hend =>
    cases h
    simp only [List.length_cons, List.length_tail]
    omega
  | case4 c p hend ih =>
    have := ih h
    simp only [List.length_cons]
    omega
  | case5 c p hc hend =>
    cases h
    simp only [List.length_cons, List.length_tail]
    omega
  | case6 c p hc hend ih =>
    have := ih h
    simp only [List.length_cons]
    omega

theorem classend_length {p ep : Chars} (hp : p ≠ []) (h : classend p = .ok ep) :
    ep.length < p.length := by
  cases p with
  | nil => exact absurd rfl hp
  | cons c p =>
    rw [classend] at h
    rw [List.length_cons]
    by_cases hesc : c = 37
    · rw [if_pos hesc] at h
      split_ifs at h
      cases h
      rw [List.length_tail]
      omega
    · rw [if_neg hesc] at h
      by_cases hset : c = 91
      · rw [if_pos hset] at h
        have hlen := setEnd_length h
        split_ifs at hlen
        · rw [List.length_tail] at hlen
          omega
        · omega
      · rw [if_neg hset] at h
        cases h
        exact Nat.lt_succ_self _

theorem repetitionAt_length (ep : Chars) : (repetitionAt ep).2.length ≤ ep.length := by
  have htail : ep.tail.length ≤ ep.length := by
    rw [List.length_tail]
    omega
  unfold repetitionAt
  split_ifs
  · exact htail
  · exact htail
  · exact htail
  · exact htail
  · exact le_rfl

theorem nextItem_length {p : Chars} {r : Item × Chars} (h : nextItem p = some r) :
    r.2.length < p.length := by
  have hp : p ≠ [] := by
    rintro rfl
    cases h
  have hpos : 0 < p.length := List.length_pos_of_ne_nil hp
  have hdrop : ∀ n, (p.drop (n + 1)).length < p.length := by
    intro n
    rw [List.length_drop]
    omega
  rw [nextItem, if_neg hp] at h
  split_ifs at h
  · cases h
    exact hdrop 1
  · cases h
    rw [List.length_tail]
    omega
  · cases h
    rw [List.length_tail]
    omega
  · rw [balanceItem] at h
    split_ifs at h
    · cases h
      exact hpos
    · cases h
      rw [List.drop_drop]
      exact hdrop 3
  · rw [frontierItem] at h
    split_ifs at h with hset
    · cases h
      exact hpos
    · cases hep : classend (p.drop 2) with
      | error e =>
        rw [hep] at h
        cases h
        exact hpos
      | ok ep =>
        rw [hep] at h
        cases h
        refine (classend_length ?_ hep).trans (hdrop 1)
        intro hnil
        rw [hnil] at hset
        exact hset (by decide)
  · cases h
    exact hdrop 1
  · cases h
    exact hpos
  · rw [singleItem] at h
    cases hep : classend p with
    | error e =>
      rw [hep] at h
      cases h
      exact hpos
    | ok ep =>
      rw [hep] at h
      cases h
      exact (repetitionAt_length ep).trans_lt (classend_length hp hep)

theorem itemsOf_nil (n : ℕ) : itemsOf n [] = [] := by
  cases n <;> rfl

theorem itemsOf_cons {n : ℕ} {p : Chars} {r : Item × Chars} (h : nextItem p = some r) :
    itemsOf (n + 1) p = r.1 :: itemsOf n r.2 := by
  rw [itemsOf, h]

theorem single_refines {n : ℕ} {p ep : Chars} (hep : classend p = .ok ep)
    (h : ∀ q, q.length ≤ ep.length → Refines (fun ms s => matchAt src n ms s q)
      (meaning src (itemsOf n q))) (ms : MatchState) (s : ℕ) :
    (if ep.headD 0 = 63 then
        if s < src.length ∧ singlematch (at' src s) p ep then
          match matchAt src n ms (s + 1) ep.tail with
          | .ok (none, ms) => matchAt src n ms s ep.tail
          | r => r
        else matchAt src n ms s ep.tail
      else if ep.headD 0 = 42 then
        maxExpand (fun ms s => matchAt src n ms s ep.tail) s (expandCount src s p ep) ms
      else if ep.headD 0 = 43 then
        if s < src.length ∧ singlematch (at' src s) p ep then
          maxExpand (fun ms s => matchAt src n ms s ep.tail) (s + 1)
            (expandCount src (s + 1) p ep) ms
        else .ok (none, ms)
      else if ep.headD 0 = 45 then
        minExpand (fun ms s => matchAt src n ms s ep.tail) (fun c => singlematch c p ep)
          (src.drop s) ms s
      else if s < src.length ∧ singlematch (at' src s) p ep then matchAt src n ms (s + 1) ep
      else .ok (none, ms)) =
      choose ms ((step src (singleItem p).1 (s, ms)).flatMap
        (andThen (meaning src (itemsOf n (singleItem p).2)))) := by
  have htail := h ep.tail (by rw [List.length_tail]; omega)
  have hacc : Accepted src (fun c => singlematch c p ep) s ↔
      s < src.length ∧ singlematch (at' src s) p ep := Iff.rfl
  simp only [singleItem, hep, step, List.flatMap_map, andThen, repetitionAt]
  split_ifs with hopt hm hgreedy hone hm hlazy hm
  · simp only [repeated, if_pos (hacc.mpr hm), List.flatMap_cons, List.flatMap_nil, choose_append,
      ← htail ms, List.append_nil]
    cases hr : matchAt src n ms (s + 1) ep.tail with
    | error e => rfl
    | ok r =>
      obtain ⟨_ | e, ms'⟩ := r
      · obtain ⟨-, rfl⟩ := choose_none ((htail ms _).symm.trans hr)
        exact htail ms' s
      · rfl
  · simp only [repeated, if_neg (hacc.not.mpr hm), List.flatMap_singleton]
    exact htail ms s
  · exact maxExpand_refines htail s _ ms
  · simp only [repeated, if_pos (hacc.mpr hm)]
    exact maxExpand_refines htail (s + 1) _ ms
  · simp only [repeated, if_neg (hacc.not.mpr hm), List.flatMap_nil, choose]
  · exact minExpand_refines htail _ _ ms s
  · simp only [repeated, if_pos (hacc.mpr hm), List.flatMap_singleton]
    exact h ep le_rfl ms (s + 1)
  · simp only [repeated, if_neg (hacc.not.mpr hm), List.flatMap_nil, choose]

theorem balance_refines {n : ℕ} {p : Chars}
    (h : Refines (fun ms s => matchAt src n ms s (balanceItem p).2)
      (meaning src (itemsOf n (balanceItem p).2))) (ms : MatchState) (s : ℕ) :
    (match matchbalance src s p with
      | .error e => .error e
      | .ok none => .ok (none, ms)
      | .ok (some s) => matchAt src n ms s (p.drop 2)) =
      choose ms ((step src (balanceItem p).1 (s, ms)).flatMap
        (andThen (meaning src (itemsOf n (balanceItem p).2)))) := by
  rw [matchbalance]
  by_cases hbad : p.headD 0 = 0 ∨ p.tail.headD 0 = 0
  · rw [if_pos hbad, balanceItem, if_pos hbad]
    rfl
  · rw [balanceItem, if_neg hbad] at h ⊢
    rw [if_neg hbad, step]
    by_cases hat : at' src s = p.headD 0
    · rw [if_pos hat, if_neg (not_not.mpr hat)]
      exact ends_refines h _ ms
    · rw [if_neg hat, if_pos hat]
      rfl

theorem frontier_refines {n : ℕ} {p : Chars}
    (h : Refines (fun ms s => matchAt src n ms s (frontierItem p).2)
      (meaning src (itemsOf n (frontierItem p).2))) (ms : MatchState) (s : ℕ) :
    (if p.headD 0 ≠ 91 then .error "missing '[' after '%f' in pattern"
      else
        match classend p with
        | .error e => .error e
        | .ok ep =>
          if matchbracketclass (if s = 0 then 0 else at' src (s - 1)) (between p.tail ep) ∨
              ¬matchbracketclass (at' src s) (between p.tail ep) then
            .ok (none, ms)
          else matchAt src n ms s ep) =
      choose ms ((step src (frontierItem p).1 (s, ms)).flatMap
        (andThen (meaning src (itemsOf n (frontierItem p).2)))) := by
  by_cases hset : p.headD 0 ≠ 91
  · rw [if_pos hset, frontierItem, if_pos hset]
    rfl
  · rw [frontierItem, if_neg hset] at h ⊢
    rw [if_neg hset]
    cases hep : classend p with
    | error e => rfl
    | ok ep =>
      simp only [hep] at h ⊢
      rw [step]
      by_cases hno : matchbracketclass (if s = 0 then 0 else at' src (s - 1)) (between p.tail ep) ∨
          ¬matchbracketclass (at' src s) (between p.tail ep)
      · rw [if_pos hno, if_pos hno]
        rfl
      · rw [if_neg hno, if_neg hno, List.flatMap_singleton]
        exact h ms s

section Branches

variable {n : ℕ} {p : Chars}

theorem ne_nil_of_head {c : UInt8} (h : p.headD 0 = c) (hc : c ≠ 0) : p ≠ [] := by
  rintro rfl
  exact hc h.symm

def Continues (src : Chars) (n : ℕ) (p : Chars) : Prop :=
  ∀ r : Item × Chars, nextItem p = some r →
    Refines (fun ms s => matchAt src n ms s r.2) (meaning src (itemsOf n r.2))

theorem open_refines (hrest : Continues src n p) (hopen : p.headD 0 = 40) :
    Refines (fun ms s => matchAt src (n + 1) ms s p) (meaning src (itemsOf (n + 1) p)) := by
  intro ms s
  have hnil : p ≠ [] := ne_nil_of_head hopen (by decide)
  simp only [matchAt, if_neg hnil, if_pos hopen]
  by_cases hpos : p.tail.headD 0 = 41
  · have hitem : nextItem p = some (.startCapture .position, p.drop 2) := by
      rw [nextItem, if_neg hnil, if_pos hopen, if_pos hpos]
    rw [if_pos hpos, itemsOf_cons hitem]
    exact startCapture_refines (hrest _ hitem) ms s _
  · have hitem : nextItem p = some (.startCapture .unfinished, p.tail) := by
      rw [nextItem, if_neg hnil, if_pos hopen, if_neg hpos]
    rw [if_neg hpos, itemsOf_cons hitem]
    exact startCapture_refines (hrest _ hitem) ms s _

theorem close_refines (hrest : Continues src n p) (hclose : p.headD 0 = 41) :
    Refines (fun ms s => matchAt src (n + 1) ms s p) (meaning src (itemsOf (n + 1) p)) := by
  intro ms s
  have hnil : p ≠ [] := ne_nil_of_head hclose (by decide)
  have hopen : ¬p.headD 0 = 40 := fun h => absurd (hclose.symm.trans h) (by decide)
  have hitem : nextItem p = some (.endCapture, p.tail) := by
    rw [nextItem, if_neg hnil, if_neg hopen, if_pos hclose]
  simp only [matchAt, if_neg hnil, if_neg hopen, if_pos hclose]
  rw [itemsOf_cons hitem]
  exact endCapture_refines (hrest _ hitem) ms s

def Escape (p : Chars) : Prop :=
  p.headD 0 = 37 ∧ (p.tail.headD 0 = 98 ∨ p.tail.headD 0 = 102 ∨
    isdigitInt (p.tail.headD 0).toNat)

theorem escape_refines (hrest : Continues src n p) (hescape : Escape p) :
    Refines (fun ms s => matchAt src (n + 1) ms s p) (meaning src (itemsOf (n + 1) p)) := by
  intro ms s
  obtain ⟨hpercent, hbehind⟩ := hescape
  have hnil : p ≠ [] := ne_nil_of_head hpercent (by decide)
  have hopen : ¬p.headD 0 = 40 := fun h => absurd (hpercent.symm.trans h) (by decide)
  have hclose : ¬p.headD 0 = 41 := fun h => absurd (hpercent.symm.trans h) (by decide)
  simp only [matchAt, if_neg hnil, if_neg hopen, if_neg hclose]
  by_cases hbal : p.headD 0 = 37 ∧ p.tail.headD 0 = 98
  · have hitem : nextItem p = some (balanceItem (p.drop 2)) := by
      rw [nextItem, if_neg hnil, if_neg hopen, if_neg hclose, if_pos hbal]
    have hdrop : p.drop 4 = (p.drop 2).drop 2 := by rw [List.drop_drop]
    rw [if_pos hbal, itemsOf_cons hitem, hdrop]
    exact balance_refines (hrest _ hitem) ms s
  rw [if_neg hbal]
  by_cases hfront : p.headD 0 = 37 ∧ p.tail.headD 0 = 102
  · have hitem : nextItem p = some (frontierItem (p.drop 2)) := by
      rw [nextItem, if_neg hnil, if_neg hopen, if_neg hclose, if_neg hbal, if_pos hfront]
    have hdrop : p.drop 3 = (p.drop 2).tail := by rw [List.tail_drop]
    rw [if_pos hfront, itemsOf_cons hitem, hdrop]
    exact frontier_refines (hrest _ hitem) ms s
  have hcap : p.headD 0 = 37 ∧ isdigitInt (p.tail.headD 0).toNat :=
    ⟨hpercent, (hbehind.resolve_left fun h => hbal ⟨hpercent, h⟩).resolve_left
      fun h => hfront ⟨hpercent, h⟩⟩
  have hitem : nextItem p = some (.capture (p.tail.headD 0), p.drop 2) := by
    rw [nextItem, if_neg hnil, if_neg hopen, if_neg hclose, if_neg hbal, if_neg hfront,
      if_pos hcap]
  rw [if_neg hfront, if_pos hcap, itemsOf_cons hitem]
  exact ends_refines (hrest _ hitem) (matchCapture src ms s (p.tail.headD 0)) ms

theorem atEnd_refines (src : Chars) (n : ℕ) :
    Refines (fun ms s => matchAt src (n + 1) ms s [36]) (meaning src (itemsOf (n + 1) [36])) := by
  intro ms s
  have hitem : nextItem [36] = some (.atEnd, []) := rfl
  have hmatch : matchAt src (n + 1) ms s [36] =
      .ok (if s = src.length then some s else none, ms) := by
    simp [matchAt]
  show matchAt src (n + 1) ms s [36] = _
  rw [hmatch, itemsOf_cons hitem, itemsOf_nil, meaning, step]
  by_cases hs : s = src.length
  · rw [if_pos hs, if_pos hs]
    rfl
  · rw [if_neg hs, if_neg hs]
    rfl

end Branches

/-- From any place of the text, the matcher finds what is preferred of all that the pattern means.
Where it finds nothing it leaves the captures as they were. -/
theorem matchAt_refines (src : Chars) {n : ℕ} {p : Chars} (hp : p.length < n) :
    Refines (fun ms s => matchAt src n ms s p) (meaning src (itemsOf n p)) := by
  induction n generalizing p with
  | zero => exact absurd hp (Nat.not_lt_zero _)
  | succ n ih =>
    have hrest : Continues src n p := fun r h => ih (by have := nextItem_length h; omega)
    -- the cases are those of `match`, which are those of `nextItem`
    by_cases hopen : p.headD 0 = 40
    · exact open_refines hrest hopen
    by_cases hclose : p.headD 0 = 41
    · exact close_refines hrest hclose
    by_cases hescape : Escape p
    · exact escape_refines hrest hescape
    by_cases hend : p = [36]
    · rw [hend]
      exact atEnd_refines src n
    intro ms s
    have hbal : ¬(p.headD 0 = 37 ∧ p.tail.headD 0 = 98) :=
      fun h => hescape ⟨h.1, .inl h.2⟩
    have hfront : ¬(p.headD 0 = 37 ∧ p.tail.headD 0 = 102) :=
      fun h => hescape ⟨h.1, .inr (.inl h.2)⟩
    have hcap : ¬(p.headD 0 = 37 ∧ isdigitInt (p.tail.headD 0).toNat) :=
      fun h => hescape ⟨h.1, .inr (.inr h.2)⟩
    by_cases hnil : p = []
    · have hitems : itemsOf (n + 1) p = [] := by
        rw [itemsOf, nextItem, if_pos hnil]
      simp only [matchAt]
      rw [if_pos hnil, hitems]
      rfl
    have hitem : nextItem p = some (singleItem p) := by
      rw [nextItem, if_neg hnil, if_neg hopen, if_neg hclose, if_neg hbal, if_neg hfront,
        if_neg hcap, if_neg hend]
    simp only [matchAt]
    rw [if_neg hnil, if_neg hopen, if_neg hclose, if_neg hbal, if_neg hfront, if_neg hcap,
      if_neg hend, itemsOf_cons hitem]
    cases hep : classend p with
    | error e =>
      simp only [singleItem, hep]
      rfl
    | ok ep =>
      have hlen := classend_length hnil hep
      exact single_refines hep (fun q hq => ih (by omega)) ms s

end Refinement

section Bounds

/-- A place of the text, and captures in front of it. -/
structure Placed (src : Chars) (c : Config) : Prop where
  inside : c.1 ≤ src.length
  started : ∀ cap ∈ c.2, cap.start ≤ c.1
  closed : ∀ cap ∈ c.2, ∀ n, cap.len = .closed n → cap.start + n ≤ c.1

variable {src : Chars} {s t : ℕ} {ms : MatchState} {c d : Config}

theorem Placed.start (hs : s ≤ src.length) : Placed src (s, []) where
  inside := hs
  started cap hcap := by cases hcap
  closed cap hcap := by cases hcap

theorem Placed.forward (h : Placed src (s, ms)) (hst : s ≤ t) (ht : t ≤ src.length) :
    Placed src (t, ms) where
  inside := ht
  started cap hcap := (h.started cap hcap).trans hst
  closed cap hcap n hn := (h.closed cap hcap n hn).trans hst

theorem Placed.startCapture (h : Placed src (s, ms)) {what : CapLen}
    (hwhat : ∀ n, what ≠ .closed n) : Placed src (s, ms ++ [⟨s, what⟩]) where
  inside := h.inside
  started cap hcap := by
    obtain hold | hnew := List.mem_append.mp hcap
    · exact h.started cap hold
    · rw [List.mem_singleton.mp hnew]
  closed cap hcap n hn := by
    obtain hold | hnew := List.mem_append.mp hcap
    · exact h.closed cap hold n hn
    · rw [List.mem_singleton.mp hnew] at hn
      exact absurd hn (hwhat n)

theorem mem_modify {l : ℕ} {f : Capture → Capture} {cap : Capture} (h : cap ∈ ms.modify l f) :
    cap ∈ ms ∨ ∃ old ∈ ms, cap = f old := by
  obtain ⟨i, hi⟩ := List.mem_iff_getElem?.mp h
  rw [List.getElem?_modify, Option.map_eq_map] at hi
  obtain ⟨old, hold, hcap⟩ := Option.map_eq_some_iff.mp hi
  have hmem : old ∈ ms := List.mem_of_getElem? hold
  split_ifs at hcap with hl
  · exact .inr ⟨old, hmem, hcap.symm⟩
  · exact .inl (hcap ▸ hmem)

theorem Placed.endCapture (h : Placed src (s, ms)) (l : ℕ) :
    Placed src (s, ms.modify l fun c => { c with len := .closed (s - c.start) }) where
  inside := h.inside
  started cap hcap := by
    obtain hold | ⟨old, hold, rfl⟩ := mem_modify hcap
    · exact h.started cap hold
    · exact h.started old hold
  closed cap hcap n hn := by
    obtain hold | ⟨old, hold, rfl⟩ := mem_modify hcap
    · exact h.closed cap hold n hn
    · have hle := h.started old hold
      cases hn
      dsimp only at hle ⊢
      omega

theorem balanceFrom_bounds {b e : UInt8} {rest : Chars} {cont : ℕ}
    (h : balanceFrom b e rest cont s = some t) : s < t ∧ t ≤ s + rest.length := by
  induction rest generalizing cont s with
  | nil => cases h
  | cons c rest ih =>
    rw [balanceFrom] at h
    rw [List.length_cons]
    split_ifs at h
    · cases h
      omega
    · have := ih h
      omega
    · have := ih h
      omega
    · have := ih h
      omega

theorem matchCapture_bounds {l : UInt8} (hs : s ≤ src.length)
    (h : matchCapture src ms s l = .ok (some t)) : s ≤ t ∧ t ≤ src.length := by
  rw [matchCapture] at h
  cases hc : checkCapture ms l with
  | error e =>
    rw [hc] at h
    cases h
  | ok cap =>
    rw [hc] at h
    simp only at h
    cases hlen : cap.len with
    | closed len =>
      rw [hlen] at h
      simp only at h
      split_ifs at h with hle
      · cases h
        omega
      · cases h
    | unfinished =>
      rw [hlen] at h
      cases h
    | position =>
      rw [hlen] at h
      cases h

theorem run_le (src : Chars) (accepts : UInt8 → Bool) (s : ℕ) :
    run src accepts s ≤ src.length - s := by
  rw [run, ← List.length_drop]
  exact List.Sublist.length_le (List.takeWhile_sublist _)

theorem repeated_bounds {accepts : UInt8 → Bool} {repetition : Repetition} (hs : s ≤ src.length)
    (h : t ∈ repeated src accepts s repetition) : s ≤ t ∧ t ≤ src.length := by
  have hrun := run_le src accepts s
  have hrun' := run_le src accepts (s + 1)
  cases repetition with
  | once =>
    rw [repeated] at h
    split_ifs at h with ha
    · obtain rfl := List.mem_singleton.mp h
      have := ha.1
      omega
    · cases h
  | optional =>
    rw [repeated] at h
    split_ifs at h with ha
    · have := ha.1
      obtain rfl | h := List.mem_cons.mp h
      · omega
      · obtain rfl := List.mem_singleton.mp h
        omega
    · obtain rfl := List.mem_singleton.mp h
      omega
  | greedy =>
    obtain ⟨i, hi, rfl⟩ := List.mem_map.mp h
    rw [List.mem_reverse, List.mem_range] at hi
    omega
  | greedyOne =>
    rw [repeated] at h
    split_ifs at h with ha
    · have := ha.1
      obtain ⟨i, hi, rfl⟩ := List.mem_map.mp h
      rw [List.mem_reverse, List.mem_range] at hi
      omega
    · cases h
  | lazy =>
    obtain ⟨i, hi, rfl⟩ := List.mem_map.mp h
    rw [List.mem_range] at hi
    omega

def Item.Proper : Item → Prop
  | .startCapture what => ∀ n, what ≠ .closed n
  | _ => True

theorem mem_ends {e : Except Message (Option ℕ)} (h : .ok d ∈ ends e ms) :
    ∃ t, e = .ok (some t) ∧ d = (t, ms) := by
  match e, h with
  | .error e, h => cases List.mem_singleton.mp h
  | .ok (some t), h =>
    cases List.mem_singleton.mp h
    exact ⟨t, rfl, rfl⟩

theorem step_placed {item : Item} (hitem : item.Proper) (hc : Placed src c)
    (h : .ok d ∈ step src item c) : Placed src d ∧ c.1 ≤ d.1 := by
  obtain ⟨s, ms⟩ := c
  have hs : s ≤ src.length := hc.inside
  cases item with
  | startCapture what =>
    rw [step] at h
    split_ifs at h
    · cases List.mem_singleton.mp h
    · cases List.mem_singleton.mp h
      exact ⟨hc.startCapture hitem, le_rfl⟩
  | endCapture =>
    rw [step] at h
    split at h
    · cases List.mem_singleton.mp h
    · cases List.mem_singleton.mp h
      exact ⟨hc.endCapture _, le_rfl⟩
  | balance b e =>
    rw [step] at h
    split_ifs at h
    · obtain ⟨t, ht, rfl⟩ := mem_ends h
      have hb := balanceFrom_bounds (Except.ok.inj ht)
      rw [List.length_drop] at hb
      exact ⟨hc.forward (by omega) (by omega), by dsimp only; omega⟩
    · cases h
  | frontier accepts =>
    rw [step] at h
    split_ifs at h
    · cases h
    · cases List.mem_singleton.mp h
      exact ⟨hc, le_rfl⟩
    · cases h
    · cases List.mem_singleton.mp h
      exact ⟨hc, le_rfl⟩
  | capture l =>
    obtain ⟨t, ht, rfl⟩ := mem_ends h
    have hb := matchCapture_bounds hs ht
    exact ⟨hc.forward hb.1 hb.2, hb.1⟩
  | atEnd =>
    rw [step] at h
    split_ifs at h
    · cases List.mem_singleton.mp h
      exact ⟨hc, le_rfl⟩
    · cases h
  | single accepts repetition =>
    obtain ⟨t, ht, hd⟩ := List.mem_map.mp h
    cases hd
    have hb := repeated_bounds hs ht
    exact ⟨hc.forward hb.1 hb.2, hb.1⟩
  | malformed e => cases List.mem_singleton.mp h

theorem meaning_placed {is : List Item} (his : ∀ item ∈ is, item.Proper) (hc : Placed src c)
    (h : .ok d ∈ meaning src is c) : Placed src d ∧ c.1 ≤ d.1 := by
  induction is generalizing c with
  | nil =>
    cases List.mem_singleton.mp h
    exact ⟨hc, le_rfl⟩
  | cons item is ih =>
    obtain ⟨o, ho, hd⟩ := List.mem_flatMap.mp h
    cases o with
    | error e => cases List.mem_singleton.mp hd
    | ok b =>
      obtain ⟨hb, hle⟩ := step_placed (his item List.mem_cons_self) hc ho
      obtain ⟨hd, hle'⟩ := ih (fun i hi => his i (List.mem_cons_of_mem item hi)) hb hd
      exact ⟨hd, hle.trans hle'⟩

theorem nextItem_proper {p : Chars} {r : Item × Chars} (h : nextItem p = some r) :
    r.1.Proper := by
  rw [nextItem] at h
  split_ifs at h
  · cases h
    exact fun n hn => by cases hn
  · cases h
    exact fun n hn => by cases hn
  · cases h
    exact trivial
  · cases h
    rw [balanceItem]
    split_ifs <;> exact trivial
  · cases h
    rw [frontierItem]
    split_ifs
    · exact trivial
    · split <;> exact trivial
  · cases h
    exact trivial
  · cases h
    exact trivial
  · cases h
    rw [singleItem]
    split <;> exact trivial

theorem itemsOf_proper (n : ℕ) (p : Chars) : ∀ item ∈ itemsOf n p, item.Proper := by
  induction n generalizing p with
  | zero =>
    intro item h
    cases h
  | succ n ih =>
    cases hr : nextItem p with
    | none =>
      rw [itemsOf, hr]
      intro item h
      cases h
    | some r =>
      rw [itemsOf_cons hr]
      intro item h
      obtain rfl | h := List.mem_cons.mp h
      · exact nextItem_proper hr
      · exact ih r.2 item h

end Bounds

/-- The matcher ends where the first outcome of the pattern does, and with its captures. Without
any outcome, the captures are as they were. -/
theorem match_preferred {src p : Chars} {s : ℕ} {ms : MatchState} (h : Placed src (s, ms)) :
    (meaning src (items p) (s, ms) = [] ∧
        matchAt src (p.length + 1) ms s p = .ok (none, ms)) ∨
      (∃ e ms', (meaning src (items p) (s, ms)).head? = some (.ok (e, ms')) ∧
        matchAt src (p.length + 1) ms s p = .ok (some e, ms') ∧ s ≤ e ∧ Placed src (e, ms')) ∨
      ∃ msg, (meaning src (items p) (s, ms)).head? = some (.error msg) ∧
        matchAt src (p.length + 1) ms s p = .error msg := by
  have hmatch : matchAt src (p.length + 1) ms s p = choose ms (meaning src (items p) (s, ms)) :=
    matchAt_refines src (Nat.lt_succ_self _) ms s
  rw [hmatch]
  cases ho : meaning src (items p) (s, ms) with
  | nil => exact .inl ⟨rfl, rfl⟩
  | cons o os =>
    cases o with
    | error msg => exact .inr (.inr ⟨msg, rfl, rfl⟩)
    | ok c =>
      have hmem : .ok c ∈ meaning src (items p) (s, ms) := by
        rw [ho]
        exact List.mem_cons_self
      obtain ⟨hplaced, hle⟩ := meaning_placed (itemsOf_proper _ p) h hmem
      exact .inr (.inl ⟨c.1, c.2, rfl, rfl, hle, hplaced⟩)

theorem lazy_preferred :
    (meaning [97, 97, 98] (items [40, 97, 45, 41, 98]) (0, []) = [] ∧
        matchAt [97, 97, 98] 6 [] 0 [40, 97, 45, 41, 98] = .ok (none, [])) ∨
      (∃ e ms', (meaning [97, 97, 98] (items [40, 97, 45, 41, 98]) (0, [])).head? =
          some (.ok (e, ms')) ∧
        matchAt [97, 97, 98] 6 [] 0 [40, 97, 45, 41, 98] = .ok (some e, ms') ∧ 0 ≤ e ∧
          Placed [97, 97, 98] (e, ms')) ∨
      ∃ msg, (meaning [97, 97, 98] (items [40, 97, 45, 41, 98]) (0, [])).head? =
          some (.error msg) ∧
        matchAt [97, 97, 98] 6 [] 0 [40, 97, 45, 41, 98] = .error msg :=
  match_preferred (Placed.start (by decide))

end Jiauliyan.PatternMeaning
