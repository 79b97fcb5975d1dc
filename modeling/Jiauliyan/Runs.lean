import Mathlib.Data.List.TakeWhile
import Mathlib.Tactic.Cases

namespace Jiauliyan.Runs

variable {α : Type}

/-- The longest prefix of `l` of which every element has the property has `n` elements. -/
def Longest (P : α → Prop) (l : List α) (n : ℕ) : Prop :=
  n ≤ l.length ∧ (∀ b ∈ l.take n, P b) ∧ ∀ m ≤ l.length, (∀ b ∈ l.take m, P b) → m ≤ n

section Prefixes

variable (P : α → Prop) [DecidablePred P] (l : List α)

def spanLength : ℕ := (l.takeWhile fun b => decide (P b)).length

theorem spanLength_longest : Longest P l (spanLength P l) := by
  have hpre : l.takeWhile (fun b => decide (P b)) <+: l := List.takeWhile_prefix _
  refine ⟨hpre.length_le, fun b hb => ?_, fun m hm hall => ?_⟩
  · rw [spanLength, ← List.prefix_iff_eq_take.mp hpre] at hb
    have htaken := List.mem_takeWhile_imp hb
    exact of_decide_eq_true htaken
  · -- the first `m` elements are all taken
    have htake : l.takeWhile (fun b => decide (P b)) =
        l.take m ++ (l.drop m).takeWhile fun b => decide (P b) := by
      rw [← List.takeWhile_append_of_pos fun b hb => decide_eq_true (hall b hb),
        List.take_append_drop]
    rw [spanLength, htake, List.length_append, List.length_take, min_eq_left hm]
    exact Nat.le_add_right _ _

theorem spanLength_le : spanLength P l ≤ l.length := (spanLength_longest P l).1

variable {l} {b : α}

theorem spanLength_cons_pos (hb : P b) : spanLength P (b :: l) = spanLength P l + 1 := by
  rw [spanLength, List.takeWhile_cons, if_pos (decide_eq_true hb), List.length_cons, spanLength]

theorem spanLength_cons_neg (hb : ¬P b) : spanLength P (b :: l) = 0 := by
  rw [spanLength, List.takeWhile_cons, if_neg (by simpa using hb), List.length_nil]

theorem spanLength_mem {k : ℕ} (hk : k < spanLength P l) (hb : l[k]? = some b) : P b := by
  obtain ⟨-, hall, -⟩ := spanLength_longest P l
  apply hall
  rw [← List.getElem?_take_of_lt hk] at hb
  exact List.mem_of_getElem? hb

theorem spanLength_stop (hb : l[spanLength P l]? = some b) : ¬P b := by
  intro hp
  obtain ⟨hlen, hall, hmax⟩ := spanLength_longest P l
  obtain ⟨hlt, hget⟩ := List.getElem?_eq_some_iff.mp hb
  refine absurd (hmax (spanLength P l + 1) hlt fun x hx => ?_) (by omega)
  rw [List.take_succ_eq_append_getElem hlt, List.mem_append, List.mem_singleton] at hx
  obtain hx | rfl := hx
  · exact hall x hx
  · rwa [hget]

end Prefixes

-- A run is given by the index of its first element and the index behind its last one.
variable {Sep : α → Prop} {l : List α} {p i j i' j' : ℕ}

structure FirstRun (Sep : α → Prop) (l : List α) (p i j : ℕ) : Prop where
  start : p ≤ i
  skipped : ∀ k b, p ≤ k → k < i → l[k]? = some b → Sep b
  nonempty : i < j
  inside : j ≤ l.length
  kept : ∀ k b, i ≤ k → k < j → l[k]? = some b → ¬Sep b
  ended : ∀ b, l[j]? = some b → Sep b

structure MaximalRun (Sep : α → Prop) (l : List α) (i j : ℕ) : Prop where
  nonempty : i < j
  inside : j ≤ l.length
  kept : ∀ k b, i ≤ k → k < j → l[k]? = some b → ¬Sep b
  started : ∀ k b, k + 1 = i → l[k]? = some b → Sep b
  ended : ∀ b, l[j]? = some b → Sep b

/-- All runs in order. -/
structure AllRuns (Sep : α → Prop) (l : List α) (rs : List (ℕ × ℕ)) : Prop where
  sorted : rs.Pairwise fun r r' => r.2 < r'.1
  mem_iff : ∀ i j, (i, j) ∈ rs ↔ MaximalRun Sep l i j

def Boundary (Sep : α → Prop) (l : List α) (p : ℕ) : Prop :=
  ∀ k b, k + 1 = p → l[k]? = some b → Sep b

theorem FirstRun.maximal (h : FirstRun Sep l p i j) (hp : Boundary Sep l p) :
    MaximalRun Sep l i j := by
  refine ⟨h.nonempty, h.inside, h.kept, fun k b hk hb => ?_, h.ended⟩
  have hstart := h.start
  obtain heq | hlt := Nat.eq_or_lt_of_le hstart
  · exact hp k b (hk.trans heq.symm) hb
  · exact h.skipped k b (by omega) (by omega) hb

theorem FirstRun.boundary (h : FirstRun Sep l p i j) : Boundary Sep l (j + 1) := by
  intro k b hk hb
  obtain rfl := Nat.succ.inj hk
  exact h.ended b hb

theorem not_ended (hlt : j < j') (hin : j' ≤ l.length) (hij : i ≤ j)
    (hkept : ∀ k b, i ≤ k → k < j' → l[k]? = some b → ¬Sep b) :
    ¬∀ b, l[j]? = some b → Sep b := fun hend =>
  have hget := List.getElem?_eq_getElem (hlt.trans_le hin)
  hkept j _ hij hlt hget (hend _ hget)

theorem end_unique (hij : i < j) (hij' : i < j') (hin : j ≤ l.length) (hin' : j' ≤ l.length)
    (hkept : ∀ k b, i ≤ k → k < j → l[k]? = some b → ¬Sep b)
    (hkept' : ∀ k b, i ≤ k → k < j' → l[k]? = some b → ¬Sep b)
    (hend : ∀ b, l[j]? = some b → Sep b) (hend' : ∀ b, l[j']? = some b → Sep b) : j' = j := by
  obtain hlt | heq | hlt := Nat.lt_trichotomy j' j
  · exact absurd hend' (not_ended hlt hin hij'.le hkept)
  · exact heq
  · exact absurd hend (not_ended hlt hin' hij.le hkept')

theorem FirstRun.start_le (h : FirstRun Sep l p i j) (hp : p ≤ i') (hij' : i' < j')
    (hin' : j' ≤ l.length) (hkept' : ∀ k b, i' ≤ k → k < j' → l[k]? = some b → ¬Sep b) :
    i ≤ i' := by
  by_contra hlt
  have hget := List.getElem?_eq_getElem (hij'.trans_le hin')
  exact hkept' i' _ le_rfl hij' hget (h.skipped i' _ hp (not_le.mp hlt) hget)

theorem FirstRun.unique (h : FirstRun Sep l p i j) (h' : FirstRun Sep l p i' j') :
    i' = i ∧ j' = j := by
  have hle := h.start_le h'.start h'.nonempty h'.inside h'.kept
  have hge := h'.start_le h.start h.nonempty h.inside h.kept
  obtain rfl := Nat.le_antisymm hle hge
  exact ⟨rfl, end_unique h.nonempty h'.nonempty h.inside h'.inside h.kept h'.kept h.ended h'.ended⟩

theorem FirstRun.eq_or_later (h : FirstRun Sep l p i j) (h' : MaximalRun Sep l i' j')
    (hp : p ≤ i') : (i' = i ∧ j' = j) ∨ j < i' := by
  have hi : i ≤ i' := h.start_le hp h'.nonempty h'.inside h'.kept
  obtain rfl | hlt := Nat.eq_or_lt_of_le hi
  · exact .inl ⟨rfl, end_unique h.nonempty h'.nonempty h.inside h'.inside h.kept h'.kept
      h.ended h'.ended⟩
  · right
    by_contra hle
    have hne' := h'.nonempty
    have hin' := h'.inside
    have hget := List.getElem?_eq_getElem (show i' - 1 < l.length by omega)
    exact h.kept (i' - 1) _ (by omega) (by omega) hget
      (h'.started (i' - 1) _ (by omega) hget)

section Search

variable (Sep) [DecidablePred Sep] (l)

def nextRun (p : ℕ) : Option (ℕ × ℕ) :=
  let i := p + spanLength Sep (l.drop p)
  if i < l.length then some (i, i + spanLength (fun b => ¬Sep b) (l.drop i)) else none

variable {Sep l}

theorem skip_sep {k : ℕ} {b : α} (hpk : p ≤ k) (hk : k < p + spanLength Sep (l.drop p))
    (hb : l[k]? = some b) : Sep b := by
  refine spanLength_mem Sep (l := l.drop p) (k := k - p) (by omega) ?_
  rw [List.getElem?_drop, Nat.add_sub_cancel' hpk, hb]

theorem nextRun_none (h : nextRun Sep l p = none) {k : ℕ} {b : α} (hpk : p ≤ k)
    (hb : l[k]? = some b) : Sep b := by
  obtain ⟨hlt, -⟩ := List.getElem?_eq_some_iff.mp hb
  have hle : ¬p + spanLength Sep (l.drop p) < l.length := fun hlt' => by
    simp [nextRun, hlt'] at h
  exact skip_sep hpk (by omega) hb

theorem nextRun_first (h : nextRun Sep l p = some (i, j)) : FirstRun Sep l p i j := by
  rw [nextRun] at h
  split_ifs at h with hlt
  obtain ⟨rfl, rfl⟩ := Prod.mk.inj (Option.some.inj h)
  generalize hi : p + spanLength Sep (l.drop p) = i at hlt
  have hnot : ¬Sep l[i] := by
    apply spanLength_stop Sep (l := l.drop p)
    rw [List.getElem?_drop, hi, List.getElem?_eq_getElem hlt]
  have hlen := spanLength_le (fun b => ¬Sep b) (l.drop i)
  rw [List.length_drop] at hlen
  refine ⟨by omega, fun k b hpk hk hb => skip_sep hpk (hi ▸ hk) hb, ?_, by omega, ?_, ?_⟩
  · rw [List.drop_eq_getElem_cons hlt, spanLength_cons_pos (fun b => ¬Sep b) hnot]
    omega
  · intro k b hik hk hb
    refine spanLength_mem (fun b => ¬Sep b) (l := l.drop i) (k := k - i) (by omega) ?_
    rw [List.getElem?_drop, Nat.add_sub_cancel' hik, hb]
  · intro b hb
    by_contra hsep
    rw [← List.getElem?_drop] at hb
    exact spanLength_stop (fun b => ¬Sep b) hb hsep

theorem nextRun_eq_none_iff :
    nextRun Sep l p = none ↔ ∀ k b, p ≤ k → l[k]? = some b → Sep b := by
  refine ⟨fun h k b => nextRun_none h, fun hall => ?_⟩
  cases h : nextRun Sep l p with
  | none => rfl
  | some r =>
    have hrun := nextRun_first h
    have hget := List.getElem?_eq_getElem (hrun.nonempty.trans_le hrun.inside)
    exact absurd (hall _ _ hrun.start hget) (hrun.kept _ _ le_rfl hrun.nonempty hget)

theorem nextRun_eq_some_iff : nextRun Sep l p = some (i, j) ↔ FirstRun Sep l p i j := by
  refine ⟨nextRun_first, fun hrun => ?_⟩
  cases h : nextRun Sep l p with
  | none =>
    have hget := List.getElem?_eq_getElem (hrun.nonempty.trans_le hrun.inside)
    exact absurd (nextRun_none h hrun.start hget) (hrun.kept _ _ le_rfl hrun.nonempty hget)
  | some r =>
    obtain ⟨hi, hj⟩ := hrun.unique (nextRun_first h)
    exact congrArg some (Prod.ext hi hj)

def runsFrom (Sep : α → Prop) [DecidablePred Sep] (l : List α) (p : ℕ) : List (ℕ × ℕ) :=
  match _h : nextRun Sep l p with
  | none => []
  | some (i, j) => (i, j) :: runsFrom Sep l (j + 1)
termination_by l.length - p
decreasing_by
  have hrun := nextRun_first ‹nextRun Sep l p = some (i, j)›
  have hstart := hrun.start
  have hne := hrun.nonempty
  have hin := hrun.inside
  omega

theorem runsFrom_none (h : nextRun Sep l p = none) : runsFrom Sep l p = [] := by
  rw [runsFrom]
  split
  · rfl
  · rename_i hsome
    rw [h] at hsome
    cases hsome

theorem runsFrom_some (h : nextRun Sep l p = some (i, j)) :
    runsFrom Sep l p = (i, j) :: runsFrom Sep l (j + 1) := by
  rw [runsFrom]
  split
  · rename_i hnone
    rw [h] at hnone
    cases hnone
  · rename_i hsome
    rw [h] at hsome
    cases hsome
    rfl

theorem mem_runsFrom (hp : Boundary Sep l p) :
    (i, j) ∈ runsFrom Sep l p ↔ MaximalRun Sep l i j ∧ p ≤ i := by
  induction p using runsFrom.induct Sep l generalizing i j with
  | case1 p hnone =>
    rw [runsFrom_none hnone]
    refine iff_of_false List.not_mem_nil ?_
    rintro ⟨hrun, hpi⟩
    have hget := List.getElem?_eq_getElem (hrun.nonempty.trans_le hrun.inside)
    exact hrun.kept i _ le_rfl hrun.nonempty hget (nextRun_none hnone hpi hget)
  | case2 p i' j' hsome ih =>
    have hfirst := nextRun_first hsome
    have hstart := hfirst.start
    have hne := hfirst.nonempty
    rw [runsFrom_some hsome, List.mem_cons, ih hfirst.boundary, Prod.mk.injEq]
    constructor
    · rintro (⟨rfl, rfl⟩ | ⟨hrun, hle⟩)
      · exact ⟨hfirst.maximal hp, hstart⟩
      · exact ⟨hrun, by omega⟩
    · rintro ⟨hrun, hpi⟩
      exact (hfirst.eq_or_later hrun hpi).imp_right fun hlt => ⟨hrun, hlt⟩

theorem le_of_mem_runsFrom {r : ℕ × ℕ} (h : r ∈ runsFrom Sep l p) : p ≤ r.1 := by
  induction p using runsFrom.induct Sep l with
  | case1 p hnone =>
    rw [runsFrom_none hnone] at h
    cases h
  | case2 p i j hsome ih =>
    have hfirst := nextRun_first hsome
    have hstart := hfirst.start
    have hne := hfirst.nonempty
    rw [runsFrom_some hsome] at h
    obtain rfl | h := List.mem_cons.mp h
    · exact hstart
    · have hle := ih h
      omega

theorem runsFrom_sorted : (runsFrom Sep l p).Pairwise fun r r' => r.2 < r'.1 := by
  induction p using runsFrom.induct Sep l with
  | case1 p hnone =>
    rw [runsFrom_none hnone]
    exact List.Pairwise.nil
  | case2 p i j hsome ih =>
    rw [runsFrom_some hsome]
    exact List.Pairwise.cons (fun r hr => le_of_mem_runsFrom hr) ih

theorem runsFrom_all : AllRuns Sep l (runsFrom Sep l 0) :=
  ⟨runsFrom_sorted, fun _ _ => (mem_runsFrom fun k _ hk => absurd hk (Nat.succ_ne_zero k)).trans
    (and_iff_left (Nat.zero_le _))⟩

theorem runsFrom_of_le (h : l.length ≤ p) : runsFrom Sep l p = [] :=
  runsFrom_none (nextRun_eq_none_iff.mpr fun k b hpk hb => by
    obtain ⟨hlt, -⟩ := List.getElem?_eq_some_iff.mp hb
    omega)

end Search

end Jiauliyan.Runs
