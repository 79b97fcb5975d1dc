import Mathlib.Data.List.Basic
import Mathlib.Data.Nat.Notation

namespace Jiauliyan.LuaPattern

variable {α : Type}

/-- A pattern of one class of characters after the other, each for one character. -/
structure Pattern (α : Type) where
  first : α → Bool
  rest : List (α → Bool)

def matchClasses : List (α → Bool) → List α → Option (List α × List α)
  | [], s => some ([], s)
  | _ :: _, [] => none
  | p :: ps, c :: s =>
    if p c then (matchClasses ps s).map fun (m, rest) => (c :: m, rest) else none

def Pattern.matchAt (pattern : Pattern α) (s : List α) : Option (List α × List α) :=
  matchClasses (pattern.first :: pattern.rest) s

theorem matchClasses_some {ps : List (α → Bool)} {s m rest : List α}
    (h : matchClasses ps s = some (m, rest)) : s = m ++ rest ∧ m.length = ps.length := by
  induction ps generalizing s m with
  | nil =>
    obtain ⟨rfl, rfl⟩ := Prod.mk.inj (Option.some.inj h)
    exact ⟨rfl, rfl⟩
  | cons p ps ih =>
    cases s with
    | nil => cases h
    | cons c s =>
      rw [matchClasses] at h
      by_cases hc : p c = true
      · rw [if_pos hc] at h
        obtain ⟨⟨m', rest'⟩, hm, he⟩ := Option.map_eq_some_iff.mp h
        obtain ⟨rfl, rfl⟩ := Prod.mk.inj he
        obtain ⟨rfl, hlen⟩ := ih hm
        exact ⟨rfl, congrArg (· + 1) hlen⟩
      · rw [if_neg hc] at h
        cases h

variable {pattern : Pattern α} {repl : List α → List α} {max n : ℕ} {c : α} {src m rest : List α}

theorem matchAt_some (h : pattern.matchAt src = some (m, rest)) :
    src = m ++ rest ∧ 0 < m.length := by
  obtain ⟨rfl, hlen⟩ := matchClasses_some h
  refine ⟨rfl, ?_⟩
  rw [hlen]
  exact Nat.zero_lt_succ _

def gsubFrom (pattern : Pattern α) (repl : List α → List α) (max n : ℕ) (src : List α) :
    List α × ℕ :=
  if n < max then
    match _h : pattern.matchAt src with
    | some (m, rest) =>
      let r := gsubFrom pattern repl max (n + 1) rest
      (repl m ++ r.1, r.2)
    | none =>
      match src with
      | [] => ([], n)
      | c :: src =>
        let r := gsubFrom pattern repl max n src
        (c :: r.1, r.2)
  else (src, n)
termination_by src.length
decreasing_by
  · obtain ⟨rfl, hpos⟩ := matchAt_some ‹_›
    rw [List.length_append]
    omega
  · exact Nat.lt_succ_self _

/-- The new text, and the number of substitutions. -/
def gsub (pattern : Pattern α) (repl : List α → List α) (max : Option ℕ) (src : List α) :
    List α × ℕ :=
  gsubFrom pattern repl (max.getD (src.length + 1)) 0 src

theorem gsubFrom_stop (hn : ¬n < max) : gsubFrom pattern repl max n src = (src, n) := by
  rw [gsubFrom, if_neg hn]

theorem gsubFrom_match (hn : n < max) (h : pattern.matchAt src = some (m, rest)) :
    gsubFrom pattern repl max n src =
      (repl m ++ (gsubFrom pattern repl max (n + 1) rest).1,
        (gsubFrom pattern repl max (n + 1) rest).2) := by
  rw [gsubFrom, if_pos hn]
  split
  · next m' rest' h' =>
    obtain ⟨rfl, rfl⟩ := Prod.mk.inj (Option.some.inj (h.symm.trans h'))
    rfl
  · next h' => cases h.symm.trans h'

theorem gsubFrom_skip (hn : n < max) (h : pattern.matchAt (c :: src) = none) :
    gsubFrom pattern repl max n (c :: src) =
      (c :: (gsubFrom pattern repl max n src).1, (gsubFrom pattern repl max n src).2) := by
  rw [gsubFrom, if_pos hn]
  split
  · next m' rest' h' => cases h.symm.trans h'
  · rfl

theorem gsubFrom_nil : gsubFrom pattern repl max n [] = ([], n) := by
  by_cases hn : n < max
  · rw [gsubFrom, if_pos hn]
    split
    · next m' rest' h' => cases h'
    · rfl
  · exact gsubFrom_stop hn

theorem matchAt_class (p : α → Bool) (c : α) (s : List α) :
    (⟨p, []⟩ : Pattern α).matchAt (c :: s) = if p c then some ([c], s) else none := rfl

theorem gsubFrom_class {p : α → Bool} (h : n + src.length < max) :
    (gsubFrom ⟨p, []⟩ repl max n src).1 = src.flatMap fun c => if p c then repl [c] else [c] := by
  induction src generalizing n with
  | nil => rw [gsubFrom_nil, List.flatMap_nil]
  | cons c src ih =>
    rw [List.length_cons] at h
    rw [List.flatMap_cons]
    by_cases hc : p c = true
    · rw [gsubFrom_match (by omega) ((matchAt_class p c src).trans (if_pos hc)), if_pos hc,
        ih (by omega)]
    · rw [gsubFrom_skip (by omega) ((matchAt_class p c src).trans (if_neg hc)), if_neg hc,
        ih (by omega)]
      rfl

theorem gsub_class (p : α → Bool) (repl : List α → List α) (src : List α) :
    (gsub ⟨p, []⟩ repl none src).1 = src.flatMap fun c => if p c then repl [c] else [c] := by
  apply gsubFrom_class
  rw [Option.getD_none]
  omega

theorem gsub_once (pattern : Pattern α) (repl : List α → List α) (src : List α) :
    (gsub pattern repl (some 1) src = (src, 0) ∧
      ∀ pre rest, src = pre ++ rest → pattern.matchAt rest = none) ∨
    ∃ pre m rest, src = pre ++ (m ++ rest) ∧ pattern.matchAt (m ++ rest) = some (m, rest) ∧
      gsub pattern repl (some 1) src = (pre ++ (repl m ++ rest), 1) ∧
      ∀ pre' rest', src = pre' ++ rest' → pre'.length < pre.length →
        pattern.matchAt rest' = none := by
  rw [gsub, Option.getD_some]
  induction src with
  | nil =>
    refine .inl ⟨gsubFrom_nil, fun pre rest h => ?_⟩
    obtain ⟨-, rfl⟩ := List.append_eq_nil_iff.mp h.symm
    rfl
  | cons c src ih =>
    cases hm : pattern.matchAt (c :: src) with
    | some r =>
      obtain ⟨m, rest⟩ := r
      obtain ⟨hsrc, -⟩ := matchAt_some hm
      refine .inr ⟨[], m, rest, hsrc, by rw [← hsrc, hm], ?_, fun _ _ _ h => absurd h (by simp)⟩
      rw [gsubFrom_match Nat.zero_lt_one hm, gsubFrom_stop (by omega)]
      rfl
    | none =>
      rw [gsubFrom_skip Nat.zero_lt_one hm]
      obtain ⟨hnone, hall⟩ | ⟨pre, m, rest, rfl, hmatch, hone, hfirst⟩ := ih
      · rw [hnone]
        refine .inl ⟨rfl, fun pre rest h => ?_⟩
        cases pre with
        | nil => rwa [← List.nil_append rest, ← h]
        | cons d pre => exact hall pre rest (List.cons.inj h).2
      · rw [hone]
        refine .inr ⟨c :: pre, m, rest, rfl, hmatch, rfl, fun pre' rest' h hlt => ?_⟩
        cases pre' with
        | nil => rwa [← List.nil_append rest', ← h]
        | cons d pre' => exact hfirst pre' rest' (List.cons.inj h).2 (Nat.lt_of_succ_lt_succ hlt)

end Jiauliyan.LuaPattern
