import Jiauliyan.ExactMath

namespace Jiauliyan.SquareRoot

open Jiauliyan.Execution
open Jiauliyan.ExactMath (fabs fabs_eq)

def DBL_EPSILON : ℚ := 22204460492503131 / 10 ^ 32

inductive Outcome
  | nan
  | root (y : ℚ)
  | divisionByZero

structure Iterate where
  y0 : ℚ
  y1 : ℚ
  e : ℚ

def sqrtBody (x : ℚ) (s : Iterate) : Iterate ⊕ Outcome :=
  if s.e < fabs (s.y0 - s.y1) then
    if 2 * s.y1 = 0 then .inr .divisionByZero
    else
      let y1 := s.y1 - (s.y1 * s.y1 - x) / (2 * s.y1)
      .inl ⟨s.y1, y1, DBL_EPSILON * y1⟩
  else .inr (.root s.y1)

def Sqrt (x : ℚ) (o : Outcome) : Prop :=
  if x < 0 then o = .nan else Exits (sqrtBody x) ⟨x, 0, 1⟩ o

/-- No division is by zero, and what is returned is near the root. -/
def Accurate (x : ℚ) : Prop :=
  ¬Sqrt x .divisionByZero ∧ ∀ y, Sqrt x (.root y) → |y * y - x| ≤ x / 2 ^ 20

section First

variable {x : ℚ} {o : Outcome}

theorem sqrt_exits (hx : 0 ≤ x) : Sqrt x o ↔ Exits (sqrtBody x) ⟨x, 0, 1⟩ o := by
  rw [Sqrt, if_neg (not_lt.mpr hx)]

/-- The iteration starts at 0, so the first round divides by zero where the distance to the start
exceeds 1, and there is no round where it does not. -/
theorem sqrtBody_start (hx : 0 ≤ x) :
    sqrtBody x ⟨x, 0, 1⟩ = .inr (if 1 < x then .divisionByZero else .root 0) := by
  rw [sqrtBody]
  simp only [sub_zero, fabs_eq, abs_of_nonneg hx, mul_zero, if_true]
  split_ifs
  · rfl
  · rfl

theorem sqrt_outcome (hx : 0 ≤ x) : Sqrt x o ↔ o = if 1 < x then .divisionByZero else .root 0 := by
  rw [sqrt_exits hx, exits_inr_iff (sqrtBody_start hx)]

end First

theorem sqrt_iff (x : ℚ) (hx : 0 ≤ x) : Accurate x ↔ x = 0 := by
  constructor
  · rintro ⟨hdiv, hnear⟩
    by_cases h1 : 1 < x
    · exact absurd ((sqrt_outcome hx).mpr (if_pos h1).symm) hdiv
    · have hzero := hnear 0 ((sqrt_outcome hx).mpr (if_neg h1).symm)
      rw [zero_mul, zero_sub, abs_neg, abs_of_nonneg hx] at hzero
      linarith
  · rintro rfl
    have hzero : ∀ o, Sqrt 0 o ↔ o = .root 0 := fun o => by
      rw [sqrt_outcome hx, if_neg (by norm_num)]
    refine ⟨fun h => ?_, fun y h => ?_⟩
    · cases (hzero _).mp h
    · cases (hzero _).mp h
      norm_num

theorem sqrt_iff_zero : Accurate 0 := (sqrt_iff 0 le_rfl).mpr rfl

theorem sqrt_fails : ¬∀ x : ℚ, 0 ≤ x → Accurate x := by
  intro h
  obtain ⟨hdiv, -⟩ := h 4 (by norm_num)
  exact hdiv ((sqrt_outcome (by norm_num)).mpr (if_pos (by norm_num)).symm)

end Jiauliyan.SquareRoot
