import Mathlib.Logic.Function.Basic
import Mathlib.Tactic.SplitIfs
import Mathlib.Data.Nat.Notation

namespace Jiauliyan.Console

variable {α : Type*}

/-- A terminal that never forgets a row: the screen is the end of its history. -/
structure Terminal (α : Type*) where
  rows : ℕ → ℕ → UInt8 × α
  height : ℕ
  row : ℕ
  col : ℕ
  attr : α

/-- `h` rows of blanks, the cursor in the first one. -/
def Terminal.fresh (h : ℕ) (a : α) : Terminal α := ⟨fun _ _ => (0x20, a), h, 0, 0, a⟩

def Terminal.lineFeed (t : Terminal α) : Terminal α :=
  if t.row + 1 < t.height then { t with row := t.row + 1, col := 0 }
  else
    { t with
      rows := Function.update t.rows t.height fun _ => (0x20, t.attr)
      height := t.height + 1
      row := t.row + 1
      col := 0 }

def Terminal.moveTo (width x : ℕ) (t : Terminal α) : Terminal α :=
  if x < width then { t with col := x } else t.lineFeed

def Terminal.place (c : UInt8) (t : Terminal α) : Terminal α :=
  { t with rows := Function.update t.rows t.row (Function.update (t.rows t.row) t.col (c, t.attr)) }

def Terminal.write (width tab : ℕ) (c : UInt8) (t : Terminal α) : Terminal α :=
  if c = 0x08 then { t with col := t.col - 1 }
  else if c = 0x09 then t.moveTo width ((t.col / tab + 1) * tab)
  else if c = 0x0D then { t with col := 0 }
  else if c = 0x0A then t.lineFeed
  else if 0x20 ≤ c ∧ c < 0x80 then (t.place c).moveTo width (t.col + 1)
  else t

/-- The cell in row `y` and column `x` of the last `h` rows. -/
def Terminal.window (h : ℕ) (t : Terminal α) (y x : ℕ) : UInt8 × α := t.rows (t.height - h + y) x

/-- The row of the cursor, counted within the last `h` rows. -/
def Terminal.windowRow (h : ℕ) (t : Terminal α) : ℕ := t.row - (t.height - h)

/-- The cursor stands in a row of the window and in a column of the screen. -/
structure Terminal.Placed (width h : ℕ) (t : Terminal α) : Prop where
  tall : h ≤ t.height
  low : t.height - h ≤ t.row
  high : t.row < t.height
  col : t.col < width

variable {width h : ℕ} {t : Terminal α}

theorem Terminal.fresh_placed (hw : 0 < width) (hh : 0 < h) (a : α) :
    (Terminal.fresh h a).Placed width h where
  tall := Nat.le_refl h
  low := by simp [Terminal.fresh]
  high := hh
  col := hw

theorem Terminal.lineFeed_placed (ht : t.Placed width h) : t.lineFeed.Placed width h := by
  have hw : 0 < width := Nat.zero_lt_of_lt ht.col
  have htall := ht.tall
  have hlow := ht.low
  have hhigh := ht.high
  unfold Terminal.lineFeed
  by_cases hr : t.row + 1 < t.height
  · rw [if_pos hr]
    exact ⟨htall, by simp only; omega, hr, hw⟩
  · rw [if_neg hr]
    exact ⟨by simp only; omega, by simp only; omega, by simp only; omega, hw⟩

theorem Terminal.place_placed (c : UInt8) (ht : t.Placed width h) : (t.place c).Placed width h :=
  ⟨ht.tall, ht.low, ht.high, ht.col⟩

theorem Terminal.col_placed {x : ℕ} (ht : t.Placed width h) (hx : x < width) :
    Terminal.Placed width h { t with col := x } :=
  ⟨ht.tall, ht.low, ht.high, hx⟩

theorem Terminal.moveTo_of_lt {x : ℕ} (hx : x < width) (t : Terminal α) :
    t.moveTo width x = { t with col := x } :=
  if_pos hx

theorem Terminal.moveTo_of_le {x : ℕ} (hx : width ≤ x) (t : Terminal α) :
    t.moveTo width x = t.lineFeed :=
  if_neg (Nat.not_lt.mpr hx)

theorem Terminal.window_lineFeed_inside (hr : t.row + 1 < t.height) (y x : ℕ) :
    t.lineFeed.window h y x = t.window h y x := by
  unfold Terminal.lineFeed Terminal.window
  rw [if_pos hr]

theorem Terminal.window_lineFeed_last (ht : t.Placed width h) (hr : t.row + 1 = t.height) {y : ℕ}
    (hy : y < h) (x : ℕ) :
    t.lineFeed.window h y x = if y + 1 < h then t.window h (y + 1) x else (0x20, t.attr) := by
  have htall := ht.tall
  have hne : ¬(t.row + 1 < t.height) := by omega
  unfold Terminal.lineFeed Terminal.window
  rw [if_neg hne]
  by_cases hlast : y + 1 < h
  · have hrow : t.height + 1 - h + y = t.height - h + (y + 1) := by omega
    have hother : t.height - h + (y + 1) ≠ t.height := by omega
    rw [if_pos hlast]
    simp only [hrow, Function.update_of_ne hother]
  · have hrow : t.height + 1 - h + y = t.height := by omega
    rw [if_neg hlast]
    simp only [hrow, Function.update_self]

theorem Terminal.windowRow_lineFeed_inside (ht : t.Placed width h) (hr : t.row + 1 < t.height) :
    t.lineFeed.windowRow h = t.windowRow h + 1 := by
  have hlow := ht.low
  unfold Terminal.lineFeed Terminal.windowRow
  rw [if_pos hr]
  simp only
  omega

theorem Terminal.windowRow_lineFeed_last (ht : t.Placed width h) (hr : t.row + 1 = t.height) :
    t.lineFeed.windowRow h = t.windowRow h := by
  have hlow := ht.low
  have htall := ht.tall
  have hne : ¬(t.row + 1 < t.height) := by omega
  unfold Terminal.lineFeed Terminal.windowRow
  rw [if_neg hne]
  simp only
  omega

theorem Terminal.lineFeed_col (t : Terminal α) : t.lineFeed.col = 0 := by
  unfold Terminal.lineFeed
  split_ifs <;> rfl

theorem Terminal.lineFeed_attr (t : Terminal α) : t.lineFeed.attr = t.attr := by
  unfold Terminal.lineFeed
  split_ifs <;> rfl

theorem Terminal.window_place (c : UInt8) (ht : t.Placed width h) (y x : ℕ) :
    (t.place c).window h y x =
      if y = t.windowRow h ∧ x = t.col then (c, t.attr) else t.window h y x := by
  have hlow := ht.low
  unfold Terminal.place Terminal.window Terminal.windowRow
  by_cases hrow : t.height - h + y = t.row
  · have hy : y = t.row - (t.height - h) := by omega
    by_cases hx : x = t.col
    · rw [if_pos ⟨hy, hx⟩]
      simp only [hrow, hx, Function.update_self]
    · rw [if_neg fun hyx => hx hyx.2]
      simp only [hrow, Function.update_self, Function.update_of_ne hx]
  · have hy : y ≠ t.row - (t.height - h) := by omega
    rw [if_neg fun hyx => hy hyx.1]
    simp only [Function.update_of_ne hrow]

theorem Terminal.windowRow_lt (ht : t.Placed width h) : t.windowRow h < h := by
  have hlow := ht.low
  have htall := ht.tall
  have hhigh := ht.high
  unfold Terminal.windowRow
  omega

end Jiauliyan.Console
