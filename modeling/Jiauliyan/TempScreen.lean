import Mathlib.Data.List.Range
import Jiauliyan.StringCompare
import Jiauliyan.TerminalRefinement

namespace Jiauliyan.TempScreen

open Jiauliyan.Memory Jiauliyan.StringCompare Jiauliyan.Vga Jiauliyan.TerminalRefinement

structure Data where
  chars : Chars
  bg : ℕ → Option ℕ
  fg : ℕ → Option ℕ

def cellWord (s : Screen) (i : ℕ) : ℕ := load16 s.mem (word (s.vgaptr + 2 * i))

def cellTable (value : ℕ → ℕ) (i : ℕ) : Option ℕ :=
  if 1 ≤ i ∧ i ≤ 2000 then some (value (i - 1)) else none

def cellChars (behind : Chars) (s : Screen) : Chars :=
  (List.range 2000).map (fun i => UInt8.ofNat (cellWord s i &&& 0xFF)) ++ behind

/-- The characters are pushed as a C string, for which the copy has no end. -/
def luaVgaGetdata (behind : Chars) (s : Screen) : Data where
  chars := content (cellChars behind s)
  bg := cellTable fun i => (cellWord s i >>> 12) &&& 0xF
  fg := cellTable fun i => (cellWord s i >>> 8) &&& 0xF

/-- `lua_tonumber` of `nil` is 0. -/
def luaTonumber (v : Option ℕ) : ℕ := v.getD 0

def luaVgaSetfg (v : Option ℕ) (s : Screen) : Screen :=
  let color := luaTonumber v
  if color ≤ 0xF then vgaSetfg (UInt8.ofNat color) s else s

def luaVgaSetbg (v : Option ℕ) (s : Screen) : Screen :=
  let color := luaTonumber v
  if color ≤ 0xF then vgaSetbg (UInt8.ofNat color) s else s

/-- An empty string still has its final 0. -/
def luaVgaPlacechar (str : Chars) (x y : ℤ) (s : Screen) : Screen :=
  vgaPlacechar (str.headD 0) x y s

def sub (s : Chars) (i j : ℕ) : Chars := (s.take j).drop (i - 1)

def restoreCell (vgad : Data) (x y : ℕ) (s : Screen) : Screen :=
  let i := y * 80 + x
  luaVgaPlacechar (sub vgad.chars i i) (x - 1) (y - 1)
    (luaVgaSetbg (vgad.bg i) (luaVgaSetfg (vgad.fg i) s))

def restore (vgad : Data) (s : Screen) : Screen :=
  (List.range' 1 80).foldl (fun s x =>
    (List.range' 1 25).foldl (fun s y => restoreCell vgad x y s) s) s

/-- A callback that only draws inside the screen. -/
structure Callback where
  run : Data → Screen → Screen
  ptr : ∀ vgad s, (run vgad s).vgaptr = s.vgaptr
  frame : ∀ vgad s a, a < s.vgaptr ∨ s.vgaptr + 4000 ≤ a → (run vgad s).mem a = s.mem a

def tempScreen (behind : Chars) (callback : Callback) (s : Screen) : Screen :=
  let vgad := luaVgaGetdata behind s
  luaVgaSetbg (some 8) (luaVgaSetfg (some 15) (restore vgad (callback.run vgad s)))

/-- What the loop puts into the cell in row `y` and column `x`. -/
def put (vgad : Data) (y x : ℕ) : UInt8 × UInt8 :=
  let i := (y + 1) * 80 + (x + 1)
  (vgad.chars.getD (i - 1) 0, UInt8.ofNat (16 * luaTonumber (vgad.bg i) + luaTonumber (vgad.fg i)))

/-- A screen that the move by one row does not change: no colours, and either no
characters or everywhere those that stand behind the copy. -/
structure Unmoved (behind : Chars) (s : Screen) : Prop where
  attrs : ∀ y x, y < 25 → x < 80 → (cellAt s.mem y x).2 = 0
  chars : (∀ y x, y < 25 → x < 80 → (cellAt s.mem y x).1 = 0) ∨
    ∀ y x, y < 25 → x < 80 → (cellAt s.mem y x).1 ≠ 0 ∧ (cellAt s.mem y x).1 = behind.getD x 0

section Cells

theorem attrib_of {a f b : ℕ} (hf : f ≤ 0xF) (hb : b ≤ 0xF) :
    (((UInt8.ofNat b).toNat &&& 0x0F) <<< 4) |||
      (((a &&& 0xF0) ||| ((UInt8.ofNat f).toNat &&& 0x0F)) &&& 0x0F) = 16 * b + f := by
  have hmod : ∀ n ≤ 0xF, (UInt8.ofNat n).toNat &&& 0x0F = n := by
    intro n hn
    rw [UInt8.toNat_ofNat', Nat.and_two_pow_sub_one_eq_mod _ 4]
    omega
  have hlow : f &&& 0x0F = f := by
    rw [Nat.and_two_pow_sub_one_eq_mod f 4]
    omega
  rw [hmod b hb, hmod f hf, Nat.and_or_distrib_right, Nat.and_assoc, hlow]
  rw [show (0xF0 &&& 0x0F : ℕ) = 0 from rfl, Nat.and_zero, Nat.zero_or, Nat.or_comm,
    or_shiftLeft 4 (by omega)]
  omega

theorem sub_head (s : Chars) {i : ℕ} (hi : 0 < i) : (sub s i i).headD 0 = s.getD (i - 1) 0 := by
  rw [sub, List.headD_eq_head?_getD, List.head?_drop, List.getElem?_take_of_lt (by omega),
    List.getD_eq_getElem?_getD]

variable {vgad : Data} {s : Screen} {x y : ℕ}

structure Coloured (vgad : Data) : Prop where
  bg : ∀ i, luaTonumber (vgad.bg i) ≤ 0xF
  fg : ∀ i, luaTonumber (vgad.fg i) ≤ 0xF

theorem restoreCell_ptr (hc : Coloured vgad) : (restoreCell vgad x y s).vgaptr = s.vgaptr := by
  simp only [restoreCell, luaVgaSetbg, luaVgaSetfg, if_pos (hc.bg _), if_pos (hc.fg _)]
  rfl

theorem restoreCell_cell (hc : Coloured vgad) (hs : s.vgaptr = 0xB8000) (hx : x < 80) (hy : y < 25)
    {x' y' : ℕ} (hx' : x' < 80) :
    cellAt (restoreCell vgad (x + 1) (y + 1) s).mem y' x' =
      if y' = y ∧ x' = x then put vgad y x else cellAt s.mem y' x' := by
  have haddr : word ((s.vgaptr : ℤ) + 2 * (((y + 1 : ℕ) - 1) * 80 + ((x + 1 : ℕ) - 1))) =
      cellAddr y x := by
    rw [hs, cellAddr, word]
    omega
  simp only [restoreCell, luaVgaSetbg, luaVgaSetfg, if_pos (hc.bg _), if_pos (hc.fg _),
    luaVgaPlacechar, vgaPlacechar, vgaSetbg, vgaSetfg, attrib_of (hc.fg _) (hc.bg _), haddr]
  rw [cellAt_store _ hx hx', sub_head _ (by omega)]
  rfl

theorem column_cells (hc : Coloured vgad) (hx : x < 80) (ys : List ℕ)
    (hys : ∀ y ∈ ys, 1 ≤ y ∧ y ≤ 25) (hs : s.vgaptr = 0xB8000) :
    (ys.foldl (fun s y => restoreCell vgad (x + 1) y s) s).vgaptr = 0xB8000 ∧
      ∀ y' x', x' < 80 → cellAt (ys.foldl (fun s y => restoreCell vgad (x + 1) y s) s).mem y' x' =
        if x' = x ∧ y' + 1 ∈ ys then put vgad y' x' else cellAt s.mem y' x' := by
  induction ys generalizing s with
  | nil => exact ⟨hs, fun y' x' _ => by simp⟩
  | cons y ys ih =>
    obtain ⟨hy1, hy25⟩ := hys y List.mem_cons_self
    obtain ⟨y, rfl⟩ : ∃ k, y = k + 1 := ⟨y - 1, by omega⟩
    have hcell : ∀ y' x', x' < 80 → cellAt (restoreCell vgad (x + 1) (y + 1) s).mem y' x' =
        if y' = y ∧ x' = x then put vgad y x else cellAt s.mem y' x' :=
      fun y' x' hx' => restoreCell_cell hc hs hx (by omega) hx'
    obtain ⟨hptr, hrest⟩ := ih (fun k hk => hys k (List.mem_cons_of_mem _ hk))
      ((restoreCell_ptr hc).trans hs)
    refine ⟨hptr, fun y' x' hx' => ?_⟩
    rw [List.foldl_cons, hrest y' x' hx', hcell y' x' hx']
    by_cases hlater : x' = x ∧ y' + 1 ∈ ys
    · rw [if_pos hlater, if_pos ⟨hlater.1, List.mem_cons_of_mem _ hlater.2⟩]
    · rw [if_neg hlater]
      by_cases hnow : y' = y ∧ x' = x
      · obtain ⟨rfl, rfl⟩ := hnow
        rw [if_pos ⟨rfl, rfl⟩, if_pos ⟨rfl, List.mem_cons_self⟩]
      · rw [if_neg hnow, if_neg]
        rintro ⟨rfl, hmem⟩
        obtain heq | hmem := List.mem_cons.mp hmem
        · exact hnow ⟨Nat.succ.inj heq, rfl⟩
        · exact hlater ⟨rfl, hmem⟩

theorem columns_cells (hc : Coloured vgad) (xs : List ℕ) (hxs : ∀ x ∈ xs, 1 ≤ x ∧ x ≤ 80)
    (hs : s.vgaptr = 0xB8000) {y' x' : ℕ} (hy' : y' < 25) (hx' : x' < 80) :
    cellAt (xs.foldl (fun s x =>
        (List.range' 1 25).foldl (fun s y => restoreCell vgad x y s) s) s).mem y' x' =
      if x' + 1 ∈ xs then put vgad y' x' else cellAt s.mem y' x' := by
  induction xs generalizing s with
  | nil => simp
  | cons x xs ih =>
    obtain ⟨hx1, hx80⟩ := hxs x List.mem_cons_self
    obtain ⟨x, rfl⟩ : ∃ k, x = k + 1 := ⟨x - 1, by omega⟩
    obtain ⟨hptr, hcol⟩ := column_cells hc (show x < 80 by omega) (List.range' 1 25)
      (fun y hy => by rw [List.mem_range'_1] at hy; omega) hs
    have hrow : y' + 1 ∈ List.range' 1 25 := List.mem_range'_1.mpr (by omega)
    have hmem : x' + 1 ∈ (x + 1) :: xs ↔ x' = x ∨ x' + 1 ∈ xs := by
      rw [List.mem_cons, Nat.succ_inj]
    rw [List.foldl_cons, ih (fun k hk => hxs k (List.mem_cons_of_mem _ hk)) hptr, hcol y' x' hx']
    by_cases hlater : x' + 1 ∈ xs
    · rw [if_pos hlater, if_pos (hmem.mpr (Or.inr hlater))]
    · rw [if_neg hlater]
      by_cases hnow : x' = x
      · rw [if_pos ⟨hnow, hrow⟩, if_pos (hmem.mpr (Or.inl hnow))]
      · rw [if_neg fun h => hnow h.1, if_neg (mt hmem.mp (not_or.mpr ⟨hnow, hlater⟩))]

end Cells

section Table

variable {s : Screen} {behind : Chars}

theorem cellWord_eq (hs : s.vgaptr = 0xB8000) {i : ℕ} (hi : i < 2000) :
    cellWord s i = (s.mem (0xB8000 + 2 * i)).toNat + 256 * (s.mem (0xB8000 + 2 * i + 1)).toNat := by
  have haddr : word ((s.vgaptr : ℤ) + 2 * i) = 0xB8000 + 2 * i := by
    rw [hs, word]
    omega
  rw [cellWord, haddr, load16]

theorem getdata_chars (behind : Chars) (s : Screen) :
    (luaVgaGetdata behind s).chars = content (cellChars behind s) := by
  simp only [luaVgaGetdata]

theorem cellTable_le {value : ℕ → ℕ} (h : ∀ i, value i ≤ 0xF) (i : ℕ) :
    luaTonumber (cellTable value i) ≤ 0xF := by
  rw [cellTable]
  split_ifs
  · exact h _
  · exact Nat.zero_le _

theorem getdata_coloured (behind : Chars) (s : Screen) : Coloured (luaVgaGetdata behind s) where
  bg := cellTable_le fun i => Nat.and_le_right (n := cellWord s i >>> 12) (m := 0xF)
  fg := cellTable_le fun i => Nat.and_le_right (n := cellWord s i >>> 8) (m := 0xF)

theorem getdata_attr (hs : s.vgaptr = 0xB8000) {i : ℕ} (hi : i < 2000) :
    UInt8.ofNat (16 * luaTonumber ((luaVgaGetdata behind s).bg (i + 1)) +
      luaTonumber ((luaVgaGetdata behind s).fg (i + 1))) = s.mem (0xB8000 + 2 * i + 1) := by
  have hlo := (s.mem (0xB8000 + 2 * i)).toNat_lt
  have hhi := (s.mem (0xB8000 + 2 * i + 1)).toNat_lt
  have hin : 1 ≤ i + 1 ∧ i + 1 ≤ 2000 := by omega
  simp only [luaVgaGetdata, cellTable, if_pos hin, luaTonumber, Option.getD_some,
    Nat.add_sub_cancel, cellWord_eq hs hi]
  rw [Nat.and_two_pow_sub_one_eq_mod _ 4, Nat.and_two_pow_sub_one_eq_mod _ 4,
    Nat.shiftRight_eq_div_pow, Nat.shiftRight_eq_div_pow]
  apply UInt8.toNat.inj
  rw [UInt8.toNat_ofNat']
  omega

theorem getdata_attr_end {i : ℕ} (hi : 2000 ≤ i) :
    UInt8.ofNat (16 * luaTonumber ((luaVgaGetdata behind s).bg (i + 1)) +
      luaTonumber ((luaVgaGetdata behind s).fg (i + 1))) = 0 := by
  have hout : ¬(1 ≤ i + 1 ∧ i + 1 ≤ 2000) := by omega
  simp only [luaVgaGetdata, cellTable, if_neg hout]
  rfl

def copied (behind : Chars) (s : Screen) (i : ℕ) : UInt8 :=
  if i < 2000 then s.mem (0xB8000 + 2 * i) else behind.getD (i - 2000) 0

theorem copied_eq (hs : s.vgaptr = 0xB8000) (i : ℕ) :
    (cellChars behind s).getD i 0 = copied behind s i := by
  rw [cellChars, copied, List.getD_eq_getElem?_getD]
  by_cases hi : i < 2000
  · have hlo := (s.mem (0xB8000 + 2 * i)).toNat_lt
    rw [if_pos hi, List.getElem?_append_left (by simpa using hi), List.getElem?_map,
      List.getElem?_range hi]
    simp only [Option.map_some, Option.getD_some, cellWord_eq hs hi]
    rw [Nat.and_two_pow_sub_one_eq_mod _ 8]
    apply UInt8.toNat.inj
    rw [UInt8.toNat_ofNat']
    omega
  · rw [if_neg hi, List.getElem?_append_right (by simpa using Nat.le_of_not_lt hi),
      List.getD_eq_getElem?_getD]
    simp

end Table

section Shift

/-- A text of 25 rows that is itself moved up by one, where `u` is `t` up to its
first 0. -/
theorem shifted_iff {t u : ℕ → UInt8} (hne : ∀ i, (∀ k ≤ i, t k ≠ 0) → u i = t i)
    (hzero : ∀ k i, k ≤ i → t k = 0 → u i = 0) :
    (∀ j < 2000, t j = u (j + 80)) ↔
      (∀ j < 2000, t j = 0) ∨ ∀ j < 2000, t j ≠ 0 ∧ t j = t (2000 + j % 80) := by
  constructor
  · intro h
    by_cases hz : ∃ k, k < 2000 ∧ t k = 0
    · -- the first 0 is in the first row, so all that is read is 0
      left
      have hk := Nat.find_spec hz
      have hmin := fun m => Nat.find_min hz (m := m)
      generalize Nat.find hz = k at hk hmin
      have hrow : k < 80 := by
        by_contra hle
        have hprev : t (k - 80) = u (k - 80 + 80) := h (k - 80) (by omega)
        rw [Nat.sub_add_cancel (by omega), hzero k k (Nat.le_refl k) hk.2] at hprev
        exact hmin (k - 80) (by omega) ⟨by omega, hprev⟩
      intro j hj
      rw [h j hj]
      exact hzero k (j + 80) (by omega) hk.2
    · right
      have hnz : ∀ k < 2000, t k ≠ 0 := fun k hk h0 => hz ⟨k, hk, h0⟩
      -- the rows equal the one behind them, from the last one up
      have hrows : ∀ n j, j + n = 1999 → t j = t (2000 + j % 80) := by
        intro n
        induction n using Nat.strong_induction_on with
        | h n ih =>
          intro j hj
          have hstep := h j (by omega)
          have hread : u (j + 80) = t (j + 80) := by
            by_cases hin : j + 80 < 2000
            · exact hne _ fun k hk => hnz k (by omega)
            · refine hne _ fun k hk h0 => hnz j (by omega) ?_
              rw [hstep]
              exact hzero k _ hk h0
          rw [hstep, hread]
          by_cases hin : j + 80 < 2000
          · rw [ih (n - 80) (by omega) (j + 80) (by omega), Nat.add_mod_right]
          · congr 1
            omega
      exact fun j hj => ⟨hnz j hj, hrows (1999 - j) j (by omega)⟩
  · rintro (hall | hall) j hj
    · rw [hall j hj, hzero 0 (j + 80) (Nat.zero_le _) (hall 0 (by decide))]
    · have hread : u (j + 80) = t (j + 80) := by
        refine hne _ fun k hk => ?_
        by_cases hin : k < 2000
        · exact (hall k hin).1
        · have hlast := hall (k - 80) (by omega)
          have heq : 2000 + (k - 80) % 80 = k := by omega
          rw [heq] at hlast
          rw [← hlast.2]
          exact hlast.1
      rw [hread, (hall j hj).2]
      by_cases hin : j + 80 < 2000
      · rw [(hall (j + 80) hin).2, Nat.add_mod_right]
      · congr 1
        omega

theorem attrs_iff {a : ℕ → UInt8} :
    (∀ j < 2000, a j = if j + 80 < 2000 then a (j + 80) else 0) ↔ ∀ j < 2000, a j = 0 := by
  constructor
  · intro h
    have hrows : ∀ n j, j + n = 1999 → a j = 0 := by
      intro n
      induction n using Nat.strong_induction_on with
      | h n ih =>
        intro j hj
        rw [h j (by omega)]
        by_cases hin : j + 80 < 2000
        · rw [if_pos hin]
          exact ih (n - 80) (by omega) (j + 80) (by omega)
        · rw [if_neg hin]
    exact fun j hj => hrows (1999 - j) j (by omega)
  · intro h j hj
    rw [h j hj]
    by_cases hin : j + 80 < 2000
    · rw [if_pos hin, h _ hin]
    · rw [if_neg hin]

theorem cells_iff {P : ℕ → ℕ → Prop} :
    (∀ y x, y < 25 → x < 80 → P y x) ↔ ∀ j < 2000, P (j / 80) (j % 80) := by
  constructor
  · intro h j hj
    exact h _ _ (by omega) (Nat.mod_lt _ (by decide))
  · intro h y x hy hx
    have hj := h (80 * y + x) (by omega)
    have hdiv : (80 * y + x) / 80 = y := by omega
    have hmod : (80 * y + x) % 80 = x := by omega
    rwa [hdiv, hmod] at hj

end Shift

section Restore

variable {s : Screen} {behind : Chars}

theorem setfg_mem (v : Option ℕ) (s : Screen) : (luaVgaSetfg v s).mem = s.mem := by
  simp only [luaVgaSetfg]
  split_ifs <;> rfl

theorem setbg_mem (v : Option ℕ) (s : Screen) : (luaVgaSetbg v s).mem = s.mem := by
  simp only [luaVgaSetbg]
  split_ifs <;> rfl

theorem tempScreen_cell (behind : Chars) (callback : Callback) (hs : s.vgaptr = 0xB8000) {y x : ℕ}
    (hy : y < 25) (hx : x < 80) :
    cellAt (tempScreen behind callback s).mem y x = put (luaVgaGetdata behind s) y x := by
  have hcol : x + 1 ∈ List.range' 1 80 := List.mem_range'_1.mpr (by omega)
  rw [tempScreen, setbg_mem, setfg_mem, restore, columns_cells (getdata_coloured behind s) _
    (fun x hx => by rw [List.mem_range'_1] at hx; omega) ((callback.ptr _ s).trans hs) hy hx,
    if_pos hcol]

def attrAt (s : Screen) (j : ℕ) : UInt8 := s.mem (0xB8000 + 2 * j + 1)

theorem put_eq (hs : s.vgaptr = 0xB8000) (y x : ℕ) :
    put (luaVgaGetdata behind s) y x =
      ((luaVgaGetdata behind s).chars.getD (80 * y + x + 80) 0,
        if 80 * y + x + 80 < 2000 then attrAt s (80 * y + x + 80) else 0) := by
  have hi : (y + 1) * 80 + (x + 1) = 80 * y + x + 80 + 1 := by omega
  rw [put, hi, Nat.add_sub_cancel]
  by_cases hin : 80 * y + x + 80 < 2000
  · rw [if_pos hin, getdata_attr hs hin, attrAt]
  · rw [if_neg hin, getdata_attr_end (Nat.le_of_not_lt hin)]

theorem unmoved_iff (behind : Chars) (s : Screen) :
    Unmoved behind s ↔ (∀ j < 2000, attrAt s j = 0) ∧
      ((∀ j < 2000, copied behind s j = 0) ∨
        ∀ j < 2000, copied behind s j ≠ 0 ∧
          copied behind s j = copied behind s (2000 + j % 80)) := by
  have hcell : ∀ j < 2000, cellAt s.mem (j / 80) (j % 80) = (copied behind s j, attrAt s j) := by
    intro j hj
    rw [copied, if_pos hj, attrAt, cellAt, cellAddr, Nat.div_add_mod]
  have hbehind : ∀ j, copied behind s (2000 + j % 80) = behind.getD (j % 80) 0 := by
    intro j
    have hout : ¬2000 + j % 80 < 2000 := by omega
    rw [copied, if_neg hout, Nat.add_sub_cancel_left]
  constructor
  · rintro ⟨hattrs, hchars⟩
    rw [cells_iff] at hattrs
    refine ⟨fun j hj => by simpa only [hcell j hj] using hattrs j hj, hchars.imp ?_ ?_⟩
    · intro h j hj
      rw [cells_iff] at h
      simpa only [hcell j hj] using h j hj
    · intro h j hj
      rw [cells_iff] at h
      simpa only [hcell j hj, hbehind] using h j hj
  · rintro ⟨hattrs, hchars⟩
    refine ⟨cells_iff.mpr fun j hj => by simpa only [hcell j hj] using hattrs j hj,
      hchars.imp ?_ ?_⟩
    · intro h
      exact cells_iff.mpr fun j hj => by simpa only [hcell j hj] using h j hj
    · intro h
      exact cells_iff.mpr fun j hj => by simpa only [hcell j hj, hbehind] using h j hj

theorem screen_restored_iff (behind : Chars) (callback : Callback) (s : Screen)
    (hs : s.vgaptr = 0xB8000) :
    (∀ y x, y < 25 → x < 80 →
      cellAt (tempScreen behind callback s).mem y x = cellAt s.mem y x) ↔ Unmoved behind s := by
  have hu : ∀ i, (∀ k ≤ i, copied behind s k ≠ 0) →
      (luaVgaGetdata behind s).chars.getD i 0 = copied behind s i := by
    intro i hi
    have hne : ∀ k ≤ i, (cellChars behind s).getD k 0 ≠ 0 := by
      intro k hk
      rw [copied_eq hs]
      exact hi k hk
    rw [getdata_chars, content_getD_of_ne hne, copied_eq hs]
  have hz : ∀ k i, k ≤ i → copied behind s k = 0 →
      (luaVgaGetdata behind s).chars.getD i 0 = 0 := by
    intro k i hk h0
    rw [← copied_eq hs] at h0
    rw [getdata_chars, content_getD_of_eq hk h0]
  rw [unmoved_iff, ← attrs_iff, ← shifted_iff hu hz, cells_iff]
  have hcell : ∀ j < 2000,
      (cellAt (tempScreen behind callback s).mem (j / 80) (j % 80) =
          cellAt s.mem (j / 80) (j % 80) ↔
        copied behind s j = (luaVgaGetdata behind s).chars.getD (j + 80) 0 ∧
          attrAt s j = if j + 80 < 2000 then attrAt s (j + 80) else 0) := by
    intro j hj
    rw [tempScreen_cell behind callback hs (by omega) (Nat.mod_lt _ (by decide)), put_eq hs,
      Nat.div_add_mod, cellAt, cellAddr, Nat.div_add_mod, Prod.mk.injEq, copied, if_pos hj]
    exact and_congr eq_comm eq_comm
  constructor
  · intro h
    exact ⟨fun j hj => ((hcell j hj).mp (h j hj)).2, fun j hj => ((hcell j hj).mp (h j hj)).1⟩
  · rintro ⟨ha, hc⟩ j hj
    exact (hcell j hj).mpr ⟨hc j hj, ha j hj⟩

def zeroScreen : Screen := ⟨fun _ => 0, 0xB8000, 0x0F, 0, 0, []⟩

def drawNothing : Callback := ⟨fun _ s => s, fun _ _ => rfl, fun _ _ _ _ => rfl⟩

theorem zero_screen_restored :
    zeroScreen.vgaptr = 0xB8000 ∧ ∀ y x, y < 25 → x < 80 →
      cellAt (tempScreen [0] drawNothing zeroScreen).mem y x = cellAt zeroScreen.mem y x :=
  ⟨rfl, (screen_restored_iff [0] drawNothing zeroScreen rfl).mpr
    ⟨fun _ _ _ _ => rfl, Or.inl fun _ _ _ _ => rfl⟩⟩

def clearScreen : Screen :=
  ⟨fun a => if a % 2 = 0 then 0x20 else 0x0F, 0xB8000, 0x0F, 0, 0, []⟩

/-- The last row of a cleared screen loses its colours. -/
theorem clear_screen_changed :
    ∃ behind callback s, s.vgaptr = 0xB8000 ∧ ¬∀ y x, y < 25 → x < 80 →
      cellAt (tempScreen behind callback s).mem y x = cellAt s.mem y x := by
  have hs : clearScreen.vgaptr = 0xB8000 := rfl
  refine ⟨[0], drawNothing, clearScreen, hs, fun h => ?_⟩
  have hcell := h 24 0 (by decide) (by decide)
  rw [tempScreen_cell [0] drawNothing hs (by decide) (by decide), put_eq hs] at hcell
  have hattr : (0 : UInt8) = 0x0F := congrArg Prod.snd hcell
  exact absurd hattr (by decide)

end Restore

end Jiauliyan.TempScreen
