import Mathlib.Tactic.NormNum
import Jiauliyan.Console
import Jiauliyan.Vga

namespace Jiauliyan.TerminalRefinement

open Jiauliyan.Memory Jiauliyan.CString Jiauliyan.Console Jiauliyan.Vga

structure Colours where
  fg : Fin 16
  bg : Fin 16

def Colours.byte (c : Colours) : ℕ := 16 * c.bg + c.fg

def request (t : Terminal Colours) : Op → Terminal Colours
  | .putchar c => t.write 80 8 c
  | .setfg fg => { t with attr := { t.attr with fg := Fin.ofNat 16 fg.toNat } }
  | .setbg bg => { t with attr := { t.attr with bg := Fin.ofNat 16 bg.toNat } }
  | .cls => Terminal.fresh 25 t.attr

def reference (ops : List Op) : Terminal Colours :=
  ops.foldl request (Terminal.fresh 25 ⟨15, 0⟩)

def cellAddr (y x : ℕ) : ℕ := 0xB8000 + 2 * (80 * y + x)

/-- The character and the attribute of a cell of the text memory. -/
def cellAt (m : Mem) (y x : ℕ) : UInt8 × UInt8 := (m (cellAddr y x), m (cellAddr y x + 1))

def encode (c : UInt8 × Colours) : UInt8 × UInt8 := (c.1, UInt8.ofNat c.2.byte)

structure Drawn (m : Mem) (s : Screen) (t : Terminal Colours) : Prop where
  ptr : s.vgaptr = 0xB8000
  attr : s.attrib = t.attr.byte
  placed : t.Placed 80 25
  cells : ∀ y x, y < 25 → x < 80 → cellAt s.mem y x = encode (t.window 25 y x)
  frame : ∀ a, a < 0xB8000 ∨ 0xB8000 + 4000 ≤ a → s.mem a = m a

structure Shows (m : Mem) (s : Screen) (t : Terminal Colours) : Prop extends Drawn m s t where
  x : s.csrX = t.col
  y : s.csrY = t.windowRow 25

/-- The last port writes put the hardware cursor on the cursor's cell. -/
def Parked (s : Screen) (t : Terminal Colours) : Prop :=
  ∃ sent, s.ports = sent ++
    [(0x3D4, 14), (0x3D5, UInt8.ofNat ((t.windowRow 25 * 80 + t.col) / 256)),
      (0x3D4, 15), (0x3D5, UInt8.ofNat (t.windowRow 25 * 80 + t.col))]

variable {m : Mem} {s : Screen} {t : Terminal Colours}

theorem word_cast {n : ℕ} (h : n < 4294967296) : word n = n := by
  unfold word
  omega

theorem word_cellAddr {y x : ℕ} (hy : y < 25) (hx : x < 80) :
    word (((0xB8000 : ℕ) : ℤ) + 2 * ((y : ℤ) * 80 + x)) = cellAddr y x := by
  have hcast : ((0xB8000 : ℕ) : ℤ) + 2 * ((y : ℤ) * 80 + x) = (cellAddr y x : ℕ) := by
    unfold cellAddr
    push_cast
    omega
  rw [hcast]
  apply word_cast
  unfold cellAddr
  omega

theorem schar_eq {c : UInt8} {n : ℕ} (hn : n < 128) : schar c = n ↔ c.toNat = n := by
  have hc := c.toNat_lt
  unfold schar
  split_ifs <;> omega

theorem schar_printable (c : UInt8) : 0x20 ≤ schar c ↔ 0x20 ≤ c ∧ c < 0x80 := by
  have hc := c.toNat_lt
  rw [UInt8.le_iff_toNat_le, UInt8.lt_iff_toNat_lt]
  unfold schar
  split_ifs <;> simp <;> omega

theorem or_shiftLeft {a b : ℕ} (k : ℕ) (hb : b < 2 ^ k) : b ||| a <<< k = a * 2 ^ k + b := by
  rw [Nat.or_comm, ← Nat.shiftLeft_add_eq_or_of_lt hb, Nat.shiftLeft_eq]

theorem low_byte {c a : ℕ} (hc : c < 256) : UInt8.ofNat (c ||| a <<< 8) = UInt8.ofNat c := by
  rw [or_shiftLeft 8 hc]
  apply UInt8.toNat.inj
  simp

theorem high_byte {c a : ℕ} (hc : c < 256) :
    UInt8.ofNat ((c ||| a <<< 8) / 256) = UInt8.ofNat a := by
  rw [or_shiftLeft 8 hc]
  congr 1
  omega

theorem setfg_attrib (c : Colours) (fg : UInt8) :
    (c.byte &&& 0xF0) ||| (fg.toNat &&& 0x0F) =
      Colours.byte { c with fg := Fin.ofNat 16 fg.toNat } := by
  have hand : ∀ b f : Fin 16, (16 * b.val + f.val) &&& 0xF0 = b.val <<< 4 := by decide
  have hlow : fg.toNat &&& 0x0F = fg.toNat % 16 := Nat.and_two_pow_sub_one_eq_mod fg.toNat 4
  have hlt : fg.toNat % 16 < 2 ^ 4 := Nat.mod_lt _ (by decide)
  rw [Colours.byte, hand, hlow, Nat.or_comm, or_shiftLeft 4 hlt]
  simp only [Colours.byte, Fin.val_ofNat]
  omega

theorem setbg_attrib (c : Colours) (bg : UInt8) :
    ((bg.toNat &&& 0x0F) <<< 4) ||| (c.byte &&& 0x0F) =
      Colours.byte { c with bg := Fin.ofNat 16 bg.toNat } := by
  have hlow : bg.toNat &&& 0x0F = bg.toNat % 16 := Nat.and_two_pow_sub_one_eq_mod bg.toNat 4
  have hand : c.byte &&& 0x0F = c.byte % 16 := Nat.and_two_pow_sub_one_eq_mod c.byte 4
  have hf := c.fg.isLt
  have hmod : c.byte % 16 = c.fg := by
    unfold Colours.byte
    omega
  rw [hlow, hand, hmod, Nat.or_comm, or_shiftLeft 4 hf]
  simp only [Colours.byte, Fin.val_ofNat]
  omega

theorem cellAt_store {a : ℕ} (c : UInt8) {y x y' x' : ℕ} (hx : x < 80)
    (hx' : x' < 80) :
    cellAt (store16 m (cellAddr y x) (c.toNat ||| a <<< 8)) y' x' =
      if y' = y ∧ x' = x then (c, UInt8.ofNat a) else cellAt m y' x' := by
  by_cases h : y' = y ∧ x' = x
  · obtain ⟨rfl, rfl⟩ := h
    rw [if_pos ⟨rfl, rfl⟩]
    simp [cellAt, store16, low_byte c.toNat_lt, high_byte c.toNat_lt]
  · have h0 : cellAddr y' x' ≠ cellAddr y x := by
      unfold cellAddr
      omega
    have h1 : cellAddr y' x' ≠ cellAddr y x + 1 := by
      unfold cellAddr
      omega
    have h2 : cellAddr y' x' + 1 ≠ cellAddr y x := by
      unfold cellAddr
      omega
    rw [if_neg h]
    simp [cellAt, store16, h0, h1, h2]

theorem blank_low (s : Screen) : UInt8.ofNat (blank s) = 0x20 := low_byte (by decide)

theorem blank_high (s : Screen) : UInt8.ofNat (blank s / 256) = UInt8.ofNat s.attrib :=
  high_byte (by decide)

theorem cellAt_filled {m' : Mem} {y x : ℕ} (hf : Filled m m' (cellAddr y 0) (blank s) 0 80)
    (hx : x < 80) : cellAt m' y x = (0x20, UInt8.ofNat s.attrib) := by
  have haddr : cellAddr y x = cellAddr y 0 + 2 * x := by
    unfold cellAddr
    omega
  rw [cellAt, haddr, hf.low x (Nat.zero_le x) hx, hf.high x (Nat.zero_le x) hx, blank_low,
    blank_high]

theorem cellAt_frame {m' : Mem} {y y' x : ℕ} (hf : Filled m m' (cellAddr y 0) (blank s) 0 80)
    (hy : y' ≠ y) (hx : x < 80) : cellAt m' y' x = cellAt m y' x := by
  have h0 : m' (cellAddr y' x) = m (cellAddr y' x) := by
    apply hf.frame
    unfold cellAddr
    omega
  have h1 : m' (cellAddr y' x + 1) = m (cellAddr y' x + 1) := by
    apply hf.frame
    unfold cellAddr
    omega
  rw [cellAt, cellAt, h0, h1]

theorem scroll_inside (h : s.csrY < 25) : scroll s = some s := if_neg (by omega)

theorem scroll_last (hp : s.vgaptr = 0xB8000) (hy : s.csrY = 25) :
    ∃ m', scroll s = some { s with mem := m', csrY := 24 } ∧
      (∀ y x, y < 25 → x < 80 →
        cellAt m' y x = if y + 1 < 25 then cellAt s.mem (y + 1) x
          else (0x20, UInt8.ofNat s.attrib)) ∧
      ∀ a, a < 0xB8000 ∨ 0xB8000 + 4000 ≤ a → m' a = s.mem a := by
  have hmove := memcpy_down s.mem (show 753664 ≤ 753824 by decide)
    (show 753824 + 3840 ≤ 4294967296 by decide)
  obtain ⟨m', hm', hfill⟩ := memsetw_fills (memcpy s.mem 753664 753824 3840) (blank s)
    (show 80 < 65536 by decide) (show cellAddr 24 0 + 2 * 80 ≤ 4294967296 by decide)
  refine ⟨m', ?_, fun y x hy' hx => ?_, fun a ha => ?_⟩
  · have hone : word (25 - 25 + 1) = 1 := by decide
    have hsrc : word (((753664 : ℕ) : ℤ) + 2 * (((1 : ℕ) : ℤ) * 80)) = 753824 := by decide
    have hcount : word ((25 - ((1 : ℕ) : ℤ)) * 80 * 2) = 3840 := by decide
    have hlast : word (((753664 : ℕ) : ℤ) + 2 * ((25 - ((1 : ℕ) : ℤ)) * 80)) = cellAddr 24 0 := by
      decide
    have hm80 : memsetw (memcpy s.mem 753664 753824 3840) (cellAddr 24 0) (blank s) 80 = some m' :=
      hm'
    simp only [scroll, hp, hy, le_refl, if_true, hone, hsrc, hcount, hlast]
    rw [hm80]
    rfl
  · by_cases hl : y + 1 < 25
    · have h24 : y ≠ 24 := by omega
      have hlow : 753664 ≤ cellAddr y x ∧ cellAddr y x + 1 < 753664 + 3840 := by
        unfold cellAddr
        omega
      have hnext : cellAddr (y + 1) x = cellAddr y x + 160 := by
        unfold cellAddr
        omega
      have hup : ∀ a, 753664 ≤ a → a < 753664 + 3840 →
          memcpy s.mem 753664 753824 3840 a = s.mem (a + 160) := by
        intro a ha ha'
        rw [hmove a, if_pos ⟨ha, ha'⟩, show 753824 + (a - 753664) = a + 160 by omega]
      rw [if_pos hl, cellAt_frame hfill h24 hx, cellAt, hup _ (by omega) (by omega),
        hup _ (by omega) (by omega), cellAt, hnext, Nat.add_right_comm]
    · have h24 : y = 24 := by omega
      rw [if_neg hl, h24, cellAt_filled hfill hx]
  · have hout : ¬(753664 ≤ a ∧ a < 753664 + 3840) := by omega
    rw [hfill.frame a (by unfold cellAddr; omega), hmove a, if_neg hout]

/-- A cursor just moved below its row is brought back by `scroll`, which
appends to the window what a line feed appends to the terminal. -/
theorem scroll_shows (hd : Drawn m s t) (hx : s.csrX = 0) (hy : s.csrY = t.windowRow 25 + 1) :
    ∃ s', scroll s = some s' ∧ Shows m s' t.lineFeed := by
  have hrow := Terminal.windowRow_lt hd.placed
  have hplaced := Terminal.lineFeed_placed hd.placed
  have hattr : s.attrib = t.lineFeed.attr.byte := by rw [Terminal.lineFeed_attr, hd.attr]
  have hcol : s.csrX = t.lineFeed.col := by rw [Terminal.lineFeed_col, hx, Nat.cast_zero]
  by_cases hr : t.row + 1 < t.height
  · have hdown := Terminal.windowRow_lineFeed_inside hd.placed hr
    have hlow := Terminal.windowRow_lt hplaced
    refine ⟨s, scroll_inside (by omega), ⟨hd.ptr, hattr, hplaced, ?_, hd.frame⟩, hcol, by omega⟩
    intro y x hy' hx'
    rw [hd.cells y x hy' hx', Terminal.window_lineFeed_inside hr]
  · have htall := hd.placed.tall
    have hhigh := hd.placed.high
    have hlast : t.row + 1 = t.height := by omega
    have hstay := Terminal.windowRow_lineFeed_last hd.placed hlast
    have h24 : t.windowRow 25 = 24 := by
      unfold Terminal.windowRow
      omega
    obtain ⟨m', hs, hcells, hframe⟩ := scroll_last hd.ptr (by omega : s.csrY = 25)
    refine ⟨_, hs, ⟨hd.ptr, hattr, hplaced, ?_, ?_⟩, hcol, ?_⟩
    · intro y x hy' hx'
      rw [Terminal.window_lineFeed_last hd.placed hlast hy']
      by_cases hl : y + 1 < 25
      · rw [hcells y x hy' hx', if_pos hl, if_pos hl, hd.cells (y + 1) x hl hx']
      · rw [hcells y x hy' hx', if_neg hl, if_neg hl, hd.attr, encode]
    · intro a ha
      exact (hframe a ha).trans (hd.frame a ha)
    · rw [hstay, h24]
      rfl

/-- Once the cursor has moved to column `k`, wrapping and scrolling settle it
where the reference terminal has it. -/
theorem settle {k : ℕ} (hd : Drawn m s t) (hx : s.csrX = k) (hy : s.csrY = t.windowRow 25) :
    ∃ s', scroll (wrapLine s) = some s' ∧ Shows m s' (t.moveTo 80 k) := by
  have hrow := Terminal.windowRow_lt hd.placed
  by_cases hk : k < 80
  · have hstay : wrapLine s = s := if_neg (by omega)
    rw [hstay, scroll_inside (by omega), Terminal.moveTo_of_lt hk]
    exact ⟨s, rfl, ⟨hd.ptr, hd.attr, Terminal.col_placed hd.placed hk, hd.cells, hd.frame⟩, hx, hy⟩
  · have hwrap : wrapLine s = { s with csrX := 0, csrY := s.csrY + 1 } := if_pos (by omega)
    rw [hwrap, Terminal.moveTo_of_le (by omega)]
    apply scroll_shows
    · exact ⟨hd.ptr, hd.attr, hd.placed, hd.cells, hd.frame⟩
    · rfl
    · simp only [hy]

theorem place_drawn (c : UInt8) (hs : Shows m s t) :
    Drawn m
      { s with
        mem := store16 s.mem (word (s.vgaptr + 2 * (s.csrY * 80 + s.csrX)))
          (c.toNat ||| s.attrib <<< 8)
        csrX := s.csrX + 1 }
      (t.place c) := by
  have hrow := Terminal.windowRow_lt hs.placed
  have hcol := hs.placed.col
  have haddr : word (s.vgaptr + 2 * (s.csrY * 80 + s.csrX)) =
      cellAddr (t.windowRow 25) t.col := by
    rw [hs.ptr, hs.x, hs.y]
    exact word_cellAddr hrow hcol
  refine ⟨hs.ptr, hs.attr, Terminal.place_placed c hs.placed, fun y x hy hx => ?_, fun a ha => ?_⟩
  · rw [haddr, cellAt_store c hcol hx, Terminal.window_place c hs.placed, hs.attr]
    by_cases h : y = t.windowRow 25 ∧ x = t.col
    · rw [if_pos h, if_pos h, encode]
    · rw [if_neg h, if_neg h, hs.cells y x hy hx]
  · have h0 : a ≠ cellAddr (t.windowRow 25) t.col := by
      unfold cellAddr
      omega
    have h1 : a ≠ cellAddr (t.windowRow 25) t.col + 1 := by
      unfold cellAddr
      omega
    rw [haddr]
    simpa [store16, h0, h1] using hs.frame a ha

theorem putchar_shows (c : UInt8) (hs : Shows m s t) :
    ∃ s', scroll (wrapLine (handleChar c s)) = some s' ∧ Shows m s' (t.write 80 8 c) := by
  have hcol := hs.placed.col
  have hx := hs.x
  have hcode : ∀ n : ℕ, n < 128 → (schar c = n ↔ c = UInt8.ofNat n) := by
    intro n hn
    rw [schar_eq hn, ← UInt8.toNat_inj, UInt8.toNat_ofNat_of_lt' (by simp [UInt8.size]; omega)]
  have h8 : schar c = 8 ↔ c = 0x08 := hcode 8 (by decide)
  have h9 : schar c = 9 ↔ c = 0x09 := hcode 9 (by decide)
  have h13 : schar c = 13 ↔ c = 0x0D := hcode 13 (by decide)
  have h10 : schar c = 10 ↔ c = 0x0A := hcode 10 (by decide)
  unfold handleChar Terminal.write
  simp only [h8, h9, h13, h10, schar_printable]
  by_cases hb : c = 0x08
  · rw [if_pos hb, if_pos hb, ← Terminal.moveTo_of_lt (show t.col - 1 < 80 by omega)]
    by_cases h0 : s.csrX ≠ 0
    · rw [if_pos h0]
      exact settle ⟨hs.ptr, hs.attr, hs.placed, hs.cells, hs.frame⟩ (by simp only; omega) hs.y
    · rw [if_neg h0]
      exact settle hs.toDrawn (by omega) hs.y
  rw [if_neg hb, if_neg hb]
  by_cases ht : c = 0x09
  · rw [if_pos ht, if_pos ht]
    exact settle ⟨hs.ptr, hs.attr, hs.placed, hs.cells, hs.frame⟩ (by simp only; omega) hs.y
  rw [if_neg ht, if_neg ht]
  by_cases hr : c = 0x0D
  · rw [if_pos hr, if_pos hr, ← Terminal.moveTo_of_lt (show 0 < 80 by decide)]
    exact settle ⟨hs.ptr, hs.attr, hs.placed, hs.cells, hs.frame⟩ rfl hs.y
  rw [if_neg hr, if_neg hr]
  by_cases hn : c = 0x0A
  · rw [if_pos hn, if_pos hn]
    have hstay : wrapLine { s with csrX := 0, csrY := s.csrY + 1 } =
        { s with csrX := 0, csrY := s.csrY + 1 } := if_neg (by simp)
    rw [hstay]
    apply scroll_shows
    · exact ⟨hs.ptr, hs.attr, hs.placed, hs.cells, hs.frame⟩
    · rfl
    · simp only [hs.y]
  rw [if_neg hn, if_neg hn]
  by_cases hp : 0x20 ≤ c ∧ c < 0x80
  · rw [if_pos hp, if_pos hp]
    exact settle (place_drawn c hs) (by simp only; omega) hs.y
  · rw [if_neg hp, if_neg hp]
    have h := settle hs.toDrawn hx hs.y
    rwa [Terminal.moveTo_of_lt hcol] at h

theorem clsRows_blank (hp : s.vgaptr = 0xB8000) {i : ℕ} (hi : i ≤ 25) :
    ∃ m', clsRows s i = some m' ∧
      (∀ y x, y < i → x < 80 → cellAt m' y x = (0x20, UInt8.ofNat s.attrib)) ∧
      ∀ a, a < 0xB8000 ∨ 0xB8000 + 4000 ≤ a → m' a = s.mem a := by
  induction i with
  | zero => exact ⟨s.mem, rfl, fun y _ hy => absurd hy (Nat.not_lt_zero y), fun _ _ => rfl⟩
  | succ i ih =>
    obtain ⟨m₁, hrows, hcells, hframe⟩ := ih (by omega)
    obtain ⟨m', hm', hfill⟩ := memsetw_fills m₁ (blank s) (show 80 < 65536 by decide)
      (show cellAddr i 0 + 2 * 80 ≤ 4294967296 by unfold cellAddr; omega)
    have haddr : word (s.vgaptr + 2 * ((i : ℤ) * 80)) = cellAddr i 0 := by
      rw [hp]
      have hword := word_cellAddr (y := i) (x := 0) (by omega) (by decide)
      rwa [Nat.cast_zero, add_zero] at hword
    refine ⟨m', ?_, fun y x hy hx => ?_, fun a ha => ?_⟩
    · rw [clsRows, hrows, Option.bind_some, haddr]
      exact hm'
    · by_cases hyi : y = i
      · rw [hyi, cellAt_filled hfill hx]
      · rw [cellAt_frame hfill hyi hx, hcells y x (by omega) hx]
    · rw [hfill.frame a (by unfold cellAddr; omega), hframe a ha]

theorem cls_shows {a : Colours} (hp : s.vgaptr = 0xB8000) (ha : s.attrib = a.byte)
    (hf : ∀ x, x < 0xB8000 ∨ 0xB8000 + 4000 ≤ x → s.mem x = m x) :
    ∃ m', clsRows s 25 = some m' ∧
      Shows m { s with mem := m', csrX := 0, csrY := 0 } (Terminal.fresh 25 a) := by
  obtain ⟨m', hrows, hcells, hframe⟩ := clsRows_blank hp (Nat.le_refl 25)
  refine ⟨m', hrows, ⟨hp, ha, ?_, fun y x hy hx => ?_, fun x hx => ?_⟩, rfl, rfl⟩
  · exact Terminal.fresh_placed (by decide) (by decide) a
  · rw [hcells y x hy hx, ha]
    rfl
  · exact (hframe x hx).trans (hf x hx)

theorem moveCsr_shows (hs : Shows m s t) : Shows m (moveCsr s) t :=
  ⟨⟨hs.ptr, hs.attr, hs.placed, hs.cells, hs.frame⟩, hs.x, hs.y⟩

theorem moveCsr_parked (hs : Shows m s t) : Parked (moveCsr s) t := by
  have hrow := Terminal.windowRow_lt hs.placed
  have hcol := hs.placed.col
  have hword : word (s.csrY * 80 + s.csrX) = t.windowRow 25 * 80 + t.col := by
    rw [hs.x, hs.y]
    exact_mod_cast word_cast (show t.windowRow 25 * 80 + t.col < 4294967296 by omega)
  refine ⟨s.ports, ?_⟩
  simp only [moveCsr, outportb, hword, Nat.shiftRight_eq_div_pow, List.append_assoc,
    List.cons_append, List.nil_append]
  rfl

theorem call_shows (op : Op) (hs : Shows m s t) (hp : Parked s t) :
    ∃ s', call s op = some s' ∧ Shows m s' (request t op) ∧ Parked s' (request t op) := by
  cases op with
  | putchar c =>
    obtain ⟨s', hs', hshow⟩ := putchar_shows c hs
    exact ⟨moveCsr s', by simp [call, vgaPutchar, hs'], moveCsr_shows hshow, moveCsr_parked hshow⟩
  | setfg fg =>
    refine ⟨_, rfl, ⟨⟨hs.ptr, ?_, ?_, hs.cells, hs.frame⟩, hs.x, hs.y⟩, hp⟩
    · simp only [vgaSetfg, request, hs.attr, setfg_attrib]
    · exact ⟨hs.placed.tall, hs.placed.low, hs.placed.high, hs.placed.col⟩
  | setbg bg =>
    refine ⟨_, rfl, ⟨⟨hs.ptr, ?_, ?_, hs.cells, hs.frame⟩, hs.x, hs.y⟩, hp⟩
    · simp only [vgaSetbg, request, hs.attr, setbg_attrib]
    · exact ⟨hs.placed.tall, hs.placed.low, hs.placed.high, hs.placed.col⟩
  | cls =>
    obtain ⟨m', hrows, hshow⟩ := cls_shows hs.ptr hs.attr hs.frame
    exact ⟨_, by simp [call, vgaCls, hrows], moveCsr_shows hshow, moveCsr_parked hshow⟩

theorem calls_show (ops : List Op) (hs : Shows m s t) (hp : Parked s t) :
    ∃ s', ops.foldlM call s = some s' ∧ Shows m s' (ops.foldl request t) ∧
      Parked s' (ops.foldl request t) := by
  induction ops generalizing s t with
  | nil => exact ⟨s, rfl, hs, hp⟩
  | cons op ops ih =>
    obtain ⟨s₁, hcall, hs₁, hp₁⟩ := call_shows op hs hp
    obtain ⟨s', hrest, hs', hp'⟩ := ih hs₁ hp₁
    exact ⟨s', by simpa [hcall] using hrest, hs', hp'⟩

theorem session_shows (m : Mem) (ops : List Op) :
    ∃ s, session m ops = some s ∧ Shows m s (reference ops) ∧ Parked s (reference ops) := by
  obtain ⟨m', hrows, hshow⟩ := cls_shows (m := m) (a := ⟨15, 0⟩)
    (s := { boot m with vgaptr := 0xB8000 }) rfl rfl fun _ _ => rfl
  obtain ⟨s, hs, hshows, hparked⟩ := calls_show ops (moveCsr_shows hshow) (moveCsr_parked hshow)
  exact ⟨s, by simpa [session, vgaInit, vgaCls, hrows] using hs, hshows, hparked⟩

/-- After every sequence of calls the text memory and the cursor are the window
onto the last 25 rows of the reference terminal, and no byte outside the 2000
cells has changed. -/
theorem vga_refines_terminal (m : Mem) (ops : List Op) :
    ∃ s, session m ops = some s ∧
      (∀ y x, y < 25 → x < 80 → cellAt s.mem y x = encode ((reference ops).window 25 y x)) ∧
      s.csrX = (reference ops).col ∧ s.csrY = (reference ops).windowRow 25 ∧
      (0 ≤ s.csrX ∧ s.csrX < 80) ∧ (0 ≤ s.csrY ∧ s.csrY < 25) ∧
      Parked s (reference ops) ∧
      ∀ a, a < 0xB8000 ∨ 0xB8000 + 2 * 2000 ≤ a → s.mem a = m a := by
  obtain ⟨s, hs, hshows, hparked⟩ := session_shows m ops
  have hcol := hshows.placed.col
  have hrow := Terminal.windowRow_lt hshows.placed
  have hx := hshows.x
  have hy := hshows.y
  exact ⟨s, hs, hshows.cells, hx, hy, ⟨by omega, by omega⟩, ⟨by omega, by omega⟩, hparked,
    hshows.frame⟩

end Jiauliyan.TerminalRefinement
