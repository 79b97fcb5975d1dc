import Jiauliyan.ScreenEcho

namespace Jiauliyan.CharacterPaths

open Jiauliyan.Memory Jiauliyan.CString Jiauliyan.Vga Jiauliyan.TerminalRefinement
open Jiauliyan.ScreenEcho (OnScreen Near charStep_ptr putchar_returns putchar_screen)

def vgaoutPut (c : UInt8) (s : Screen) : Option (ℤ × Screen) :=
  (vgaPutchar c s).map fun s' => (c.toNat, s')

/-- The screens of all runs of the driver, from any memory on. -/
inductive Reachable : Screen → Prop
  | init {m : Mem} {s : Screen} (h : vgaInit (boot m) = some s) : Reachable s
  | call {s s' : Screen} (op : Op) (later : Reachable s) (h : call s op = some s') : Reachable s'
  | placechar {s : Screen} (c : UInt8) (x y : ℤ) (later : Reachable s) :
      Reachable (vgaPlacechar c x y s)

/-- From `s` on the cursor has gone on by one column. At the end of a row it is in the next row, and
at the end of the last one the rows have moved up and a blank one has come. -/
structure Advanced (s s' : Screen) : Prop where
  attrib : s'.attrib = s.attrib
  inside : s.csrX + 1 < 80 → s'.csrX = s.csrX + 1 ∧ s'.csrY = s.csrY ∧ s'.mem = s.mem
  wrap : s.csrX + 1 = 80 → s.csrY + 1 < 25 →
    s'.csrX = 0 ∧ s'.csrY = s.csrY + 1 ∧ s'.mem = s.mem
  scroll : s.csrX + 1 = 80 → s.csrY + 1 = 25 → s'.csrX = 0 ∧ s'.csrY = 24 ∧
    (∀ y x, y < 25 → x < 80 → cellAt s'.mem y x =
      if y + 1 < 25 then cellAt s.mem (y + 1) x else (0x20, UInt8.ofNat s.attrib)) ∧
    ∀ a, a < 0xB8000 ∨ 0xB8000 + 4000 ≤ a → s'.mem a = s.mem a

/-- A character on the stream is put where `vga_placechar` puts it, and the cursor goes on. -/
def Right (c : UInt8) (s : Screen) : Prop :=
  ∃ s', vgaoutPut c s = some ((c.toNat : ℤ), s') ∧ Advanced (vgaPlacechar c s.csrX s.csrY s) s'

variable {c : UInt8} {s s' : Screen}

theorem putchar_onScreen (c : UInt8) (hp : s.vgaptr = 0xB8000) (hon : OnScreen s) :
    ∃ s', vgaPutchar c s = some s' ∧ s'.vgaptr = 0xB8000 ∧ OnScreen s' := by
  obtain ⟨d', hd, hwithin, hon'⟩ :=
    putchar_returns (d := ⟨s, []⟩) c (Near.of_onScreen hp hon)
  refine ⟨d'.screen, ?_, ?_, hon'⟩
  · rw [← putchar_screen c ⟨s, []⟩, hd, Option.map_some]
  · exact hwithin.ptr.trans ((charStep_ptr c _).trans hp)

theorem cls_onScreen (h : vgaCls s = some s') : s'.vgaptr = s.vgaptr ∧ OnScreen s' := by
  obtain ⟨m, -, rfl⟩ := Option.map_eq_some_iff.mp h
  exact ⟨rfl, ⟨Int.le_refl 0, Int.ofNat_lt.mpr (by decide)⟩, Int.le_refl 0,
    Int.ofNat_lt.mpr (by decide)⟩

theorem Reachable.onScreen (h : Reachable s) : s.vgaptr = 0xB8000 ∧ OnScreen s := by
  induction h with
  | init h => exact cls_onScreen h
  | call op hreach h ih =>
    obtain ⟨hp, hon⟩ := ih
    cases op with
    | putchar c =>
      obtain ⟨t, ht, hp', hon'⟩ := putchar_onScreen c hp hon
      obtain rfl := Option.some.inj (ht.symm.trans h)
      exact ⟨hp', hon'⟩
    | setfg fg =>
      obtain rfl := Option.some.inj h
      exact ⟨hp, hon⟩
    | setbg bg =>
      obtain rfl := Option.some.inj h
      exact ⟨hp, hon⟩
    | cls =>
      obtain ⟨hp', hon'⟩ := cls_onScreen h
      exact ⟨hp'.trans hp, hon'⟩
  | placechar c x y hreach ih => exact ih

def onward (s : Screen) : Screen := { s with csrX := s.csrX + 1 }

/-- With its character stored as `vga_placechar` stores it, what is left of the call is to move the
cursor. -/
theorem handleChar_printable (hc : 0x20 ≤ c) (hlow : c < 0x80) :
    handleChar c s = onward (vgaPlacechar c s.csrX s.csrY s) := by
  have hprint : 0x20 ≤ schar c := (schar_printable c).mpr ⟨hc, hlow⟩
  rw [handleChar, if_neg (by omega), if_neg (by omega), if_neg (by omega), if_neg (by omega),
    if_pos hprint]
  rfl

theorem handleChar_extended (hc : 0x80 ≤ c) : handleChar c s = s := by
  have hneg : schar c < 0 := by
    have hlt := c.toNat_lt
    have hle : 128 ≤ c.toNat := UInt8.le_iff_toNat_le.mp hc
    rw [schar, if_neg (by omega)]
    omega
  rw [handleChar, if_neg (by omega), if_neg (by omega), if_neg (by omega), if_neg (by omega),
    if_neg (by omega)]

theorem onward_advanced (hp : s.vgaptr = 0xB8000) (hon : OnScreen s) :
    ∃ s', (scroll (wrapLine (onward s))).map moveCsr = some s' ∧ Advanced s s' := by
  obtain ⟨⟨hx, hx'⟩, hy, hy'⟩ := hon
  by_cases hcol : s.csrX + 1 < 80
  · have hstay : wrapLine (onward s) = onward s := if_neg (not_le.mpr hcol)
    rw [hstay, scroll_inside (s := onward s) hy']
    exact ⟨_, rfl, rfl, fun _ => ⟨rfl, rfl, rfl⟩, fun h => absurd hcol (by omega),
      fun h => absurd hcol (by omega)⟩
  · have hwrap : wrapLine (onward s) = { s with csrX := 0, csrY := s.csrY + 1 } :=
      if_pos (not_lt.mp hcol)
    rw [hwrap]
    by_cases hrow : s.csrY + 1 < 25
    · rw [scroll_inside (s := { s with csrX := 0, csrY := s.csrY + 1 }) hrow]
      exact ⟨_, rfl, rfl, fun h => absurd h hcol, fun _ _ => ⟨rfl, rfl, rfl⟩,
        fun _ h => absurd hrow (by omega)⟩
    · have hlast : s.csrY + 1 = 25 := by omega
      obtain ⟨m', hscroll, hcells, hframe⟩ := scroll_last
        (s := { s with csrX := 0, csrY := s.csrY + 1 }) hp hlast
      rw [hscroll]
      exact ⟨_, rfl, rfl, fun h => absurd h hcol, fun _ h => absurd h hrow,
        fun _ _ => ⟨rfl, rfl, hcells, hframe⟩⟩

theorem right_printable (hp : s.vgaptr = 0xB8000) (hon : OnScreen s) (hc : 0x20 ≤ c)
    (hlow : c < 0x80) : Right c s := by
  obtain ⟨s', hs', hadv⟩ := onward_advanced (s := vgaPlacechar c s.csrX s.csrY s) hp hon
  refine ⟨s', ?_, hadv⟩
  rw [vgaoutPut, vgaPutchar, handleChar_printable hc hlow, hs', Option.map_some]

theorem not_right_extended (hon : OnScreen s) (hc : 0x80 ≤ c) : ¬Right c s := by
  obtain ⟨⟨hx, hx'⟩, hy, hy'⟩ := hon
  rintro ⟨s', hput, hadv⟩
  have hstay : vgaoutPut c s = some ((c.toNat : ℤ), moveCsr s) := by
    rw [vgaoutPut, vgaPutchar, handleChar_extended hc, wrapLine, if_neg (by omega),
      scroll_inside hy']
    rfl
  rw [hstay] at hput
  obtain rfl := (Prod.mk.inj (Option.some.inj hput)).2
  by_cases hcol : s.csrX + 1 < 80
  · have hmoved : s.csrX = s.csrX + 1 := (hadv.inside hcol).1
    omega
  · have hlast : s.csrX + 1 = 80 := by omega
    by_cases hrow : s.csrY + 1 < 25
    · have hmoved : s.csrX = 0 := (hadv.wrap hlast hrow).1
      omega
    · have hmoved : s.csrX = 0 := (hadv.scroll hlast (show s.csrY + 1 = 25 by omega)).1
      omega

/-- The stream draws the characters up to 0x7F and drops the others. -/
theorem paths_agree_iff (h : Reachable s) (hc : 0x20 ≤ c) : Right c s ↔ c < 0x80 := by
  obtain ⟨hp, hon⟩ := h.onScreen
  constructor
  · intro hright
    by_contra hhigh
    exact not_right_extended hon (UInt8.not_lt.mp hhigh) hright
  · exact right_printable hp hon hc

theorem init_reachable (m : Mem) : ∃ s, vgaInit (boot m) = some s := by
  obtain ⟨s, hs, -⟩ := session_shows m []
  obtain ⟨t, ht, -⟩ := Option.bind_eq_some_iff.mp hs
  exact ⟨t, ht⟩

theorem paths_agree_letter : ∃ s, vgaInit (boot fun _ => 0) = some s ∧
    (Right 0x41 s ↔ (0x41 : UInt8) < 0x80) := by
  obtain ⟨s, hs⟩ := init_reachable fun _ => 0
  exact ⟨s, hs, paths_agree_iff (.init hs) (by decide)⟩

/-- A shaded block of the extended characters does not appear. -/
theorem extended_dropped : ∃ s, Reachable s ∧ ¬Right 0xB0 s := by
  obtain ⟨s, hs⟩ := init_reachable fun _ => 0
  have hreach : Reachable s := .init hs
  exact ⟨s, hreach, not_right_extended hreach.onScreen.2 (by decide)⟩

end Jiauliyan.CharacterPaths
