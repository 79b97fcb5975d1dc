import Jiauliyan.Execution
import Jiauliyan.Keyboard
import Jiauliyan.TerminalRefinement

namespace Jiauliyan.ScreenEcho

open Jiauliyan.Execution Jiauliyan.Memory Jiauliyan.CString Jiauliyan.Vga
open Jiauliyan.Keyboard (Keys keyboardInterrupt kbdus keyChar)
open Jiauliyan.TerminalRefinement (word_cast session_shows)

/-- The screen, with the address and the length of every write to memory. -/
structure Display where
  screen : Screen
  writes : List (ℕ × ℕ)

def cell (s : Screen) : ℕ := word (s.vgaptr + 2 * (s.csrY * 80 + s.csrX))

def storeStep (c : UInt8) (d : Display) : Display :=
  if 0x20 ≤ schar c then
    ⟨{ d.screen with
        mem := store16 d.screen.mem (cell d.screen) (c.toNat ||| d.screen.attrib <<< 8) },
      d.writes ++ [(cell d.screen, 2)]⟩
  else d

def cursorStep (c : UInt8) (d : Display) : Display where
  screen := { d.screen with
    csrX := (handleChar c d.screen).csrX
    csrY := (handleChar c d.screen).csrY }
  writes := d.writes

def charStep (c : UInt8) (d : Display) : Display := cursorStep c (storeStep c d)

def wrapStep (d : Display) : Display := ⟨wrapLine d.screen, d.writes⟩

def temp (s : Screen) : ℤ := word (s.csrY - 25 + 1)

def copyStep (temp : ℤ) (d : Display) : Display where
  screen := { d.screen with
    mem := memcpy d.screen.mem d.screen.vgaptr (word (d.screen.vgaptr + 2 * (temp * 80)))
      (word ((25 - temp) * 80 * 2)) }
  writes := d.writes ++ [(d.screen.vgaptr, word ((25 - temp) * 80 * 2))]

def blankStep (temp : ℤ) (d : Display) : Option Display :=
  (memsetw d.screen.mem (word (d.screen.vgaptr + 2 * ((25 - temp) * 80))) (blank d.screen) 80).map
    fun m =>
      ⟨{ d.screen with mem := m },
        d.writes ++ [(word (d.screen.vgaptr + 2 * ((25 - temp) * 80)), 160)]⟩

def resetStep (d : Display) : Display := ⟨{ d.screen with csrY := 25 - 1 }, d.writes⟩

def moveStep (d : Display) : Display := ⟨moveCsr d.screen, d.writes⟩

def putchar (c : UInt8) (d : Display) : Option Display :=
  let d := wrapStep (charStep c d)
  if 25 ≤ d.screen.csrY then
    (blankStep (temp d.screen) (copyStep (temp d.screen) d)).map fun d => moveStep (resetStep d)
  else some (moveStep d)

inductive Phase
  | idle
  | called (c : UInt8)
  | stored (c : UInt8)
  | moved
  | wrapped
  | copied (temp : ℤ)
  | blanked
  | scrolled

structure State where
  display : Display
  phase : Phase
  keys : Keys

inductive Label
  | call (c : UInt8)
  | step
  | interrupt (scancode : UInt8)

def echo (scancode : UInt8) (k : Keys) : List UInt8 :=
  (keyboardInterrupt scancode k).shown.drop k.shown.length

def next (s : State) : Label → Option State
  | .call c =>
    match s.phase with
    | .idle => some { s with phase := .called c }
    | _ => none
  | .step =>
    match s.phase with
    | .idle => none
    | .called c => some { s with display := storeStep c s.display, phase := .stored c }
    | .stored c => some { s with display := cursorStep c s.display, phase := .moved }
    | .moved => some { s with display := wrapStep s.display, phase := .wrapped }
    | .wrapped =>
      if 25 ≤ s.display.screen.csrY then
        some { s with
          display := copyStep (temp s.display.screen) s.display
          phase := .copied (temp s.display.screen) }
      else some { s with phase := .scrolled }
    | .copied temp =>
      (blankStep temp s.display).map fun d => { s with display := d, phase := .blanked }
    | .blanked => some { s with display := resetStep s.display, phase := .scrolled }
    | .scrolled => some { s with display := moveStep s.display, phase := .idle }
  | .interrupt scancode =>
    ((echo scancode s.keys).foldlM (fun d c => putchar c d) s.display).map fun d =>
      { s with display := d, keys := keyboardInterrupt scancode s.keys }

/-- The bytes of the 80 x 25 cells. -/
def InBuffer (w : ℕ × ℕ) : Prop := 0xB8000 ≤ w.1 ∧ w.1 + w.2 ≤ 0xB8000 + 2 * (80 * 25)

def OnScreen (s : Screen) : Prop :=
  (0 ≤ s.csrX ∧ s.csrX < 80) ∧ 0 ≤ s.csrY ∧ s.csrY < 25

/-- Every write is in the buffer, and between calls the cursor is on the screen. -/
structure InBounds (m : Mem) (s : State) : Prop where
  writes : ∀ w ∈ s.display.writes, InBuffer w
  frame : ∀ a, a < 0xB8000 ∨ 0xB8000 + 2 * (80 * 25) ≤ a → s.display.screen.mem a = m a
  cursor : s.phase = .idle → OnScreen s.display.screen

/-- Every state of the run is in bounds. -/
def StaysInBounds (m : Mem) (s : State) (ls : List Label) : Prop :=
  InBounds m s ∧ Along next (fun s l => ∀ t, next s l = some t → InBounds m t) s ls

/-- No key is echoed as a printable character while the cursor is past the last cell. -/
def EchoFits (s : State) : Label → Prop
  | .interrupt scancode =>
    ∀ c, (echo scancode s.keys).head? = some c → 0x20 ≤ schar c →
      s.display.screen.csrY * 80 + s.display.screen.csrX < 80 * 25
  | _ => True

variable {m : Mem} {c : UInt8} {d d' : Display} {s t : Screen}

theorem charStep_screen (c : UInt8) (d : Display) :
    (charStep c d).screen = handleChar c d.screen := by
  simp only [charStep, cursorStep, storeStep, handleChar, cell]
  split_ifs <;> first | rfl | omega

theorem putchar_screen (c : UInt8) (d : Display) :
    (putchar c d).map Display.screen = vgaPutchar c d.screen := by
  have hwrap : (wrapStep (charStep c d)).screen = wrapLine (handleChar c d.screen) :=
    congrArg wrapLine (charStep_screen c d)
  rw [putchar, vgaPutchar, scroll, ← hwrap]
  by_cases hy : 25 ≤ (wrapStep (charStep c d)).screen.csrY
  · rw [if_pos hy, if_pos hy]
    simp only [blankStep, Option.map_map]
    rfl
  · rw [if_neg hy, if_neg hy]
    rfl

theorem putchar_steps (k : Keys) (h : putchar c d = some d') :
    ∃ n, Run (fun s l t => next s l = some t) ⟨d, .called c, k⟩ (List.replicate n .step)
      ⟨d', .idle, k⟩ := by
  rw [putchar] at h
  by_cases hy : 25 ≤ (wrapStep (charStep c d)).screen.csrY
  · rw [if_pos hy] at h
    obtain ⟨e, he, rfl⟩ := Option.map_eq_some_iff.mp h
    have hblank : next ⟨copyStep (temp (wrapStep (charStep c d)).screen) (wrapStep (charStep c d)),
        .copied (temp (wrapStep (charStep c d)).screen), k⟩ .step = some ⟨e, .blanked, k⟩ :=
      congrArg (Option.map fun d => (⟨d, .blanked, k⟩ : State)) he
    exact ⟨7, .cons rfl (.cons rfl (.cons rfl (.cons (if_pos hy)
      (.cons hblank (.cons rfl (.cons rfl (.nil _)))))))⟩
  · rw [if_neg hy] at h
    obtain rfl := Option.some.inj h
    exact ⟨5, .cons rfl (.cons rfl (.cons rfl (.cons (if_neg hy) (.cons rfl (.nil _)))))⟩

theorem handleChar_cursor (c : UInt8) (hx : 0 ≤ s.csrX) (hx' : s.csrX ≤ 80) :
    0 ≤ (handleChar c s).csrX ∧ (handleChar c s).csrX ≤ 88 ∧
      (s.csrX < 80 → (handleChar c s).csrX ≤ 80) ∧
        s.csrY ≤ (handleChar c s).csrY ∧ (handleChar c s).csrY ≤ s.csrY + 1 := by
  unfold handleChar
  split_ifs <;> first | omega | (simp only; omega)

theorem wrapLine_cursor (hx : 0 ≤ s.csrX) :
    (0 ≤ (wrapLine s).csrX ∧ (wrapLine s).csrX < 80) ∧
      s.csrY ≤ (wrapLine s).csrY ∧ (wrapLine s).csrY ≤ s.csrY + 1 := by
  unfold wrapLine
  split_ifs
  · simp only
    omega
  · omega

structure Within (d d' : Display) : Prop where
  ptr : d'.screen.vgaptr = d.screen.vgaptr
  writes : ∃ ws, d'.writes = d.writes ++ ws ∧ ∀ w ∈ ws, InBuffer w
  frame : ∀ a, a < 0xB8000 ∨ 0xB8000 + 2 * (80 * 25) ≤ a → d'.screen.mem a = d.screen.mem a

theorem Within.trans {d₁ d₂ d₃ : Display} (h : Within d₁ d₂) (h' : Within d₂ d₃) :
    Within d₁ d₃ := by
  obtain ⟨ws, hws, hin⟩ := h.writes
  obtain ⟨ws', hws', hin'⟩ := h'.writes
  refine ⟨h'.ptr.trans h.ptr, ⟨ws ++ ws', ?_, ?_⟩, fun a ha => (h'.frame a ha).trans (h.frame a ha)⟩
  · rw [hws', hws, List.append_assoc]
  · exact List.forall_mem_append.mpr ⟨hin, hin'⟩

theorem Within.still {d d' : Display} (hp : d'.screen.vgaptr = d.screen.vgaptr)
    (hw : d'.writes = d.writes) (hm : d'.screen.mem = d.screen.mem) : Within d d' :=
  ⟨hp, ⟨[], by rw [hw, List.append_nil], by simp⟩, fun a _ => by rw [hm]⟩

theorem cell_inBuffer (hp : s.vgaptr = 0xB8000) (hx : 0 ≤ s.csrX) (hy : 0 ≤ s.csrY)
    (hfit : s.csrX ≤ 80) (hrow : s.csrY ≤ 26) :
    InBuffer (cell s, 2) ↔ s.csrY * 80 + s.csrX < 80 * 25 := by
  have hcell : cell s = (0xB8000 + 2 * (s.csrY * 80 + s.csrX)).toNat := by
    simp only [cell, hp, word]
    omega
  simp only [InBuffer, hcell]
  omega

theorem storeStep_within (hp : d.screen.vgaptr = 0xB8000) (hx : 0 ≤ d.screen.csrX)
    (hy : 0 ≤ d.screen.csrY) (hfit : d.screen.csrX ≤ 80) (hrow : d.screen.csrY ≤ 26)
    (hin : 0x20 ≤ schar c → d.screen.csrY * 80 + d.screen.csrX < 80 * 25) :
    Within d (storeStep c d) := by
  rw [storeStep]
  by_cases hc : 0x20 ≤ schar c
  · have hcell := (cell_inBuffer hp hx hy hfit hrow).mpr (hin hc)
    rw [if_pos hc]
    refine ⟨rfl, ⟨[(cell d.screen, 2)], rfl, by simpa using hcell⟩, fun a ha => ?_⟩
    have h0 : a ≠ cell d.screen := by
      simp only [InBuffer] at hcell
      omega
    have h1 : a ≠ cell d.screen + 1 := by
      simp only [InBuffer] at hcell
      omega
    simp only [store16, Function.update_of_ne h1, Function.update_of_ne h0]
  · rw [if_neg hc]
    exact .still rfl rfl rfl

theorem cursorStep_within (c : UInt8) (d : Display) : Within d (cursorStep c d) :=
  .still rfl rfl rfl

theorem storeStep_cursor (c : UInt8) (d : Display) :
    (storeStep c d).screen.vgaptr = d.screen.vgaptr ∧
      (storeStep c d).screen.csrX = d.screen.csrX ∧
        (storeStep c d).screen.csrY = d.screen.csrY := by
  rw [storeStep]
  split_ifs <;> exact ⟨rfl, rfl, rfl⟩

theorem charStep_within (hp : d.screen.vgaptr = 0xB8000) (hx : 0 ≤ d.screen.csrX)
    (hy : 0 ≤ d.screen.csrY) (hfit : d.screen.csrX ≤ 80) (hrow : d.screen.csrY ≤ 26)
    (hin : 0x20 ≤ schar c → d.screen.csrY * 80 + d.screen.csrX < 80 * 25) :
    Within d (charStep c d) :=
  (storeStep_within hp hx hy hfit hrow hin).trans (cursorStep_within c _)

theorem charStep_ptr (c : UInt8) (d : Display) :
    (charStep c d).screen.vgaptr = d.screen.vgaptr := (storeStep_cursor c d).1

theorem wrapStep_within (d : Display) : Within d (wrapStep d) := by
  have hwrap : (wrapLine d.screen).vgaptr = d.screen.vgaptr ∧
      (wrapLine d.screen).mem = d.screen.mem := by
    unfold wrapLine
    split_ifs <;> exact ⟨rfl, rfl⟩
  exact .still hwrap.1 rfl hwrap.2

theorem copyStep_within {k : ℤ} (hp : d.screen.vgaptr = 0xB8000) (h1 : 1 ≤ k) (h4 : k ≤ 4) :
    Within d (copyStep k d) := by
  have hlen : word ((25 - k) * 80 * 2) = ((25 - k) * 160).toNat := by
    simp only [word]
    omega
  refine ⟨rfl, ⟨_, rfl, ?_⟩, fun a ha => ?_⟩
  · rw [List.forall_mem_singleton, hlen, hp]
    simp only [InBuffer]
    omega
  · refine memcpy_frame fun i hi => ?_
    rw [hlen] at hi
    rw [hp, u32_eq (by omega)]
    omega

theorem blankStep_within {k : ℤ} (hp : d.screen.vgaptr = 0xB8000) (h1 : 1 ≤ k) (h4 : k ≤ 4) :
    ∃ d', blankStep k d = some d' ∧ Within d d' ∧ d'.screen.csrX = d.screen.csrX ∧
      d'.screen.csrY = d.screen.csrY := by
  have hdest : word (d.screen.vgaptr + 2 * ((25 - k) * 80)) = 0xB8000 + ((25 - k) * 160).toNat := by
    simp only [word, hp]
    omega
  obtain ⟨m', hm', hfill⟩ := memsetw_fills d.screen.mem (blank d.screen)
    (show 80 < 65536 by decide)
    (show 0xB8000 + ((25 - k) * 160).toNat + 2 * 80 ≤ 4294967296 by omega)
  have hm80 : memsetw d.screen.mem (0xB8000 + ((25 - k) * 160).toNat) (blank d.screen) 80 =
      some m' := hm'
  rw [blankStep, hdest, hm80]
  refine ⟨_, rfl, ⟨rfl, ⟨_, rfl, ?_⟩, fun a ha => hfill.frame a (by omega)⟩, rfl, rfl⟩
  rw [List.forall_mem_singleton]
  simp only [InBuffer]
  omega

theorem resetStep_within (d : Display) : Within d (resetStep d) := .still rfl rfl rfl

theorem moveStep_within (d : Display) : Within d (moveStep d) := .still rfl rfl rfl

theorem temp_eq (hy : 25 ≤ s.csrY) (hrow : s.csrY ≤ 28) : temp s = s.csrY - 24 := by
  simp only [temp, word]
  omega

/-- Where the cursor can be within a call, at most a row below the screen and at its edge. -/
structure Near (s : Screen) : Prop where
  ptr : s.vgaptr = 0xB8000
  left : 0 ≤ s.csrX
  right : s.csrX ≤ 80
  top : 0 ≤ s.csrY
  bottom : s.csrY ≤ 26

theorem Near.of_onScreen (hp : s.vgaptr = 0xB8000) (h : OnScreen s) : Near s := by
  obtain ⟨⟨hx, hx'⟩, hy, hy'⟩ := h
  exact ⟨hp, hx, by omega, hy, by omega⟩

/-- From wherever the cursor is, a call brings it back, and writes outside only with its
character. -/
theorem putchar_returns (c : UInt8) (h : Near d.screen) :
    ∃ d', putchar c d = some d' ∧ Within (charStep c d) d' ∧ OnScreen d'.screen := by
  obtain ⟨hx, hx', -, hy, hy'⟩ := handleChar_cursor c h.left h.right
  have htop := h.top
  have hbottom := h.bottom
  rw [← charStep_screen] at hx hx' hy hy'
  have hptr : (wrapStep (charStep c d)).screen.vgaptr = 0xB8000 :=
    (wrapStep_within _).ptr.trans ((charStep_ptr c d).trans h.ptr)
  obtain ⟨hcol, hdown, hdown'⟩ := wrapLine_cursor hx
  have hcol : 0 ≤ (wrapStep (charStep c d)).screen.csrX ∧
      (wrapStep (charStep c d)).screen.csrX < 80 := hcol
  have hlow : 0 ≤ (wrapStep (charStep c d)).screen.csrY := htop.trans (hy.trans hdown)
  have hhigh : (wrapStep (charStep c d)).screen.csrY ≤ 28 := hdown'.trans (by omega)
  have hwithin := wrapStep_within (charStep c d)
  rw [putchar]
  generalize wrapStep (charStep c d) = e at hptr hcol hlow hhigh hwithin
  by_cases hrow : 25 ≤ e.screen.csrY
  · have htemp := temp_eq hrow hhigh
    have h1 : 1 ≤ temp e.screen := by omega
    have h4 : temp e.screen ≤ 4 := by omega
    have hcopy := copyStep_within hptr h1 h4
    obtain ⟨e', he', hblank, hx', -⟩ :=
      blankStep_within (d := copyStep (temp e.screen) e) hptr h1 h4
    have hmove := (resetStep_within e').trans (moveStep_within _)
    refine ⟨moveStep (resetStep e'), ?_, hwithin.trans (hcopy.trans (hblank.trans hmove)), ?_⟩
    · simp only [if_pos hrow, he', Option.map_some]
    · have hcol' : (moveStep (resetStep e')).screen.csrX = e.screen.csrX := hx'
      have hreset : (moveStep (resetStep e')).screen.csrY = 24 := rfl
      rw [OnScreen, hcol', hreset]
      exact ⟨hcol, by decide, by decide⟩
  · refine ⟨moveStep e, if_neg hrow, hwithin.trans (moveStep_within e), ?_⟩
    have hcol' : (moveStep e).screen.csrX = e.screen.csrX := rfl
    have hrow' : (moveStep e).screen.csrY = e.screen.csrY := rfl
    rw [OnScreen, hcol', hrow']
    exact ⟨hcol, hlow, Int.not_le.mp hrow⟩

theorem putchar_fits (h : Near d.screen)
    (hin : 0x20 ≤ schar c → d.screen.csrY * 80 + d.screen.csrX < 80 * 25) :
    ∃ d', putchar c d = some d' ∧ Within d d' ∧ OnScreen d'.screen := by
  obtain ⟨d', hd, hw, hon⟩ := putchar_returns c h
  exact ⟨d', hd, (charStep_within h.ptr h.left h.top h.right h.bottom hin).trans hw, hon⟩

theorem putchars_return (cs : List UInt8) (hp : d.screen.vgaptr = 0xB8000)
    (hon : OnScreen d.screen) :
    ∃ d', cs.foldlM (fun d c => putchar c d) d = some d' ∧ Within d d' ∧ OnScreen d'.screen := by
  induction cs generalizing d with
  | nil => exact ⟨d, rfl, .still rfl rfl rfl, hon⟩
  | cons c cs ih =>
    have hfits : 0x20 ≤ schar c → d.screen.csrY * 80 + d.screen.csrX < 80 * 25 := by
      obtain ⟨⟨hx, hx'⟩, hy, hy'⟩ := hon
      omega
    obtain ⟨e, he, hw, hone⟩ := putchar_fits (.of_onScreen hp hon) hfits
    obtain ⟨d', hd, hw', hond⟩ := ih (hw.ptr.trans hp) hone
    exact ⟨d', by rw [List.foldlM_cons, he]; exact hd, hw.trans hw', hond⟩

theorem echo_returns (c : UInt8) (cs : List UInt8) (h : Near d.screen) :
    ∃ d', (c :: cs).foldlM (fun d c => putchar c d) d = some d' ∧ Within (charStep c d) d' ∧
      OnScreen d'.screen := by
  obtain ⟨e, he, hw, hon⟩ := putchar_returns c h
  have hp : e.screen.vgaptr = 0xB8000 :=
    hw.ptr.trans ((charStep_ptr c d).trans h.ptr)
  obtain ⟨d', hd, hw', hond⟩ := putchars_return cs hp hon
  exact ⟨d', by rw [List.foldlM_cons, he]; exact hd, hw.trans hw', hond⟩

def Reached (s : Screen) : Phase → Prop
  | .moved => (0 ≤ s.csrX ∧ s.csrX ≤ 80) ∧ 0 ≤ s.csrY ∧ s.csrY ≤ 25
  | .wrapped => (0 ≤ s.csrX ∧ s.csrX < 80) ∧ 0 ≤ s.csrY ∧ s.csrY ≤ 26
  | .copied k => (1 ≤ k ∧ k ≤ 4) ∧ (0 ≤ s.csrX ∧ s.csrX < 80) ∧ 0 ≤ s.csrY ∧ s.csrY ≤ 26
  | .blanked => (0 ≤ s.csrX ∧ s.csrX < 80) ∧ 0 ≤ s.csrY ∧ s.csrY ≤ 26
  | _ => OnScreen s

/-- The invariant of the runs that stay in bounds. -/
structure Sound (m : Mem) (s : State) : Prop where
  ptr : s.display.screen.vgaptr = 0xB8000
  writes : ∀ w ∈ s.display.writes, InBuffer w
  frame : ∀ a, a < 0xB8000 ∨ 0xB8000 + 2 * (80 * 25) ≤ a → s.display.screen.mem a = m a
  cursor : Reached s.display.screen s.phase

variable {u v : State} {l : Label}

theorem Sound.inBounds (h : Sound m u) : InBounds m u where
  writes := h.writes
  frame := h.frame
  cursor hp := by
    have hc := h.cursor
    rw [hp] at hc
    exact hc

theorem Sound.near (h : Sound m u) : Near u.display.screen := by
  obtain ⟨hp, -, -, hc⟩ := h
  cases hphase : u.phase with
  | moved =>
    rw [hphase] at hc
    obtain ⟨⟨hx, hx'⟩, hy, hy'⟩ := hc
    exact ⟨hp, hx, hx', hy, by omega⟩
  | wrapped =>
    rw [hphase] at hc
    obtain ⟨⟨hx, hx'⟩, hy, hy'⟩ := hc
    exact ⟨hp, hx, by omega, hy, hy'⟩
  | copied k =>
    rw [hphase] at hc
    obtain ⟨-, ⟨hx, hx'⟩, hy, hy'⟩ := hc
    exact ⟨hp, hx, by omega, hy, hy'⟩
  | blanked =>
    rw [hphase] at hc
    obtain ⟨⟨hx, hx'⟩, hy, hy'⟩ := hc
    exact ⟨hp, hx, by omega, hy, hy'⟩
  | idle | called | stored | scrolled =>
    rw [hphase] at hc
    exact .of_onScreen hp hc

theorem Sound.within (h : Sound m u) (hw : Within u.display v.display)
    (hc : Reached v.display.screen v.phase) : Sound m v := by
  obtain ⟨ws, hws, hin⟩ := hw.writes
  refine ⟨hw.ptr.trans h.ptr, ?_, fun a ha => (hw.frame a ha).trans (h.frame a ha), hc⟩
  rw [hws]
  exact List.forall_mem_append.mpr ⟨h.writes, hin⟩

theorem Reached.of_onScreen {s' : Screen} (h : Reached s u.phase) (hon : OnScreen s') :
    Reached s' u.phase := by
  obtain ⟨⟨hx, hx'⟩, hy, hy'⟩ := hon
  cases hphase : u.phase with
  | moved => exact ⟨⟨hx, by omega⟩, hy, by omega⟩
  | wrapped | blanked => exact ⟨⟨hx, hx'⟩, hy, by omega⟩
  | copied k =>
    rw [hphase] at h
    exact ⟨h.1, ⟨hx, hx'⟩, hy, by omega⟩
  | idle | called | stored | scrolled => exact ⟨⟨hx, hx'⟩, hy, hy'⟩

theorem sound_step (h : Sound m u) (hs : next u .step = some v) : Sound m v := by
  obtain ⟨d, phase, k⟩ := u
  have hc : Reached d.screen phase := h.cursor
  cases phase with
  | idle => cases hs
  | called c =>
    cases hs
    obtain ⟨⟨hx, hx'⟩, hy, hy'⟩ := hc
    have hp : d.screen.vgaptr = 0xB8000 := h.ptr
    have hwithin := storeStep_within (c := c) hp hx hy (by omega) (by omega) fun _ => by omega
    obtain ⟨-, hcol, hrow⟩ := storeStep_cursor c d
    refine h.within hwithin ?_
    simp only [Reached, OnScreen, hcol, hrow]
    exact ⟨⟨hx, hx'⟩, hy, hy'⟩
  | stored c =>
    cases hs
    obtain ⟨⟨hx, hx'⟩, hy, hy'⟩ := hc
    have hmoved := handleChar_cursor c hx (by omega)
    have hrow : 0 ≤ (handleChar c d.screen).csrY ∧ (handleChar c d.screen).csrY ≤ 25 := by omega
    exact h.within (cursorStep_within c d) ⟨⟨hmoved.1, hmoved.2.2.1 hx'⟩, hrow⟩
  | moved =>
    cases hs
    obtain ⟨⟨hx, hx'⟩, hy, hy'⟩ := hc
    have hwrap := wrapLine_cursor hx
    have hrow : 0 ≤ (wrapLine d.screen).csrY ∧ (wrapLine d.screen).csrY ≤ 26 := by omega
    exact h.within (wrapStep_within d) ⟨hwrap.1, hrow⟩
  | wrapped =>
    obtain ⟨hcol, hy, hy'⟩ := hc
    by_cases hrow : 25 ≤ d.screen.csrY
    · have htemp := temp_eq hrow (by omega)
      have h1 : 1 ≤ temp d.screen := by omega
      have h4 : temp d.screen ≤ 4 := by omega
      rw [next] at hs
      simp only [if_pos hrow] at hs
      cases hs
      exact h.within (copyStep_within h.ptr h1 h4) ⟨⟨h1, h4⟩, hcol, hy, hy'⟩
    · rw [next] at hs
      simp only [if_neg hrow] at hs
      cases hs
      exact h.within (.still rfl rfl rfl) ⟨hcol, hy, Int.not_le.mp hrow⟩
  | copied k =>
    obtain ⟨⟨h1, h4⟩, hcol, hrow⟩ := hc
    obtain ⟨d', hd, hw, hx, hy⟩ := blankStep_within h.ptr h1 h4
    rw [next] at hs
    simp only [hd, Option.map_some] at hs
    cases hs
    refine h.within hw ?_
    simp only [Reached, hx, hy]
    exact ⟨hcol, hrow⟩
  | blanked =>
    cases hs
    have hlast : 0 ≤ (25 - 1 : ℤ) ∧ (25 - 1 : ℤ) < 25 := by decide
    exact h.within (resetStep_within d) ⟨hc.1, hlast⟩
  | scrolled =>
    cases hs
    exact h.within (moveStep_within d) hc

theorem sound_next (h : Sound m u) (hf : EchoFits u l) (hn : next u l = some v) : Sound m v := by
  cases l with
  | call c =>
    obtain ⟨d, phase, k⟩ := u
    have hc := h.cursor
    cases phase with
    | idle =>
      cases hn
      exact h.within (.still rfl rfl rfl) hc
    | _ => cases hn
  | step => exact sound_step h hn
  | interrupt scancode =>
    obtain ⟨d', hd, rfl⟩ := Option.map_eq_some_iff.mp hn
    cases he : echo scancode u.keys with
    | nil =>
      rw [he] at hd
      cases hd
      exact h.within (.still rfl rfl rfl) h.cursor
    | cons c cs =>
      rw [he] at hd
      have hin := hf c (by rw [he]; rfl)
      obtain ⟨e, hecho, hw, hon⟩ := echo_returns c cs h.near
      obtain rfl := Option.some.inj (hecho.symm.trans hd)
      have hchar := charStep_within h.ptr h.near.left h.near.top h.near.right h.near.bottom hin
      exact h.within (hchar.trans hw) (h.cursor.of_onScreen hon)

theorem leaves_bounds (h : Sound m u) (hf : ¬EchoFits u l) :
    ∃ v, next u l = some v ∧ ¬InBounds m v := by
  cases l with
  | call c => exact absurd trivial hf
  | step => exact absurd trivial hf
  | interrupt scancode =>
    simp only [EchoFits, not_forall] at hf
    obtain ⟨c, hhead, hc, hout⟩ := hf
    obtain ⟨cs, hcs⟩ := List.head?_eq_some_iff.mp hhead
    obtain ⟨e, hecho, hw, -⟩ := echo_returns c cs h.near
    refine ⟨⟨e, u.phase, keyboardInterrupt scancode u.keys⟩, ?_, fun hin => ?_⟩
    · rw [next, hcs, hecho]
      rfl
    · obtain ⟨ws, hws, -⟩ := hw.writes
      have hmem : (cell u.display.screen, 2) ∈ e.writes := by
        rw [hws, charStep, cursorStep, storeStep, if_pos hc]
        simp
      have hcell := cell_inBuffer h.ptr h.near.left h.near.top h.near.right h.near.bottom
      exact hout (hcell.mp (hin.writes _ hmem))

theorem stays_iff (h : Sound m u) (ls : List Label) :
    StaysInBounds m u ls ↔ Along next EchoFits u ls := by
  have hiff : ∀ s l, Sound m s → ((∀ t, next s l = some t → InBounds m t) ↔ EchoFits s l) := by
    intro s l hs
    constructor
    · intro hin
      by_contra hf
      obtain ⟨t, ht, hout⟩ := leaves_bounds hs hf
      exact hout (hin t ht)
    · intro hf t ht
      exact (sound_next hs hf ht).inBounds
  have hrun := Along.iff_of_kept hiff (fun s l t hs hf ht => sound_next hs hf ht) h ls
  exact ⟨fun hb => hrun.mp hb.2, fun hf => ⟨h.inBounds, hrun.mpr hf⟩⟩

theorem start_sound (m : Mem) (k : Keys) :
    ∃ s, vgaInit (boot m) = some s ∧ s.csrX = 0 ∧ s.csrY = 0 ∧ Sound m ⟨⟨s, []⟩, .idle, k⟩ := by
  obtain ⟨s, hs, hshows, -⟩ := session_shows m []
  obtain ⟨s', hinit, hs'⟩ := Option.bind_eq_some_iff.mp hs
  obtain rfl := Option.some.inj hs'
  have hx : s'.csrX = 0 := hshows.x
  have hy : s'.csrY = 0 := hshows.y
  refine ⟨s', hinit, hx, hy, hshows.ptr, by simp, hshows.frame, ?_⟩
  simp only [Reached, OnScreen, hx, hy]
  decide

/-- Keyboard echo keeps the screen in bounds exactly in the runs in which nothing printable is
echoed past the last cell. -/
theorem echo_in_bounds_iff (m : Mem) (k : Keys) (ls : List Label) :
    ∃ s, vgaInit (boot m) = some s ∧
      (StaysInBounds m ⟨⟨s, []⟩, .idle, k⟩ ls ↔
        Along next EchoFits ⟨⟨s, []⟩, .idle, k⟩ ls) := by
  obtain ⟨s, hs, -, -, hsound⟩ := start_sound m k
  exact ⟨s, hs, stays_iff hsound ls⟩

theorem echo_key {scancode : UInt8} (hrel : scancode &&& 0x80 = 0)
    (hshift : ¬(scancode = 42 ∨ scancode = 54)) (hcaps : scancode ≠ 58) (hback : scancode ≠ 14)
    (k : Keys) : echo scancode k = [keyChar scancode k] := by
  have hshown : (keyboardInterrupt scancode k).shown = k.shown ++ [keyChar scancode k] := by
    simp only [keyboardInterrupt, if_neg (not_not.mpr hrel), if_neg hshift, if_neg hcaps,
      if_neg hback]
    split_ifs
    · rw [Keyboard.keyboardFlush]
      split_ifs <;> rfl
    · rfl
  rw [echo, hshown, List.drop_left]

theorem putchar_newline (hy : d.screen.csrY < 24) :
    ∃ d', putchar 10 d = some d' ∧ d'.screen.csrX = 0 ∧ d'.screen.csrY = d.screen.csrY + 1 := by
  have hchar : handleChar 10 d.screen =
      { d.screen with csrX := 0, csrY := d.screen.csrY + 1 } := rfl
  have hwrap : (wrapStep (charStep 10 d)).screen =
      { d.screen with csrX := 0, csrY := d.screen.csrY + 1 } := by
    have hstay : ¬(80 : ℤ) ≤ 0 := by decide
    simp only [wrapStep, charStep_screen, hchar]
    exact if_neg hstay
  have hrow : ¬25 ≤ (wrapStep (charStep 10 d)).screen.csrY := by
    rw [hwrap]
    simp only
    omega
  refine ⟨moveStep (wrapStep (charStep 10 d)), if_neg hrow, ?_, ?_⟩
  · exact congrArg Screen.csrX hwrap
  · exact congrArg Screen.csrY hwrap

theorem echo_newline (k : Keys) : echo 28 k = [10] := by
  have hkey : keyChar 28 k = 10 := by
    rw [keyChar]
    split_ifs <;> rfl
  rw [echo_key (by decide) (by decide) (by decide) (by decide), hkey]

theorem echo_letter (k : Keys) : ∃ c, echo 30 k = [c] ∧ 0x20 ≤ schar c := by
  refine ⟨keyChar 30 k, echo_key (by decide) (by decide) (by decide) (by decide) k, ?_⟩
  rw [keyChar]
  split_ifs <;> decide

theorem newlines (n : ℕ) {rest : List Label} (hs : Sound m u) (hp : u.phase = .idle)
    (hx : u.display.screen.csrX = 0) (hy : u.display.screen.csrY + n ≤ 24)
    (hf : Along next EchoFits u (List.replicate n (.interrupt 28) ++ rest)) :
    ∃ v, Sound m v ∧ v.phase = .idle ∧ v.display.screen.csrX = 0 ∧
      v.display.screen.csrY = u.display.screen.csrY + n ∧ Along next EchoFits v rest := by
  induction n generalizing u with
  | zero => exact ⟨u, hs, hp, hx, by omega, hf⟩
  | succ n ih =>
    rw [List.replicate_succ, List.cons_append] at hf
    obtain ⟨hfits, hrest⟩ := hf
    obtain ⟨d', hd, hx', hy'⟩ := putchar_newline (d := u.display) (by omega)
    have hnext : next u (.interrupt 28) =
        some ⟨d', u.phase, keyboardInterrupt 28 u.keys⟩ := by
      rw [next, echo_newline, List.foldlM_cons, hd]
      rfl
    obtain ⟨v, hv, hphase, hcol, hrow, hlast⟩ :=
      ih (sound_next hs hfits hnext) hp hx' (by simp only; omega) (hrest _ hnext)
    refine ⟨v, hv, hphase, hcol, ?_, hlast⟩
    simp only at hrow
    omega

/-- A key that comes between the line feed in the last row and the scrolling is written
behind the buffer. -/
theorem echo_out_of_bounds : ∃ s, vgaInit (boot fun _ => 0) = some s ∧
    ¬StaysInBounds (fun _ => 0) ⟨⟨s, []⟩, .idle, Keyboard.boot false⟩
      (List.replicate 24 (.interrupt 28) ++ [.call 10, .step, .step, .interrupt 30]) := by
  obtain ⟨s, hs, hx, hy, hsound⟩ := start_sound (fun _ => 0) (Keyboard.boot false)
  refine ⟨s, hs, fun hb => ?_⟩
  have hf := (stays_iff hsound _).mp hb
  have hrows : s.csrY + (24 : ℕ) ≤ 24 := by
    rw [hy]
    decide
  obtain ⟨⟨d, phase, k⟩, -, hp, hcol, hrow, hlast⟩ := newlines 24 hsound rfl hx hrows hf
  obtain rfl : phase = .idle := hp
  obtain ⟨-, hcalled⟩ := hlast
  obtain ⟨-, hstored⟩ := hcalled _ rfl
  obtain ⟨-, hmoved⟩ := hstored _ rfl
  obtain ⟨hfits, -⟩ := hmoved _ rfl
  obtain ⟨c, hc, hprint⟩ := echo_letter k
  have hlt : (d.screen.csrY + 1) * 80 + 0 < 80 * 25 := hfits c (by rw [hc]; rfl) hprint
  have hrow' : d.screen.csrY = s.csrY + (24 : ℕ) := hrow
  omega

end Jiauliyan.ScreenEcho
