import Mathlib.Data.Fintype.Fin
import Jiauliyan.Execution
import Jiauliyan.Keyboard

namespace Jiauliyan.ShiftKeys

open Jiauliyan.Execution
open Jiauliyan.Keyboard (Keys boot keyboardFlush keyboardInterrupt)

inductive Event
  | make (key : Fin 128)
  | release (key : Fin 128)

def Event.scancode : Event → UInt8
  | .make key => UInt8.ofNat key
  | .release key => UInt8.ofNat (key + 128)

def IsShift (key : Fin 128) : Prop := key = 42 ∨ key = 54

instance (key : Fin 128) : Decidable (IsShift key) := inferInstanceAs (Decidable (_ ∨ _))

/-- The keys that are down and the state of caps lock, with the number of make codes of a shift key
that was down already and of all make codes of caps lock. -/
structure Board where
  down : Fin 128 → Bool
  caps : Bool
  shiftRepeats : ℕ
  capsMakes : ℕ

def start : Board := ⟨fun _ => false, false, 0, 0⟩

def Board.next (b : Board) : Event → Board
  | .make key => {
      down := Function.update b.down key true
      caps := if key = 58 ∧ b.down key = false then !b.caps else b.caps
      shiftRepeats := if IsShift key ∧ b.down key = true then b.shiftRepeats + 1
        else b.shiftRepeats
      capsMakes := if key = 58 then b.capsMakes + 1 else b.capsMakes }
  | .release key => { b with down := Function.update b.down key false }

/-- A key sends its break code only while it is down. -/
def Possible (b : Board) : Event → Prop
  | .make _ => True
  | .release key => b.down key = true

def after (s : Board × Keys) (e : Event) : Board × Keys :=
  (s.1.next e, keyboardInterrupt e.scancode s.2)

/-- One scancode of the keyboard, and its interrupt. -/
def Step (s : Board × Keys) (e : Event) (t : Board × Keys) : Prop := Possible s.1 e ∧ t = after s e

/-- A shift key or caps lock is held long enough to send its make code again. -/
def Repeats (b : Board) : Event → Prop
  | .make key => (IsShift key ∨ key = 58) ∧ b.down key = true
  | .release _ => False

def Board.ShiftDown (b : Board) : Prop := b.down 42 = true ∨ b.down 54 = true

instance (b : Board) : Decidable b.ShiftDown := inferInstanceAs (Decidable (_ ∨ _))

/-- The state of shift is that of the keys. -/
def Tracks (b : Board) (k : Keys) : Prop :=
  (0 < k.shiftPressed ↔ b.ShiftDown ∨ b.caps = true) ∧
    (¬b.ShiftDown → b.caps = false → k.shiftPressed = 0)

section Interrupt

variable (k : Keys)

theorem make_bits : ∀ key : Fin 128, (Event.make key).scancode &&& 0x80 = 0 ∧
    ((Event.make key).scancode = 42 ∨ (Event.make key).scancode = 54 ↔ IsShift key) ∧
    ((Event.make key).scancode = 58 ↔ key = 58) := by
  decide

theorem release_bits : ∀ key : Fin 128, (Event.release key).scancode &&& 0x80 ≠ 0 ∧
    ((Event.release key).scancode &&& 0x7F = 42 ∨ (Event.release key).scancode &&& 0x7F = 54 ↔
      IsShift key) := by
  decide

theorem flush_shift : (keyboardFlush k).capslock = k.capslock ∧
    (keyboardFlush k).shiftPressed = k.shiftPressed := by
  by_cases hlen : 0 < k.keyboardBufLen
  · rw [keyboardFlush, if_pos hlen]
    exact ⟨rfl, rfl⟩
  · rw [keyboardFlush, if_neg hlen]
    exact ⟨rfl, rfl⟩

theorem release_shift (key : Fin 128) :
    (keyboardInterrupt (Event.release key).scancode k).capslock = k.capslock ∧
      (keyboardInterrupt (Event.release key).scancode k).shiftPressed =
        if IsShift key then k.shiftPressed - 1 else k.shiftPressed := by
  obtain ⟨htop, hshift⟩ := release_bits key
  rw [keyboardInterrupt, if_pos htop]
  by_cases hs : IsShift key
  · rw [if_pos (hshift.mpr hs), if_pos hs]
    exact ⟨rfl, rfl⟩
  · rw [if_neg (hshift.not.mpr hs), if_neg hs]
    exact ⟨rfl, rfl⟩

theorem make_shift {key : Fin 128} (hs : IsShift key) :
    (keyboardInterrupt (Event.make key).scancode k).capslock = k.capslock ∧
      (keyboardInterrupt (Event.make key).scancode k).shiftPressed = k.shiftPressed + 1 := by
  obtain ⟨htop, hshift, -⟩ := make_bits key
  rw [keyboardInterrupt, if_neg (not_not.mpr htop), if_pos (hshift.mpr hs)]
  exact ⟨rfl, rfl⟩

theorem make_caps :
    (keyboardInterrupt (Event.make 58).scancode k).capslock = (if k.capslock = 0 then 1 else 0) ∧
      (keyboardInterrupt (Event.make 58).scancode k).shiftPressed =
        k.shiftPressed + (-1 + 2 * if k.capslock = 0 then 1 else 0) :=
  ⟨rfl, rfl⟩

theorem make_other {key : Fin 128} (hs : ¬IsShift key) (hc : key ≠ 58) :
    (keyboardInterrupt (Event.make key).scancode k).capslock = k.capslock ∧
      (keyboardInterrupt (Event.make key).scancode k).shiftPressed = k.shiftPressed := by
  obtain ⟨htop, hshift, hcaps⟩ := make_bits key
  rw [keyboardInterrupt, if_neg (not_not.mpr htop), if_neg (hshift.not.mpr hs),
    if_neg (hcaps.not.mpr hc)]
  by_cases hback : (Event.make key).scancode = 14
  · rw [if_pos hback]
    exact ⟨rfl, rfl⟩
  · rw [if_neg hback]
    dsimp only
    split
    · exact flush_shift _
    · exact ⟨rfl, rfl⟩

end Interrupt

def Board.shifts (b : Board) : ℤ :=
  b.shiftRepeats + (if b.down 42 then 1 else 0) + if b.down 54 then 1 else 0

section Shifts

variable (b : Board) {key : Fin 128}

theorem release_shifts (hdown : b.down key = true) :
    (b.next (.release key)).shifts = if IsShift key then b.shifts - 1 else b.shifts := by
  simp only [Board.shifts, Board.next, IsShift]
  by_cases h42 : key = 42
  · subst h42
    simp [hdown]
    omega
  · by_cases h54 : key = 54
    · subst h54
      simp [hdown]
    · simp [h42, h54, Ne.symm h42, Ne.symm h54]

theorem make_shifts :
    (b.next (.make key)).shifts = if IsShift key then b.shifts + 1 else b.shifts := by
  simp only [Board.shifts, Board.next, IsShift]
  by_cases h42 : key = 42
  · subst h42
    cases b.down 42 with
    | false =>
      simp
      omega
    | true =>
      simp
      omega
  · by_cases h54 : key = 54
    · subst h54
      cases b.down 54 with
      | false => simp
      | true =>
        simp
        omega
    · simp [h42, h54, Ne.symm h42, Ne.symm h54]

end Shifts

/-- Caps lock follows every make code of its key, and shift counts one for it. -/
structure Counts (s : Board × Keys) : Prop where
  capslock : s.2.capslock = (s.1.capsMakes % 2 : ℕ)
  shift : s.2.shiftPressed = s.1.shifts + s.2.capslock

theorem start_counts (handler : Bool) : Counts (start, boot handler) := ⟨rfl, rfl⟩

theorem step_counts {s t : Board × Keys} {e : Event} (hs : Counts s) (h : Step s e t) :
    Counts t := by
  obtain ⟨b, k⟩ := s
  obtain ⟨hposs, rfl⟩ := h
  obtain ⟨hcaps, hshift⟩ := hs
  simp only at hcaps hshift hposs
  cases e with
  | release key =>
    obtain ⟨hc, hp⟩ := release_shift k key
    refine ⟨hc.trans hcaps, ?_⟩
    simp only [after, hc, hp, release_shifts b hposs, hshift]
    split_ifs <;> omega
  | make key =>
    by_cases hs : IsShift key
    · have hc58 : key ≠ 58 := by
        rintro rfl
        exact absurd hs (by decide)
      obtain ⟨hc, hp⟩ := make_shift k hs
      constructor
      · simp only [after, hc, hcaps, Board.next, if_neg hc58]
      · simp only [after, hc, hp, make_shifts b, if_pos hs, hshift]
        omega
    · by_cases hc58 : key = 58
      · subst hc58
        obtain ⟨hc, hp⟩ := make_caps k
        constructor
        · simp only [after, hc, hcaps, Board.next, if_true]
          split_ifs <;> omega
        · simp only [after, hc, hp, make_shifts b, if_neg hs, hshift]
          split_ifs <;> omega
      · obtain ⟨hc, hp⟩ := make_other k hs hc58
        constructor
        · simp only [after, hc, hcaps, Board.next, if_neg hc58]
        · simp only [after, hc, hp, make_shifts b, if_neg hs, hshift]

theorem run_counts {handler : Bool} {es : List Event} {s : Board × Keys}
    (h : Run Step (start, boot handler) es s) : Counts s :=
  h.invariant (fun _ _ _ => step_counts) (start_counts handler)

/-- Where no key repeats, caps lock is on after every other make code of its key. -/
structure Once (s : Board × Keys) : Prop where
  shift : s.1.shiftRepeats = 0
  caps : s.1.capsMakes % 2 = 1 ↔ s.1.caps = true

theorem start_once (handler : Bool) : Once (start, boot handler) :=
  ⟨rfl, iff_of_false Nat.zero_ne_one Bool.false_ne_true⟩

theorem step_once {s t : Board × Keys} {e : Event} (hs : Once s)
    (h : Step s e t ∧ ¬Repeats s.1 e) : Once t := by
  obtain ⟨b, k⟩ := s
  obtain ⟨⟨-, rfl⟩, hnot⟩ := h
  obtain ⟨hshift, hcaps⟩ := hs
  simp only at hshift hcaps hnot
  cases e with
  | release key => exact ⟨hshift, hcaps⟩
  | make key =>
    have hrepeat : ¬(IsShift key ∧ b.down key = true) := fun h => hnot ⟨.inl h.1, h.2⟩
    refine ⟨(if_neg hrepeat).trans hshift, ?_⟩
    by_cases h58 : key = 58
    · have hup : b.down key = false := Bool.eq_false_iff.mpr fun h => hnot ⟨.inr h58, h⟩
      simp only [after, Board.next, if_pos h58, if_pos (And.intro h58 hup), Bool.not_eq_true']
      rw [← Bool.not_eq_true, ← hcaps]
      omega
    · simp only [after, Board.next, if_neg h58, if_neg fun h : _ ∧ _ => h58 h.1]
      exact hcaps

theorem tracks_iff {b : Board} {k : Keys} (h : Counts (b, k)) : Tracks b k ↔
    b.ShiftDown ∨ ((0 < b.shiftRepeats ∨ b.capsMakes % 2 = 1) ↔ b.caps = true) := by
  have hcaps : k.capslock = (b.capsMakes % 2 : ℕ) := h.capslock
  have hshift : k.shiftPressed = b.shifts + k.capslock := h.shift
  rw [hcaps, Board.shifts] at hshift
  by_cases hdown : b.ShiftDown
  · have hpos : 0 < k.shiftPressed := by
      obtain h42 | h54 := hdown
      · rw [h42, if_pos rfl] at hshift
        split_ifs at hshift <;> omega
      · rw [h54, if_pos rfl] at hshift
        split_ifs at hshift <;> omega
    exact iff_of_true ⟨iff_of_true hpos (.inl hdown), fun h => absurd hdown h⟩ (.inl hdown)
  · obtain ⟨h42, h54⟩ := not_or.mp hdown
    rw [if_neg h42, if_neg h54] at hshift
    have hpos : 0 < k.shiftPressed ↔ 0 < b.shiftRepeats ∨ b.capsMakes % 2 = 1 := by omega
    rw [Tracks, hpos, or_iff_right hdown, or_iff_right hdown]
    refine and_iff_left_of_imp fun hiff _ hoff => ?_
    have hnot := hiff.not.mpr (Bool.eq_false_iff.mp hoff)
    omega

/-- The property holds after a run exactly if a shift key is down, or caps lock is on exactly where
some make code of a shift key was repeated or those of caps lock are odd in number; in particular
wherever neither has repeated. -/
theorem shift_tracks {handler : Bool} {es : List Event} {b : Board} {k : Keys}
    (h : Run Step (start, boot handler) es (b, k)) :
    (Tracks b k ↔
      b.ShiftDown ∨ ((0 < b.shiftRepeats ∨ b.capsMakes % 2 = 1) ↔ b.caps = true)) ∧
      (Run (fun s e t => Step s e t ∧ ¬Repeats s.1 e) (start, boot handler) es (b, k) →
        Tracks b k) := by
  have hiff := tracks_iff (run_counts h)
  refine ⟨hiff, fun hrun => hiff.mpr (.inr ?_)⟩
  have honce : Once (b, k) := hrun.invariant (fun _ _ _ => step_once) (start_once handler)
  have hshift : b.shiftRepeats = 0 := honce.shift
  have hcaps : b.capsMakes % 2 = 1 ↔ b.caps = true := honce.caps
  rw [← hcaps]
  omega

theorem shift_tracks_letter : ∃ b k,
    Run (fun s e t => Step s e t ∧ ¬Repeats s.1 e) (start, boot false)
      [.make 42, .make 30, .release 42] (b, k) ∧ Tracks b k := by
  let s := after (after (after (start, boot false) (.make 42)) (.make 30)) (.release 42)
  have hrun : Run (fun s e t => Step s e t ∧ ¬Repeats s.1 e) (start, boot false)
      [.make 42, .make 30, .release 42] (s.1, s.2) :=
    .cons ⟨⟨trivial, rfl⟩, fun h => absurd h.2 (by decide)⟩
      (.cons ⟨⟨trivial, rfl⟩, fun h => absurd h.2 (by decide)⟩ (.cons ⟨⟨rfl, rfl⟩, id⟩ (.nil _)))
  exact ⟨s.1, s.2, hrun, (shift_tracks (hrun.map id fun _ _ _ h => h.1)).2 hrun⟩

/-- Shift stays on after a shift key that was held long enough to repeat. -/
theorem shift_stuck : ∃ b k, Run Step (start, boot false) [.make 42, .make 42, .release 42] (b, k) ∧
    ¬Tracks b k := by
  let s := after (after (after (start, boot false) (.make 42)) (.make 42)) (.release 42)
  refine ⟨s.1, s.2, .cons ⟨trivial, rfl⟩ (.cons ⟨trivial, rfl⟩ (.cons ⟨rfl, rfl⟩ (.nil _))), ?_⟩
  intro h
  have hzero : s.2.shiftPressed = 0 := h.2 (by decide) rfl
  exact absurd hzero (by decide)

end Jiauliyan.ShiftKeys
