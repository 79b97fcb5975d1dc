import Jiauliyan.CString
import Jiauliyan.ShiftQueue

namespace Jiauliyan.Keyboard

open Jiauliyan.Execution Jiauliyan.ShiftQueue

def KEYBOARD_BUF_SIZE : ℕ := 1024 * 4

/-- US layout; the shifted characters start at 90 and the rest is zero. -/
def kbdusTable : List UInt8 :=
  [0, 27, 49, 50, 51, 52, 53, 54, 55, 56, 57, 48, 45, 61, 8,
   9, 113, 119, 101, 114, 116, 121, 117, 105, 111, 112, 91, 93, 10, 0,
   97, 115, 100, 102, 103, 104, 106, 107, 108, 59, 39, 96, 0, 92, 122,
   120, 99, 118, 98, 110, 109, 44, 46, 47, 0, 42, 0, 32, 0, 0,
   0, 0, 0, 0, 0, 0, 0, 0, 0, 0, 0, 0, 0, 0, 45,
   0, 0, 0, 43, 0, 0, 0, 0, 0, 0, 0, 0, 0, 0, 0,
   0, 27, 33, 64, 35, 36, 37, 94, 38, 42, 40, 41, 95, 43, 8,
   9, 81, 87, 69, 82, 84, 89, 85, 73, 79, 80, 123, 125, 10, 0,
   65, 83, 68, 70, 71, 72, 74, 75, 76, 58, 34, 126, 0, 124, 90,
   88, 67, 86, 66, 78, 77, 60, 62, 63, 0, 42, 0, 32, 0, 0,
   0, 0, 0, 0, 0, 0, 0, 0, 0, 0, 0, 0, 0, 0, 45,
   0, 0, 0, 43, 0, 0, 0, 0, 0, 0, 0, 0, 0, 0, 0]

def kbdus (i : ℕ) : UInt8 := kbdusTable.getD i 0

/-- `shown` are the characters put on the screen. -/
structure Keys where
  keyboardBuf : ℕ → UInt8
  keyboardBufLen : ℕ
  shiftPressed : ℤ
  capslock : ℤ
  handler : Bool
  handed : List (List UInt8)
  shown : List UInt8
  phase : Phase UInt8
  returned : List UInt8

def boot (handler : Bool) : Keys := ⟨fun _ => 0, 0, 0, 0, handler, [], [], .idle, []⟩

def buffered (s : Keys) : List UInt8 := (List.range s.keyboardBufLen).map s.keyboardBuf

def keyboardFlush (s : Keys) : Keys :=
  if 0 < s.keyboardBufLen then
    { s with
      handed := if s.handler then s.handed ++ [buffered s] else s.handed
      keyboardBufLen := 0 }
  else s

def appendChar (c : UInt8) (s : Keys) : Keys :=
  { s with
    keyboardBuf := Function.update s.keyboardBuf s.keyboardBufLen c
    keyboardBufLen := s.keyboardBufLen + 1 }

def vgaPutchar (c : UInt8) (s : Keys) : Keys := { s with shown := s.shown ++ [c] }

def keyChar (scancode : UInt8) (s : Keys) : UInt8 :=
  kbdus (scancode.toNat + if 0 < s.shiftPressed then 90 else 0)

def keyboardInterrupt (scancode : UInt8) (s : Keys) : Keys :=
  if scancode &&& 0x80 ≠ 0 then
    if scancode &&& 0x7F = 42 ∨ scancode &&& 0x7F = 54 then
      { s with shiftPressed := s.shiftPressed - 1 }
    else s
  else if scancode = 42 ∨ scancode = 54 then { s with shiftPressed := s.shiftPressed + 1 }
  else if scancode = 58 then
    let capslock := if s.capslock = 0 then 1 else 0
    { s with capslock := capslock, shiftPressed := s.shiftPressed + (-1 + 2 * capslock) }
  else if scancode = 14 then
    -- unlike the branch below, this one does not check whether the buffer is full
    vgaPutchar 8 (vgaPutchar 32 (vgaPutchar 8 (appendChar 8 s)))
  else
    let s' := vgaPutchar (keyChar scancode s) (appendChar (keyChar scancode s) s)
    if s'.keyboardBufLen = KEYBOARD_BUF_SIZE then keyboardFlush s' else s'

/-- The byte that a scancode puts into the buffer. -/
def typed (scancode : UInt8) (s : Keys) : Option UInt8 :=
  if scancode &&& 0x80 ≠ 0 ∨ scancode = 42 ∨ scancode = 54 ∨ scancode = 58 then none
  else if scancode = 14 then some 8
  else some (keyChar scancode s)

/-- One step of `keyboardin_get`, which spins on an empty buffer. -/
def keyboardinGet (s : Keys) : Keys :=
  match s.phase with
  | .idle => if s.keyboardBufLen = 0 then s else { s with phase := .tested }
  | .tested => { s with phase := .fetched (s.keyboardBuf 0) }
  | .fetched c =>
    { s with keyboardBufLen := s.keyboardBufLen - 1, phase := .moving c (s.keyboardBufLen - 1) 0 }
  | .moving c n k =>
    if k < n then
      { s with
        keyboardBuf := Function.update s.keyboardBuf k (s.keyboardBuf (k + 1))
        phase := .moving c n (k + 1) }
    else { s with phase := .idle, returned := s.returned ++ [c] }

/-- The reader and the interrupt interleaved; the label is the byte typed. -/
inductive Step : Keys → Option UInt8 → Keys → Prop
  | get (s : Keys) : Step s none (keyboardinGet s)
  | interrupt (s : Keys) (scancode : UInt8) :
      Step s (typed scancode s) (keyboardInterrupt scancode s)

def Room (s : Keys) (key : Option UInt8) : Prop :=
  ∀ x ∈ key, s.keyboardBufLen + 1 < KEYBOARD_BUF_SIZE

def Undisturbed (s : Keys) (key : Option UInt8) : Prop :=
  ∀ x ∈ key, ∀ c n k, s.phase = .moving c n k → k < n → s.keyboardBufLen = n → x = s.keyboardBuf n

instance (s : Keys) : (key : Option UInt8) → Decidable (Room s key)
  | none => isTrue fun _ hx => nomatch hx
  | some x => decidable_of_iff (s.keyboardBufLen + 1 < KEYBOARD_BUF_SIZE)
      ⟨fun h _ _ => h, fun h => h x rfl⟩

def queue (s : Keys) : Queue UInt8 := ⟨s.keyboardBuf, s.keyboardBufLen, s.phase, s.returned⟩

theorem undisturbed_none (s : Keys) : Undisturbed s none := fun _ hx => nomatch hx

theorem undisturbed_idle {s : Keys} (h : s.phase = .idle) (key : Option UInt8) :
    Undisturbed s key := by
  intro _ _ c n k hp
  rw [h] at hp
  cases hp

theorem queue_keyboardinGet (s : Keys) : queue (keyboardinGet s) = (queue s).advance := by
  unfold keyboardinGet Queue.advance
  cases hp : s.phase with
  | idle => by_cases h0 : s.keyboardBufLen = 0 <;> simp [queue, hp, h0]
  | tested => simp [queue, hp]
  | fetched c => simp [queue, hp]
  | moving c n k => by_cases hk : k < n <;> simp [queue, hp, hk]

/-- A scancode appends the byte it types, and leaves the queue alone if it
types none. -/
theorem queue_keyboardInterrupt {s : Keys} {scancode : UInt8} (h : Room s (typed scancode s)) :
    queue (keyboardInterrupt scancode s) =
      match typed scancode s with
      | none => queue s
      | some x => (queue s).append x := by
  unfold typed at h ⊢
  unfold keyboardInterrupt
  by_cases hrel : scancode &&& 0x80 ≠ 0
  · rw [if_pos hrel, if_pos (Or.inl hrel)]
    split_ifs <;> rfl
  rw [if_neg hrel]
  by_cases hshift : scancode = 42 ∨ scancode = 54
  · rw [if_pos hshift, if_pos (by tauto)]
    rfl
  rw [if_neg hshift]
  by_cases hcaps : scancode = 58
  · rw [if_pos hcaps, if_pos (Or.inr (by tauto))]
    rfl
  have htypes : ¬(scancode &&& 0x80 ≠ 0 ∨ scancode = 42 ∨ scancode = 54 ∨ scancode = 58) := by
    tauto
  rw [if_neg hcaps, if_neg htypes]
  rw [if_neg htypes] at h
  by_cases hback : scancode = 14
  · rw [if_pos hback, if_pos hback]
    rfl
  · rw [if_neg hback] at h
    have hne : s.keyboardBufLen + 1 ≠ KEYBOARD_BUF_SIZE := (h _ rfl).ne
    rw [if_neg hback, if_neg hback]
    simp only [vgaPutchar, appendChar, hne, if_false]
    rfl

theorem queue_step (s : Keys) (key : Option UInt8) (t : Keys)
    (h : Step s key t ∧ Room s key ∧ Undisturbed s key) :
    Queue.Step (queue s) key (queue t) := by
  obtain ⟨hst, hroom, hcalm⟩ := h
  cases hst with
  | get =>
    rw [queue_keyboardinGet]
    exact Queue.Step.advance (queue s)
  | interrupt scancode =>
    rw [queue_keyboardInterrupt hroom]
    cases hk : typed scancode s with
    | none => exact Queue.Step.stay (queue s)
    | some x => exact Queue.Step.append (queue s) x (hcalm x hk)

theorem boot_tracks (handler : Bool) : Tracks (queue (boot handler)) [] := rfl

theorem typed_exact {handler : Bool} {keys : List (Option UInt8)} {s : Keys}
    (h : Run (fun s k t => Step s k t ∧ Room s k ∧ Undisturbed s k) (boot handler) keys s)
    (hp : s.phase = .idle) : s.returned ++ buffered s = keys.reduceOption :=
  (run_tracks (h.map queue queue_step) (boot_tracks handler)).exact hp

end Jiauliyan.Keyboard
