import Jiauliyan.Execution
import Jiauliyan.Keyboard

namespace Jiauliyan.KeyboardBound

open Jiauliyan.Execution Jiauliyan.ShiftQueue Jiauliyan.Keyboard

inductive Event
  | interrupt (scancode : UInt8)
  | get
  | flush

def keyboardinGetWhole (s : Keys) : Keys :=
  { s with
    keyboardBuf := fun i =>
      if i < s.keyboardBufLen - 1 then s.keyboardBuf (i + 1) else s.keyboardBuf i
    keyboardBufLen := s.keyboardBufLen - 1
    returned := s.returned ++ [s.keyboardBuf 0] }

def after (s : Keys) : Event → Keys
  | .interrupt scancode => keyboardInterrupt scancode s
  | .get => keyboardinGetWhole s
  | .flush => keyboardFlush s

/-- One whole call; a read of an empty buffer does not return. -/
inductive Call : Keys → Event → Keys → Prop
  | interrupt (s : Keys) (scancode : UInt8) :
      Call s (.interrupt scancode) (after s (.interrupt scancode))
  | get (s : Keys) (h : 0 < s.keyboardBufLen) : Call s .get (after s .get)
  | flush (s : Keys) : Call s .flush (after s .flush)

def stores (s : Keys) : Event → List ℕ
  | .interrupt scancode => if (typed scancode s).isSome then [s.keyboardBufLen] else []
  | .get => List.range (s.keyboardBufLen - 1)
  | .flush => []

def InBounds (s : Keys) (e : Event) (t : Keys) : Prop :=
  t.keyboardBufLen ≤ KEYBOARD_BUF_SIZE ∧ ∀ i ∈ stores s e, i < KEYBOARD_BUF_SIZE

/-- No key that leaves a byte is pressed while the buffer is full. -/
def SparesFull (s : Keys) : Event → Prop
  | .interrupt scancode => s.keyboardBufLen = KEYBOARD_BUF_SIZE → typed scancode s = none
  | .get => True
  | .flush => True

def Fits (s : Keys) : Prop := s.keyboardBufLen ≤ KEYBOARD_BUF_SIZE

def moved (s : Keys) (k : ℕ) : Keys :=
  { s with
    keyboardBuf := fun i => if i < k then s.keyboardBuf (i + 1) else s.keyboardBuf i
    keyboardBufLen := s.keyboardBufLen - 1
    phase := .moving (s.keyboardBuf 0) (s.keyboardBufLen - 1) k }

theorem keyboardinGet_moved {s : Keys} {k : ℕ} (hk : k < s.keyboardBufLen - 1) :
    keyboardinGet (moved s k) = moved s (k + 1) := by
  have hm : Function.update (moved s k).keyboardBuf k ((moved s k).keyboardBuf (k + 1)) =
      (moved s (k + 1)).keyboardBuf := by
    funext i
    by_cases hi : i = k
    · subst hi
      have hge : ¬i + 1 < i := by omega
      simp [moved, hge]
    · have hlt : i < k ↔ i < k + 1 := by omega
      simp [moved, hi, hlt]
  have hp : (moved s k).phase = .moving (s.keyboardBuf 0) (s.keyboardBufLen - 1) k := rfl
  unfold keyboardinGet
  simp only [hp, if_pos hk, hm]
  rfl

theorem iterate_moved {s : Keys} {k : ℕ} (hk : k ≤ s.keyboardBufLen - 1) :
    keyboardinGet^[k] (moved s 0) = moved s k := by
  induction k with
  | zero => rfl
  | succ k ih =>
    rw [Function.iterate_succ_apply', ih (by omega)]
    exact keyboardinGet_moved (by omega)

theorem keyboardinGet_begins {s : Keys} (hp : s.phase = .idle) (hn : 0 < s.keyboardBufLen) :
    keyboardinGet^[3] s = moved s 0 := by
  have h1 : keyboardinGet s = { s with phase := .tested } := by
    simp [keyboardinGet, hp, hn.ne']
  have h2 : keyboardinGet { s with phase := .tested } =
      { s with phase := .fetched (s.keyboardBuf 0) } := rfl
  have h3 : keyboardinGet { s with phase := .fetched (s.keyboardBuf 0) } = moved s 0 := by
    simp [keyboardinGet, moved]
  calc keyboardinGet^[3] s = keyboardinGet (keyboardinGet (keyboardinGet s)) := rfl
    _ = moved s 0 := by rw [h1, h2, h3]

theorem keyboardinGet_ends {s : Keys} (hp : s.phase = .idle) :
    keyboardinGet (moved s (s.keyboardBufLen - 1)) = keyboardinGetWhole s := by
  simp [keyboardinGet, moved, keyboardinGetWhole, hp]

theorem keyboardinGetWhole_steps {s : Keys} (hp : s.phase = .idle) (hn : 0 < s.keyboardBufLen) :
    keyboardinGet^[s.keyboardBufLen + 3] s = keyboardinGetWhole s := by
  have ht : s.keyboardBufLen + 3 = 1 + (s.keyboardBufLen - 1 + 3) := by omega
  rw [ht, Function.iterate_add_apply, Function.iterate_add_apply, keyboardinGet_begins hp hn,
    iterate_moved le_rfl]
  exact keyboardinGet_ends hp

theorem untyped_keyboardInterrupt {s : Keys} {scancode : UInt8} (h : typed scancode s = none) :
    (keyboardInterrupt scancode s).keyboardBuf = s.keyboardBuf ∧
      (keyboardInterrupt scancode s).keyboardBufLen = s.keyboardBufLen := by
  unfold typed at h
  unfold keyboardInterrupt
  split_ifs at h ⊢ <;> first | exact ⟨rfl, rfl⟩ | tauto

theorem keyboardFlush_buf (s : Keys) : (keyboardFlush s).keyboardBuf = s.keyboardBuf := by
  unfold keyboardFlush
  split_ifs <;> rfl

theorem keyboardFlush_len (s : Keys) : (keyboardFlush s).keyboardBufLen = 0 := by
  unfold keyboardFlush
  by_cases h : 0 < s.keyboardBufLen
  · rw [if_pos h]
  · rw [if_neg h]
    exact Nat.eq_zero_of_not_pos h

/-- The byte goes behind the others; only a key other than backspace flushes a
buffer that it fills. -/
theorem typed_keyboardInterrupt {s : Keys} {scancode c : UInt8} (h : typed scancode s = some c) :
    (keyboardInterrupt scancode s).keyboardBuf =
        Function.update s.keyboardBuf s.keyboardBufLen c ∧
      (keyboardInterrupt scancode s).keyboardBufLen =
        if scancode ≠ 14 ∧ s.keyboardBufLen + 1 = KEYBOARD_BUF_SIZE then 0
        else s.keyboardBufLen + 1 := by
  have htypes : ¬(scancode &&& 0x80 ≠ 0 ∨ scancode = 42 ∨ scancode = 54 ∨ scancode = 58) := by
    intro hn
    rw [typed, if_pos hn] at h
    cases h
  have hrel : ¬scancode &&& 0x80 ≠ 0 := by tauto
  have hshift : ¬(scancode = 42 ∨ scancode = 54) := by tauto
  have hcaps : scancode ≠ 58 := by tauto
  rw [typed, if_neg htypes] at h
  unfold keyboardInterrupt
  rw [if_neg hrel, if_neg hshift, if_neg hcaps]
  by_cases hback : scancode = 14
  · rw [if_pos hback, Option.some.injEq] at h
    rw [if_pos hback, if_neg (fun hn => hn.1 hback), ← h]
    exact ⟨rfl, rfl⟩
  · rw [if_neg hback, Option.some.injEq] at h
    rw [if_neg hback, ← h]
    by_cases hfull : s.keyboardBufLen + 1 = KEYBOARD_BUF_SIZE
    · simp only [vgaPutchar, appendChar, hfull, hback, if_true, keyboardFlush_buf,
        keyboardFlush_len, ne_eq, not_false_eq_true, and_self]
    · simp only [vgaPutchar, appendChar, hfull, if_false, and_false, and_self]

theorem unstored (s : Keys) (e : Event) {i : ℕ} (hi : i ∉ stores s e) :
    (after s e).keyboardBuf i = s.keyboardBuf i := by
  cases e with
  | interrupt scancode =>
    cases ht : typed scancode s with
    | none => exact congrFun (untyped_keyboardInterrupt ht).1 i
    | some c =>
      have hne : i ≠ s.keyboardBufLen := by simpa [stores, ht] using hi
      exact (congrFun (typed_keyboardInterrupt ht).1 i).trans (Function.update_of_ne hne _ _)
  | get =>
    have hge : ¬i < s.keyboardBufLen - 1 := by simpa [stores] using hi
    simp [after, keyboardinGetWhole, hge]
  | flush => exact congrFun (keyboardFlush_buf s) i

/-- From a buffer that is not overfull, a call stays in bounds exactly if it
spares a full one. -/
theorem inBounds_iff {s t : Keys} {e : Event} (hs : Fits s) (h : Call s e t) :
    InBounds s e t ↔ SparesFull s e := by
  cases h with
  | interrupt scancode =>
    cases ht : typed scancode s with
    | none =>
      have hl := (untyped_keyboardInterrupt ht).2
      have hle : s.keyboardBufLen ≤ KEYBOARD_BUF_SIZE := hs
      simpa [InBounds, SparesFull, stores, after, ht, hl] using hle
    | some c =>
      have hl := (typed_keyboardInterrupt ht).2
      have hlt : s.keyboardBufLen < KEYBOARD_BUF_SIZE ↔ s.keyboardBufLen ≠ KEYBOARD_BUF_SIZE :=
        ⟨Nat.ne_of_lt, Nat.lt_of_le_of_ne hs⟩
      simp only [InBounds, SparesFull, stores, after, ht, hl, Option.isSome_some, if_true,
        List.mem_singleton, forall_eq, reduceCtorEq, imp_false, hlt]
      refine ⟨And.right, fun hne => ⟨?_, hne⟩⟩
      have hle := hlt.mpr hne
      split_ifs <;> omega
  | get hn =>
    have hle : s.keyboardBufLen ≤ KEYBOARD_BUF_SIZE := hs
    simp only [InBounds, SparesFull, stores, after, keyboardinGetWhole, List.mem_range, iff_true]
    exact ⟨by omega, fun i hi => by omega⟩
  | flush => simp [InBounds, SparesFull, stores, after, keyboardFlush_len]

theorem full_cases {s t : Keys} {e : Event} (hs : s.keyboardBufLen < KEYBOARD_BUF_SIZE)
    (h : Call s e t) (hfull : t.keyboardBufLen = KEYBOARD_BUF_SIZE) :
    e = .interrupt 14 ∧ s.keyboardBufLen + 1 = KEYBOARD_BUF_SIZE := by
  have hne : (0 : ℕ) ≠ KEYBOARD_BUF_SIZE := by decide
  cases h with
  | interrupt scancode =>
    cases ht : typed scancode s with
    | none =>
      have hl := (untyped_keyboardInterrupt ht).2
      exact absurd (hl.symm.trans hfull) hs.ne
    | some c =>
      have hl := (typed_keyboardInterrupt ht).2.symm.trans hfull
      by_cases hlast : s.keyboardBufLen + 1 = KEYBOARD_BUF_SIZE
      · by_cases hback : scancode = 14
        · exact ⟨congrArg Event.interrupt hback, hlast⟩
        · rw [if_pos ⟨hback, hlast⟩] at hl
          exact absurd hl hne
      · rw [if_neg (fun hn => hlast hn.2)] at hl
        exact absurd hl hlast
  | get hn =>
    have hl : s.keyboardBufLen - 1 = KEYBOARD_BUF_SIZE := hfull
    omega
  | flush =>
    have hl := (keyboardFlush_len s).symm.trans hfull
    exact absurd hl hne

theorem buffer_bounded_iff (handler : Bool) (events : List Event) (s : Keys) :
    Run (fun s e t => Call s e t ∧ InBounds s e t) (boot handler) events s ↔
      Run (fun s e t => Call s e t ∧ SparesFull s e) (boot handler) events s := by
  refine Run.congr (P := Fits) (fun s e t _ h => h.2.1) (fun s e t hs => ?_) (Nat.zero_le _)
  exact and_congr_right fun h => inBounds_iff hs h

theorem pressed {n : ℕ} (hn : n < KEYBOARD_BUF_SIZE) :
    ∃ s, Run Call (boot true) (List.replicate n (.interrupt 30)) s ∧ s.keyboardBufLen = n := by
  induction n with
  | zero => exact ⟨boot true, Run.nil _, rfl⟩
  | succ n ih =>
    obtain ⟨s, hr, hl⟩ := ih (by omega)
    have ht : typed 30 s = some (keyChar 30 s) := rfl
    have hnext : s.keyboardBufLen + 1 ≠ KEYBOARD_BUF_SIZE := by omega
    have hlen : (keyboardInterrupt 30 s).keyboardBufLen = s.keyboardBufLen + 1 :=
      (typed_keyboardInterrupt ht).2.trans (if_neg fun hfull => hnext hfull.2)
    rw [List.replicate_succ']
    exact ⟨_, hr.snoc (Call.interrupt s 30), hlen.trans (congrArg (· + 1) hl)⟩

/-- After 4095 letters, a second backspace is stored behind the buffer. -/
theorem buffer_overrun :
    ∃ events s e t, Run Call (boot true) events s ∧ Call s e t ∧ ¬InBounds s e t := by
  obtain ⟨s, hr, hl⟩ := pressed (n := 4095) (by decide)
  have ht (u : Keys) : typed 14 u = some 8 := rfl
  have hback (u : Keys) : (keyboardInterrupt 14 u).keyboardBufLen = u.keyboardBufLen + 1 :=
    (typed_keyboardInterrupt (ht u)).2
  refine ⟨_, _, .interrupt 14, _, hr.snoc (Call.interrupt s 14), Call.interrupt _ 14, fun hb => ?_⟩
  have hle := hb.1
  simp only [after, hback, hl, KEYBOARD_BUF_SIZE] at hle
  omega

end Jiauliyan.KeyboardBound
