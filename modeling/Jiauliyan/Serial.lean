import Jiauliyan.Execution
import Jiauliyan.ShiftQueue

namespace Jiauliyan.Serial

open Jiauliyan.Execution Jiauliyan.ShiftQueue

def SERIAL_BUF_SIZE : ℕ := 1024 * 128

def EOF : ℤ := -1

/-- `handed` are the blocks given to `serial_handler`, `returned` the results
of the completed calls of `serialin_get`. -/
structure Port where
  serialBuf : ℕ → UInt8
  serialBufLen : ℕ
  handler : Bool
  handed : List (List UInt8)
  phase : Phase UInt8
  returned : List ℤ

def boot (handler : Bool) : Port := ⟨fun _ => 0, 0, handler, [], .idle, []⟩

def buffered (s : Port) : List UInt8 := (List.range s.serialBufLen).map s.serialBuf

def serialFlush (s : Port) : Port :=
  if 0 < s.serialBufLen then
    { s with
      handed := if s.handler then s.handed ++ [buffered s] else s.handed
      serialBufLen := 0 }
  else s

/-- `port` is the byte received, if there is one. -/
def serialInterrupt (port : Option UInt8) (s : Port) : Port :=
  match port with
  | none => s
  | some x =>
    let s' := { s with
      serialBuf := Function.update s.serialBuf s.serialBufLen x
      serialBufLen := s.serialBufLen + 1 }
    if s'.serialBufLen = SERIAL_BUF_SIZE then serialFlush s' else s'

/-- One step of `serialin_get`: the test, the read of the first byte, the
decrement, each byte moved by `memcpy`, the return. -/
def serialinGet (s : Port) : Port :=
  match s.phase with
  | .idle =>
    if s.serialBufLen = 0 then { s with returned := s.returned ++ [EOF] }
    else { s with phase := .tested }
  | .tested => { s with phase := .fetched (s.serialBuf 0) }
  | .fetched c =>
    { s with serialBufLen := s.serialBufLen - 1, phase := .moving c (s.serialBufLen - 1) 0 }
  | .moving c n k =>
    if k < n then
      { s with
        serialBuf := Function.update s.serialBuf k (s.serialBuf (k + 1))
        phase := .moving c n (k + 1) }
    else { s with phase := .idle, returned := s.returned ++ [(c.toNat : ℤ)] }

/-- The reader and the interrupt interleaved; the label is the byte received. -/
inductive Step : Port → Option UInt8 → Port → Prop
  | get (s : Port) : Step s none (serialinGet s)
  | interrupt (s : Port) (port : Option UInt8) : Step s port (serialInterrupt port s)

/-- The byte received does not fill the buffer. -/
def Room (s : Port) (port : Option UInt8) : Prop :=
  ∀ x ∈ port, s.serialBufLen + 1 < SERIAL_BUF_SIZE

/-- No byte arrives between the decrement of the length and the last move of
`memcpy`, unless an earlier one has moved the end of the buffer away or it
equals the byte it overwrites. -/
def Undisturbed (s : Port) (port : Option UInt8) : Prop :=
  ∀ x ∈ port, ∀ c n k, s.phase = .moving c n k → k < n → s.serialBufLen = n → x = s.serialBuf n

/-- The bytes among the results, which are bytes or `EOF`. -/
def bytesOf (results : List ℤ) : List UInt8 :=
  results.filterMap fun r => if r = EOF then none else some (UInt8.ofNat r.toNat)

instance (s : Port) : (port : Option UInt8) → Decidable (Room s port)
  | none => isTrue fun _ hx => nomatch hx
  | some x => decidable_of_iff (s.serialBufLen + 1 < SERIAL_BUF_SIZE)
      ⟨fun h _ _ => h, fun h => h x rfl⟩

def queue (s : Port) : Queue UInt8 := ⟨s.serialBuf, s.serialBufLen, s.phase, bytesOf s.returned⟩

theorem bytesOf_append (rs rs' : List ℤ) : bytesOf (rs ++ rs') = bytesOf rs ++ bytesOf rs' :=
  List.filterMap_append

theorem bytesOf_eof : bytesOf [EOF] = [] := rfl

theorem bytesOf_char (c : UInt8) : bytesOf [(c.toNat : ℤ)] = [c] := by
  have hne : (c.toNat : ℤ) ≠ EOF := by
    unfold EOF
    omega
  simp [bytesOf, hne]

theorem undisturbed_none (s : Port) : Undisturbed s none := fun _ hx => nomatch hx

theorem undisturbed_idle {s : Port} (h : s.phase = .idle) (port : Option UInt8) :
    Undisturbed s port := by
  intro _ _ c n k hp
  rw [h] at hp
  cases hp

theorem queue_serialinGet (s : Port) : queue (serialinGet s) = (queue s).advance := by
  unfold serialinGet Queue.advance
  cases hp : s.phase with
  | idle =>
    by_cases h0 : s.serialBufLen = 0
    · simp [queue, hp, h0, bytesOf_append, bytesOf_eof]
    · simp [queue, hp, h0]
  | tested => simp [queue, hp]
  | fetched c => simp [queue, hp]
  | moving c n k =>
    by_cases hk : k < n
    · simp [queue, hp, hk]
    · simp [queue, hp, hk, bytesOf_append, bytesOf_char]

theorem queue_serialInterrupt {s : Port} {x : UInt8} (h : Room s (some x)) :
    queue (serialInterrupt (some x) s) = (queue s).append x := by
  have hne : s.serialBufLen + 1 ≠ SERIAL_BUF_SIZE := (h x rfl).ne
  simp [serialInterrupt, hne, queue, Queue.append]

theorem queue_step (s : Port) (port : Option UInt8) (t : Port)
    (h : Step s port t ∧ Room s port ∧ Undisturbed s port) :
    Queue.Step (queue s) port (queue t) := by
  obtain ⟨hst, hroom, hcalm⟩ := h
  cases hst with
  | get =>
    rw [queue_serialinGet]
    exact Queue.Step.advance (queue s)
  | interrupt =>
    cases port with
    | none => exact Queue.Step.stay (queue s)
    | some x =>
      rw [queue_serialInterrupt hroom]
      exact Queue.Step.append (queue s) x (hcalm x rfl)

theorem boot_tracks (handler : Bool) : Tracks (queue (boot handler)) [] := rfl

/-- In runs whose interrupts all leave the moves undisturbed, the bytes
returned and the bytes buffered are the bytes received. -/
theorem received_exact {handler : Bool} {ports : List (Option UInt8)} {s : Port}
    (h : Run (fun s p t => Step s p t ∧ Room s p ∧ Undisturbed s p) (boot handler) ports s)
    (hp : s.phase = .idle) : bytesOf s.returned ++ buffered s = ports.reduceOption :=
  (run_tracks (h.map queue queue_step) (boot_tracks handler)).exact hp

end Jiauliyan.Serial
