import Jiauliyan.FormatArguments
import Jiauliyan.FormatDouble
import Jiauliyan.FormatReturn

namespace Jiauliyan.FormatScan

open Jiauliyan.CString Jiauliyan.Memory Jiauliyan.StringCompare Jiauliyan.Format
open Jiauliyan.FormatArguments (toChar_ne)
open Jiauliyan.FormatReturn (Overscaled field_none_iff)
open Jiauliyan.FormatDouble (Machine Exponential number world field_double streamPutdouble
  formatDouble_none_iff)

/-- A format in memory, by its bytes from its first one on. -/
structure Text where
  byte : ℕ → UInt8
  length : ℕ
  terminator : byte length = 0
  nonzero : ∀ i < length, byte i ≠ 0

-- Each of these functions yields the indices of the bytes that it reads, in order, and has fuel
-- for its loops.
section Loops

variable (f : Text) (m : Mem)

def reading {α : Type} (i : ℕ) (r : List ℕ × α) : List ℕ × α := (i :: r.1, r.2)

def flagsAt : ℕ → Flags → ℕ → Option (List ℕ × Option (Flags × ℕ))
  | 0, _, _ => none
  | fuel + 1, fl, i =>
    match toChar (f.byte (i + 1)) with
    | '+' => (flagsAt fuel { fl with sign := true } (i + 1)).map (reading (i + 1))
    | '-' => (flagsAt fuel { fl with left := true } (i + 1)).map (reading (i + 1))
    | '#' => (flagsAt fuel { fl with alt := true } (i + 1)).map (reading (i + 1))
    | '0' => (flagsAt fuel { fl with zero := true } (i + 1)).map (reading (i + 1))
    | '\x00' => some ([i + 1], none)
    | _ => some ([i + 1], some (fl, i + 1))

def skipDigits : ℕ → ℕ → Option (List ℕ × ℕ)
  | 0, _ => none
  | fuel + 1, i =>
    if isdigit (f.byte i) then (skipDigits fuel (i + 1)).map (reading i) else some ([i], i)

def atoiAt : ℕ → ℕ → ℕ → Option (List ℕ × ℕ)
  | 0, _, _ => none
  | fuel + 1, i, sum =>
    if isdigit (f.byte i) then
      (atoiAt fuel (i + 1) (u32 (sum * 10 + ((f.byte i).toNat - 48)))).map (reading i)
    else some ([i], sum)

def numberAt (fuel i : ℕ) : Option (List ℕ × ℕ × ℕ) :=
  (atoiAt f fuel i 0).bind fun (reads, n) =>
    (skipDigits f fuel i).map fun (reads', j) => (reads ++ reads', n, j)

def widthAt (fuel : ℕ) (va : VaList) (i : ℕ) : Option (List ℕ × ℕ × VaList × ℕ) :=
  if toChar (f.byte i) = '*' then some ([i], load32 m va.ap, vaArg 4 va, i + 1)
  else if isdigit (f.byte i) then
    (numberAt f fuel i).map fun (reads, n, j) => (i :: reads, n, va, j)
  else some ([i], 0, va, i)

def precisionAt (fuel : ℕ) (va : VaList) (i : ℕ) :
    Option (List ℕ × VaList × Option (ℕ × ℕ)) :=
  if toChar (f.byte i) = '.' then
    if toChar (f.byte (i + 1)) = '*' then
      some ([i, i + 1], vaArg 4 va, some (load32 m va.ap, i + 2))
    else if isdigit (f.byte (i + 1)) then
      (numberAt f fuel (i + 1)).map fun (reads, n, j) => (i :: (i + 1) :: reads, va, some (n, j))
    else some ([i, i + 1], va, none)
  else some ([i], va, some (6, i))

def lengthAt (i : ℕ) : List ℕ × Option (Length × ℕ) :=
  match toChar (f.byte i) with
  | 'h' =>
    if toChar (f.byte (i + 1)) = 'h' then ([i, i + 1], some (.byte, i + 2))
    else ([i, i + 1], some (.short, i + 1))
  | 'l' =>
    if toChar (f.byte (i + 1)) = 'l' then ([i, i + 1], some (.long, i + 2))
    else ([i, i + 1], some (.llong, i + 1))
  | 'L' | 'j' => ([i], some (.llong, i + 1))
  | 'z' | 't' | '\x00' => ([i], none)
  | _ => ([i], some (.long, i))

/-- The first half of `stream_format_arg`, at a percent sign; it yields a conversion and the
index of its type letter, or returns early. -/
def formatArgAt (fuel : ℕ) (va : VaList) (i : ℕ) :
    Option (List ℕ × VaList × Option (Conversion × ℕ)) :=
  (flagsAt f fuel noFlags i).bind fun
  | (r₁, none) => some (i :: r₁, va, none)
  | (r₁, some (fl, i₁)) =>
    (widthAt f m fuel va i₁).bind fun (r₂, width, va, i₂) =>
      (precisionAt f m fuel va i₂).map fun
      | (r₃, va, none) => (i :: (r₁ ++ r₂ ++ r₃), va, none)
      | (r₃, va, some (precision, i₃)) =>
        match lengthAt f i₃ with
        | (r₄, none) => (i :: (r₁ ++ r₂ ++ r₃ ++ r₄), va, none)
        | (r₄, some (length, i₄)) =>
          match readType (f.byte i₄) fl with
          | none => (i :: (r₁ ++ r₂ ++ r₃ ++ r₄ ++ [i₄]), va, none)
          | some (kind, fl) =>
            let (value, va) := readValue m va length kind
            (i :: (r₁ ++ r₂ ++ r₃ ++ r₄ ++ [i₄]), va, some (⟨fl, width, precision, value⟩, i₄))

/-- A round of `stream_vformat`: a literal character, a percent sign at which
`stream_format_arg` returns early, or a conversion up to its type letter. -/
inductive Turn
  | char (i : ℕ)
  | refused (i : ℕ)
  | complete (i j : ℕ) (cv : Conversion)

/-- What `stream_vformat` reads, its rounds, the bytes it puts, and whether it stops at a
conversion that divides by zero or does not return. -/
structure Outcome where
  reads : List ℕ
  turns : List Turn
  bytes : Chars
  fault : Bool

def Outcome.after (reads : List ℕ) (turn : Turn) (bytes : Chars) (o : Outcome) : Outcome :=
  ⟨reads ++ o.reads, turn :: o.turns, bytes ++ o.bytes, o.fault⟩

def vformatAt (w : World) (h : Heap) (block : ℕ → ℕ → UInt8) :
    ℕ → ℕ → ℕ → ℕ → Option Outcome
  | 0, _, _, _ => none
  | fuel + 1, n, i, ap =>
    if f.byte i = 0 then some ⟨[i], [], [], false⟩
    else if toChar (f.byte i) ≠ '%' then
      (vformatAt w h block fuel n (i + 1) ap).map (Outcome.after [i, i] (.char i) [f.byte i])
    else
      (formatArgAt f m fuel ⟨ap, []⟩ i).bind fun
      | (reads, va, none) =>
        (vformatAt w h block fuel n (i + 1) va.ap).map
          (Outcome.after (i :: reads) (.refused i) [])
      | (reads, va, some (cv, j)) =>
        match field w cv with
        | none => some ⟨i :: reads, [.complete i j cv], [], true⟩
        | some out =>
          (vformatAt w h block fuel (n + 1) (j + 1) va.ap).map
            (Outcome.after (i :: reads) (.complete i j cv) (putField h n (block n) cv out))

end Loops

/-- The rounds from an index on take every byte up to the terminator exactly once. -/
inductive Tiles (f : Text) (m : Mem) : ℕ → List Turn → Prop
  | nil : Tiles f m f.length []
  | char {i : ℕ} {ts : List Turn} (hp : toChar (f.byte i) ≠ '%') (hin : i < f.length)
    (h : Tiles f m (i + 1) ts) : Tiles f m i (.char i :: ts)
  | refused {i fuel : ℕ} {reads : List ℕ} {va va' : VaList} {ts : List Turn}
    (hp : toChar (f.byte i) = '%') (hin : i < f.length)
    (hr : formatArgAt f m fuel va i = some (reads, va', none))
    (h : Tiles f m (i + 1) ts) : Tiles f m i (.refused i :: ts)
  | complete {i j fuel : ℕ} {reads : List ℕ} {va va' : VaList} {cv : Conversion}
    {ts : List Turn} (hp : toChar (f.byte i) = '%') (hij : i < j) (hin : j < f.length)
    (hc : formatArgAt f m fuel va i = some (reads, va', some (cv, j)))
    (h : Tiles f m (j + 1) ts) : Tiles f m i (.complete i j cv :: ts)

inductive Emits (f : Text) (w : World) (h : Heap) (block : ℕ → ℕ → UInt8) :
    ℕ → List Turn → Chars → Prop
  | nil (n : ℕ) : Emits f w h block n [] []
  | char {n i : ℕ} {ts : List Turn} {out : Chars} (hts : Emits f w h block n ts out) :
    Emits f w h block n (.char i :: ts) (f.byte i :: out)
  | refused {n i : ℕ} {ts : List Turn} {out : Chars} (hts : Emits f w h block n ts out) :
    Emits f w h block n (.refused i :: ts) out
  | complete {n i j : ℕ} {cv : Conversion} {text : Chars} {ts : List Turn} {out : Chars}
    (hf : field w cv = some text) (hts : Emits f w h block (n + 1) ts out) :
    Emits f w h block n (.complete i j cv :: ts) (putField h n (block n) cv text ++ out)

def Turn.start : Turn → ℕ
  | .char i | .refused i | .complete i _ _ => i

/-- With enough fuel the call comes to its end, its index grows with every round
up to the terminator, no byte behind that is read, and the rounds take and put what they should. -/
structure Parses (f : Text) (m : Mem) (w : World) (h : Heap) (block : ℕ → ℕ → UInt8)
    (o : Outcome) : Prop where
  ends : o.fault = false
  increasing : (o.turns.map Turn.start).Pairwise (· < ·)
  reads : ∀ i ∈ o.reads, i ≤ f.length
  tiles : Tiles f m 0 o.turns
  emits : Emits f w h block 0 o.turns o.bytes

/-- The strings of floating conversions are those of `__format_double`. -/
def Total (f : Text) (m : Mem) (M : Machine) (w : World) (h : Heap) (block : ℕ → ℕ → UInt8)
    (ap : ℕ) : Prop :=
  ∃ enough, ∀ fuel, enough ≤ fuel → ∃ o,
    vformatAt f m (world M fuel w) h block fuel 0 0 ap = some o ∧
      Parses f m (world M fuel w) h block o

/-- A floating conversion that takes the logarithm of its number, which never ends. -/
def TakesLog (cv : Conversion) : Prop :=
  match cv.value with
  | .double bytes => Exponential (number bytes) cv.flags
  | _ => False

variable {f : Text} {m : Mem}

/-- The bytes from an index on, with the terminator. -/
def Text.from (f : Text) (i : ℕ) : Chars := (List.range' i (f.length - i)).map f.byte ++ [0]

theorem from_lt {i : ℕ} (hi : i < f.length) : f.from i = f.byte i :: f.from (i + 1) := by
  obtain ⟨k, hk⟩ : ∃ k, f.length - i = k + 1 := ⟨f.length - i - 1, by omega⟩
  have hk' : f.length - (i + 1) = k := by omega
  rw [Text.from, Text.from, hk, hk', List.range'_succ, List.map_cons, List.cons_append]

theorem from_length (f : Text) : f.from f.length = [0] := by
  rw [Text.from, Nat.sub_self]
  rfl

theorem from_head {i : ℕ} (hi : i ≤ f.length) : ∃ t, f.from i = f.byte i :: t ∧
    (i < f.length → t = f.from (i + 1)) := by
  obtain hlt | rfl := Nat.lt_or_eq_of_le hi
  · exact ⟨_, from_lt hlt, fun _ => rfl⟩
  · refine ⟨[], ?_, fun h => absurd h (lt_irrefl _)⟩
    rw [from_length, f.terminator]

theorem from_split {i j : ℕ} (hij : i ≤ j) (hj : j ≤ f.length) :
    ∃ xs, f.from i = xs ++ f.from j ∧ xs.length = j - i := by
  refine ⟨(List.range' i (j - i)).map f.byte, ?_, by simp⟩
  obtain ⟨k, rfl⟩ := Nat.exists_eq_add_of_le hij
  have hsum : f.length - i = k + (f.length - (i + k)) := by omega
  rw [Text.from, Text.from, hsum, Nat.add_sub_cancel_left, ← List.range'_append_1, List.map_append,
    List.append_assoc]

theorem lt_length {i : ℕ} (hi : i ≤ f.length) (h0 : f.byte i ≠ 0) : i < f.length := by
  obtain hlt | rfl := Nat.lt_or_eq_of_le hi
  · exact hlt
  · exact absurd f.terminator h0

theorem byte_zero {i : ℕ} (h : toChar (f.byte i) ≠ '\x00') : f.byte i ≠ 0 := by
  intro h0
  rw [h0] at h
  exact h rfl

theorem byte_nonzero {i : ℕ} (h : f.byte i ≠ 0) : toChar (f.byte i) ≠ '\x00' :=
  toChar_ne fun h0 => h (UInt8.toNat.inj h0)

def Inside (f : Text) (reads : List ℕ) : Prop := ∀ p ∈ reads, p ≤ f.length

theorem inside_cons {i : ℕ} {reads : List ℕ} :
    Inside f (i :: reads) ↔ i ≤ f.length ∧ Inside f reads :=
  List.forall_mem_cons

theorem inside_append {reads reads' : List ℕ} :
    Inside f (reads ++ reads') ↔ Inside f reads ∧ Inside f reads' :=
  List.forall_mem_append

theorem inside_nil : Inside f [] := fun _ hp => absurd hp List.not_mem_nil

def FlagsRead (f : Text) (fuel : ℕ) (fl : Flags) (i : ℕ) : Prop :=
  ∃ reads, Inside f reads ∧
    ((readFlags fl (f.from (i + 1)) = none ∧ flagsAt f fuel fl i = some (reads, none)) ∨
      ∃ fl' j, i < j ∧ j < f.length ∧ readFlags fl (f.from (i + 1)) = some (fl', f.from j) ∧
        flagsAt f fuel fl i = some (reads, some (fl', j)))

theorem FlagsRead.step {fuel i : ℕ} {fl fl' : Flags} (hi : i + 1 ≤ f.length)
    (h : FlagsRead f fuel fl' (i + 1))
    (hread : readFlags fl (f.from (i + 1)) = readFlags fl' (f.from (i + 1 + 1)))
    (hat : flagsAt f (fuel + 1) fl i = (flagsAt f fuel fl' (i + 1)).map (reading (i + 1))) :
    FlagsRead f (fuel + 1) fl i := by
  obtain ⟨reads, hin, ⟨hnone, hrun⟩ | ⟨fl'', j, hij, hj, hsome, hrun⟩⟩ := h
  · refine ⟨(i + 1) :: reads, inside_cons.mpr ⟨hi, hin⟩, .inl ⟨hread.trans hnone, ?_⟩⟩
    rw [hat, hrun]
    rfl
  · refine ⟨(i + 1) :: reads, inside_cons.mpr ⟨hi, hin⟩,
      .inr ⟨fl'', j, by omega, hj, hread.trans hsome, ?_⟩⟩
    rw [hat, hrun]
    rfl

theorem flagsAt_spec {fuel i : ℕ} (fl : Flags) (hi : i < f.length) (hf : f.length - i ≤ fuel) :
    FlagsRead f fuel fl i := by
  induction fuel generalizing fl i with
  | zero => omega
  | succ fuel ih =>
    obtain ⟨t, ht, htail⟩ := from_head (f := f) (i := i + 1) hi
    by_cases h0 : f.byte (i + 1) = 0
    · refine ⟨[i + 1], inside_cons.mpr ⟨hi, inside_nil⟩, .inl ⟨?_, ?_⟩⟩
      · rw [ht, readFlags, if_pos h0]
      · rw [flagsAt, h0]
        rfl
    have hlt := lt_length hi h0
    have hnext (fl' : Flags) : FlagsRead f fuel fl' (i + 1) := ih fl' hlt (by omega)
    rw [htail hlt] at ht
    by_cases hp : toChar (f.byte (i + 1)) = '+'
    · apply (hnext { fl with sign := true }).step hi
      · rw [ht, readFlags, if_neg h0, hp]
        rfl
      · rw [flagsAt, hp]
        rfl
    by_cases hm : toChar (f.byte (i + 1)) = '-'
    · apply (hnext { fl with left := true }).step hi
      · rw [ht, readFlags, if_neg h0, hm]
        rfl
      · rw [flagsAt, hm]
        rfl
    by_cases hh : toChar (f.byte (i + 1)) = '#'
    · apply (hnext { fl with alt := true }).step hi
      · rw [ht, readFlags, if_neg h0, hh]
        rfl
      · rw [flagsAt, hh]
        rfl
    by_cases hz : toChar (f.byte (i + 1)) = '0'
    · apply (hnext { fl with zero := true }).step hi
      · rw [ht, readFlags, if_neg h0, hz]
        rfl
      · rw [flagsAt, hz]
        rfl
    have hn := byte_nonzero h0
    refine ⟨[i + 1], inside_cons.mpr ⟨hi, inside_nil⟩,
      .inr ⟨fl, i + 1, Nat.lt_succ_self i, hlt, ?_, ?_⟩⟩
    · rw [ht, readFlags, if_neg h0]
      split <;> trivial
    · rw [flagsAt]
      split <;> trivial

theorem digit_nonzero {i : ℕ} (h : isdigit (f.byte i) = true) : f.byte i ≠ 0 := by
  intro h0
  rw [h0] at h
  cases h

theorem skipDigits_spec {fuel i : ℕ} (hi : i ≤ f.length) (hf : f.length - i < fuel) :
    ∃ reads j, Inside f reads ∧ i ≤ j ∧ j ≤ f.length ∧
      (f.from i).dropWhile isdigit = f.from j ∧ skipDigits f fuel i = some (reads, j) := by
  induction fuel generalizing i with
  | zero => omega
  | succ fuel ih =>
    obtain ⟨t, ht, htail⟩ := from_head hi
    rw [skipDigits]
    by_cases hd : isdigit (f.byte i) = true
    · have hlt := lt_length hi (digit_nonzero hd)
      obtain ⟨reads, j, hin, hij, hj, hdrop, hrun⟩ := ih (i := i + 1) hlt (by omega)
      refine ⟨i :: reads, j, inside_cons.mpr ⟨hi, hin⟩, by omega, hj, ?_, ?_⟩
      · rw [ht, htail hlt, List.dropWhile_cons_of_pos hd, hdrop]
      · rw [if_pos hd, hrun]
        rfl
    · refine ⟨[i], i, inside_cons.mpr ⟨hi, inside_nil⟩, le_rfl, hi, ?_, if_neg hd⟩
      rw [ht, List.dropWhile_cons_of_neg hd]

theorem atoiAt_spec {fuel i : ℕ} (sum : ℕ) (hi : i ≤ f.length) (hf : f.length - i < fuel) :
    ∃ reads, Inside f reads ∧ atoiAt f fuel i sum = some (reads,
      ((f.from i).takeWhile isdigit).foldl (fun sum c => u32 (sum * 10 + (c.toNat - 48))) sum) := by
  induction fuel generalizing i sum with
  | zero => omega
  | succ fuel ih =>
    obtain ⟨t, ht, htail⟩ := from_head hi
    rw [atoiAt]
    by_cases hd : isdigit (f.byte i) = true
    · have hlt := lt_length hi (digit_nonzero hd)
      obtain ⟨reads, hin, hrun⟩ :=
        ih (i := i + 1) (u32 (sum * 10 + ((f.byte i).toNat - 48))) hlt (by omega)
      refine ⟨i :: reads, inside_cons.mpr ⟨hi, hin⟩, ?_⟩
      rw [if_pos hd, hrun, ht, htail hlt, List.takeWhile_cons_of_pos hd]
      rfl
    · refine ⟨[i], inside_cons.mpr ⟨hi, inside_nil⟩, ?_⟩
      rw [if_neg hd, ht, List.takeWhile_cons_of_neg hd]
      rfl

theorem numberAt_spec (fuel : ℕ) {i : ℕ} (hi : i ≤ f.length) (hf : f.length - i < fuel) :
    ∃ reads j, Inside f reads ∧ i ≤ j ∧ j ≤ f.length ∧
      (f.from i).dropWhile isdigit = f.from j ∧
      numberAt f fuel i = some (reads, atoi (f.from i), j) := by
  obtain ⟨reads, hin, hatoi⟩ := atoiAt_spec 0 hi hf
  obtain ⟨reads', j, hin', hij, hj, hdrop, hskip⟩ := skipDigits_spec hi hf
  refine ⟨reads ++ reads', j, inside_append.mpr ⟨hin, hin'⟩, hij, hj, hdrop, ?_⟩
  rw [numberAt, hatoi, hskip]
  rfl

theorem widthAt_spec (m : Mem) (fuel : ℕ) {i : ℕ} (va : VaList) (hi : i ≤ f.length)
    (hf : f.length - i < fuel) :
    ∃ reads width va' j, Inside f reads ∧ i ≤ j ∧ j ≤ f.length ∧
      readWidth m va (f.from i) = (width, va', f.from j) ∧
      widthAt f m fuel va i = some (reads, width, va', j) := by
  obtain ⟨t, ht, htail⟩ := from_head hi
  rw [widthAt]
  by_cases hs : toChar (f.byte i) = '*'
  · have hn : f.byte i ≠ 0 := byte_zero (by rw [hs]; decide)
    have hlt := lt_length hi hn
    refine ⟨[i], _, _, i + 1, inside_cons.mpr ⟨hi, inside_nil⟩, Nat.le_succ i, hlt, ?_, if_pos hs⟩
    rw [ht, htail hlt, readWidth, if_pos hs]
  rw [if_neg hs]
  by_cases hd : isdigit (f.byte i) = true
  · obtain ⟨reads, j, hin, hij, hj, hdrop, hrun⟩ := numberAt_spec fuel hi hf
    refine ⟨i :: reads, atoi (f.from i), va, j, inside_cons.mpr ⟨hi, hin⟩, hij, hj, ?_, ?_⟩
    · rw [← hdrop, ht, readWidth, if_neg hs, if_pos hd]
    · rw [if_pos hd, hrun]
      rfl
  · refine ⟨[i], 0, va, i, inside_cons.mpr ⟨hi, inside_nil⟩, le_rfl, hi, ?_, if_neg hd⟩
    rw [ht, readWidth, if_neg hs, if_neg hd]

theorem precisionAt_spec (m : Mem) (fuel : ℕ) {i : ℕ} (va : VaList) (hi : i ≤ f.length)
    (hf : f.length - i < fuel) :
    ∃ reads va', Inside f reads ∧
      ((readPrecision m va (f.from i) = (va', none) ∧
          precisionAt f m fuel va i = some (reads, va', none)) ∨
        ∃ n j, i ≤ j ∧ j ≤ f.length ∧ readPrecision m va (f.from i) = (va', some (n, f.from j)) ∧
          precisionAt f m fuel va i = some (reads, va', some (n, j))) := by
  obtain ⟨t, ht, htail⟩ := from_head hi
  rw [precisionAt]
  by_cases hd : toChar (f.byte i) = '.'
  · have hn : f.byte i ≠ 0 := byte_zero (by rw [hd]; decide)
    have hlt := lt_length hi hn
    obtain ⟨u, hu, hutail⟩ := from_head (f := f) (i := i + 1) hlt
    have hboth : Inside f [i, i + 1] := inside_cons.mpr ⟨hi, inside_cons.mpr ⟨hlt, inside_nil⟩⟩
    rw [if_pos hd, ht, htail hlt]
    by_cases hs : toChar (f.byte (i + 1)) = '*'
    · have hn' : f.byte (i + 1) ≠ 0 := byte_zero (by rw [hs]; decide)
      have hlt' := lt_length hlt hn'
      refine ⟨[i, i + 1], _, hboth, .inr ⟨_, i + 2, by omega, hlt', ?_, if_pos hs⟩⟩
      rw [hu, hutail hlt', readPrecision, if_pos hd]
      simp only [if_pos hs]
    rw [if_neg hs]
    by_cases hdig : isdigit (f.byte (i + 1)) = true
    · obtain ⟨reads, j, hin, hij, hj, hdrop, hrun⟩ := numberAt_spec (f := f) (i := i + 1)
        fuel hlt (by omega)
      refine ⟨i :: (i + 1) :: reads, va, inside_cons.mpr ⟨hi, inside_cons.mpr ⟨hlt, hin⟩⟩,
        .inr ⟨atoi (f.from (i + 1)), j, by omega, hj, ?_, ?_⟩⟩
      · rw [← hdrop, hu, readPrecision, if_pos hd]
        simp only [if_neg hs, if_pos hdig]
      · rw [if_pos hdig, hrun]
        rfl
    · refine ⟨[i, i + 1], va, hboth, .inl ⟨?_, if_neg hdig⟩⟩
      rw [hu, readPrecision, if_pos hd]
      simp only [if_neg hs, if_neg hdig]
  · refine ⟨[i], va, inside_cons.mpr ⟨hi, inside_nil⟩, .inr ⟨6, i, le_rfl, hi, ?_, if_neg hd⟩⟩
    rw [ht, readPrecision.eq_def]
    simp only [if_neg hd]

def LengthRead (f : Text) (i : ℕ) : Prop :=
  ∃ reads, Inside f reads ∧ ((readLength (f.from i) = none ∧ lengthAt f i = (reads, none)) ∨
    ∃ length j, i ≤ j ∧ j ≤ f.length ∧ readLength (f.from i) = some (length, f.from j) ∧
      lengthAt f i = (reads, some (length, j)))

theorem LengthRead.double {i : ℕ} {c : Char} (two one : Length) (hi : i < f.length)
    (hc : c ≠ '\x00')
    (hread : ∀ d t, readLength (f.byte i :: d :: t) =
      if toChar d = c then some (two, t) else some (one, d :: t))
    (hat : lengthAt f i = if toChar (f.byte (i + 1)) = c then ([i, i + 1], some (two, i + 2))
      else ([i, i + 1], some (one, i + 1))) : LengthRead f i := by
  obtain ⟨t, ht, htail⟩ := from_head (f := f) (i := i + 1) hi
  have hboth : Inside f [i, i + 1] := inside_cons.mpr ⟨hi.le, inside_cons.mpr ⟨hi, inside_nil⟩⟩
  refine ⟨[i, i + 1], hboth, .inr ?_⟩
  rw [from_lt hi, ht, hread, hat]
  by_cases hd : toChar (f.byte (i + 1)) = c
  · have hn : f.byte (i + 1) ≠ 0 := byte_zero (by rw [hd]; exact hc)
    have hlt := lt_length hi hn
    rw [if_pos hd, if_pos hd, htail hlt]
    exact ⟨two, i + 2, by omega, hlt, rfl, rfl⟩
  · rw [if_neg hd, if_neg hd, ← ht]
    exact ⟨one, i + 1, by omega, hi, rfl, rfl⟩

theorem lengthAt_spec {i : ℕ} (hi : i ≤ f.length) : LengthRead f i := by
  obtain ⟨t, ht, htail⟩ := from_head hi
  have hone : Inside f [i] := inside_cons.mpr ⟨hi, inside_nil⟩
  by_cases h0 : f.byte i = 0
  · refine ⟨[i], hone, .inl ⟨?_, ?_⟩⟩
    · rw [ht, readLength, if_pos h0]
    · rw [lengthAt, h0]
      rfl
  have hlt := lt_length hi h0
  rw [htail hlt] at ht
  by_cases hh : toChar (f.byte i) = 'h'
  · refine LengthRead.double (c := 'h') .byte .short hlt (by decide)
      (fun d t => ?_) ?_
    · rw [readLength, if_neg h0, hh]
      simp only [List.head?_cons, Option.map_some, Option.some.injEq, List.tail_cons]
    · rw [lengthAt, hh]
      rfl
  by_cases hl : toChar (f.byte i) = 'l'
  · refine LengthRead.double (c := 'l') .long .llong hlt (by decide)
      (fun d t => ?_) ?_
    · rw [readLength, if_neg h0, hl]
      simp only [List.head?_cons, Option.map_some, Option.some.injEq, List.tail_cons]
    · rw [lengthAt, hl]
      rfl
  by_cases hL : toChar (f.byte i) = 'L'
  · refine ⟨[i], hone, .inr ⟨.llong, i + 1, by omega, hlt, ?_, ?_⟩⟩
    · rw [ht, readLength, if_neg h0, hL]
      rfl
    · rw [lengthAt, hL]
      rfl
  by_cases hj : toChar (f.byte i) = 'j'
  · refine ⟨[i], hone, .inr ⟨.llong, i + 1, by omega, hlt, ?_, ?_⟩⟩
    · rw [ht, readLength, if_neg h0, hj]
      rfl
    · rw [lengthAt, hj]
      rfl
  by_cases hz : toChar (f.byte i) = 'z'
  · refine ⟨[i], hone, .inl ⟨?_, ?_⟩⟩
    · rw [ht, readLength, if_neg h0, hz]
      rfl
    · rw [lengthAt, hz]
      rfl
  by_cases hT : toChar (f.byte i) = 't'
  · refine ⟨[i], hone, .inl ⟨?_, ?_⟩⟩
    · rw [ht, readLength, if_neg h0, hT]
      rfl
    · rw [lengthAt, hT]
      rfl
  have hn := byte_nonzero h0
  refine ⟨[i], hone, .inr ⟨.long, i, le_rfl, hi, ?_, ?_⟩⟩
  · rw [ht, readLength, if_neg h0]
    split <;> trivial
  · rw [lengthAt]
    split <;> trivial

theorem readType_nonzero {i : ℕ} {fl : Flags} {r : Kind × Flags}
    (h : readType (f.byte i) fl = some r) : f.byte i ≠ 0 := by
  intro h0
  rw [h0] at h
  cases h

theorem formatArgAt_spec (fuel : ℕ) {i : ℕ} (m : Mem) (va : VaList) (hi : i < f.length)
    (hf : f.length - i ≤ fuel) :
    ∃ reads va', Inside f reads ∧
      ((readArg m va (f.from (i + 1)) = (va', none) ∧
          formatArgAt f m fuel va i = some (reads, va', none)) ∨
        ∃ cv j, i < j ∧ j < f.length ∧
          readArg m va (f.from (i + 1)) = (va', some (cv, f.from (j + 1))) ∧
          formatArgAt f m fuel va i = some (reads, va', some (cv, j))) := by
  unfold readArg formatArgAt
  obtain ⟨r₁, hin₁, ⟨hnone, hrun⟩ | ⟨fl, i₁, hi₁, hj₁, hsome, hrun⟩⟩ :=
    flagsAt_spec noFlags hi hf
  · refine ⟨i :: r₁, va, inside_cons.mpr ⟨hi.le, hin₁⟩, .inl ⟨?_, ?_⟩⟩
    · rw [hnone]
    · rw [hrun]
      rfl
  obtain ⟨r₂, width, va₂, i₂, hin₂, hi₂, hj₂, hwidth, hrun₂⟩ :=
    widthAt_spec m fuel va hj₁.le (by omega)
  simp only [hsome, hrun, Option.bind_some, hwidth, hrun₂]
  obtain ⟨r₃, va₃, hin₃, ⟨hnone, hrun₃⟩ | ⟨precision, i₃, hi₃, hj₃, hprecision, hrun₃⟩⟩ :=
    precisionAt_spec m fuel va₂ hj₂ (by omega)
  · refine ⟨i :: (r₁ ++ r₂ ++ r₃), va₃, ?_, .inl ⟨?_, ?_⟩⟩
    · simp only [inside_cons, inside_append, hin₁, hin₂, hin₃, hi.le, and_self]
    · simp only [hnone]
    · simp only [hrun₃, Option.map_some]
  simp only [hprecision, hrun₃, Option.map_some]
  obtain ⟨r₄, hin₄, ⟨hnone, hrun₄⟩ | ⟨length, i₄, hi₄, hj₄, hlength, hrun₄⟩⟩ := lengthAt_spec hj₃
  · refine ⟨i :: (r₁ ++ r₂ ++ r₃ ++ r₄), va₃, ?_, .inl ⟨?_, ?_⟩⟩
    · simp only [inside_cons, inside_append, hin₁, hin₂, hin₃, hin₄, hi.le, and_self]
    · simp only [hnone]
    · simp only [hrun₄]
  obtain ⟨t, ht, htail⟩ := from_head hj₄
  have hin : Inside f (i :: (r₁ ++ r₂ ++ r₃ ++ r₄ ++ [i₄])) := by
    simp only [inside_cons, inside_append, hin₁, hin₂, hin₃, hin₄, hi.le, hj₄, inside_nil, and_self]
  simp only [hlength, hrun₄, ht]
  cases htype : readType (f.byte i₄) fl with
  | none => exact ⟨_, va₃, hin, .inl ⟨rfl, rfl⟩⟩
  | some r =>
    have hlt := lt_length hj₄ (readType_nonzero htype)
    refine ⟨_, _, hin, .inr ⟨_, i₄, by omega, hlt, ?_, rfl⟩⟩
    rw [← htail hlt]

theorem scan_refused {i ap : ℕ} {va : VaList} (hi : i < f.length) (hp : toChar (f.byte i) = '%')
    (h : readArg m ⟨ap, []⟩ (f.from (i + 1)) = (va, none)) :
    scan m 0 (f.from i) ap = .call va none :: scan m 0 (f.from (i + 1)) va.ap := by
  rw [from_lt hi, scan, if_neg (f.nonzero i hi), if_neg (not_not.mpr hp), h]

theorem scan_complete {i j ap : ℕ} {va : VaList} {cv : Conversion} (hij : i < j)
    (hj : j < f.length) (hp : toChar (f.byte i) = '%')
    (h : readArg m ⟨ap, []⟩ (f.from (i + 1)) = (va, some (cv, f.from (j + 1)))) :
    scan m 0 (f.from i) ap = .call va (some cv) :: scan m 0 (f.from (j + 1)) va.ap := by
  obtain ⟨xs, hxs, -⟩ := from_split (f := f) (i := i + 1) (j := j + 1) (by omega) hj
  have hlen : (f.from (i + 1)).length - (f.from (j + 1)).length = xs.length := by
    rw [hxs, List.length_append]
    omega
  have hi : i < f.length := hij.trans hj
  rw [from_lt hi, scan, if_neg (f.nonzero i hi), if_neg (not_not.mpr hp), h]
  simp only [hlen]
  rw [hxs, FormatArguments.scan_skip]

structure Follows (f : Text) (m : Mem) (w : World) (h : Heap) (block : ℕ → ℕ → UInt8)
    (n i ap : ℕ) (o : Outcome) : Prop where
  reads : Inside f o.reads
  output : (⟨o.bytes, o.fault⟩ : Output) = emit w h block n (scan m 0 (f.from i) ap)
  tiles : o.fault = false → Tiles f m i o.turns
  emits : o.fault = false → Emits f w h block n o.turns o.bytes

theorem vformatAt_spec (fuel : ℕ) {i : ℕ} (w : World) (h : Heap) (block : ℕ → ℕ → UInt8) (n ap : ℕ)
    (hi : i ≤ f.length) (hf : f.length - i < fuel) :
    ∃ o, vformatAt f m w h block fuel n i ap = some o ∧ Follows f m w h block n i ap o := by
  induction fuel generalizing n i ap with
  | zero => omega
  | succ fuel ih =>
    rw [vformatAt]
    by_cases h0 : f.byte i = 0
    · have hend : i = f.length := by
        by_contra hne
        exact f.nonzero i (by omega) h0
      subst hend
      refine ⟨_, if_pos h0, inside_cons.mpr ⟨le_rfl, inside_nil⟩, ?_, fun _ => .nil,
        fun _ => .nil n⟩
      rw [from_length]
      rfl
    have hlt := lt_length hi h0
    rw [if_neg h0]
    by_cases hp : toChar (f.byte i) ≠ '%'
    · obtain ⟨o, hrun, hreads, houtput, htiles, hemits⟩ := ih n (i := i + 1) ap hlt (by omega)
      refine ⟨Outcome.after [i, i] (.char i) [f.byte i] o, by rw [if_pos hp, hrun]; rfl, ?_, ?_,
        fun hok => .char hp hlt (htiles hok), fun hok => .char (hemits hok)⟩
      · exact inside_cons.mpr ⟨hi, inside_cons.mpr ⟨hi, hreads⟩⟩
      · rw [from_lt hlt, scan, if_neg h0, if_pos hp, emit, ← houtput]
        rfl
    have hpercent : toChar (f.byte i) = '%' := not_not.mp hp
    obtain ⟨reads, va, hin, ⟨hread, hat⟩ | ⟨cv, j, hij, hj, hread, hat⟩⟩ :=
      formatArgAt_spec fuel m ⟨ap, []⟩ hlt (by omega)
    · obtain ⟨o, hrun, hreads, houtput, htiles, hemits⟩ := ih n (i := i + 1) va.ap hlt (by omega)
      refine ⟨Outcome.after (i :: reads) (.refused i) [] o, ?_, ?_, ?_,
        fun hok => .refused hpercent hlt hat (htiles hok), fun hok => .refused (hemits hok)⟩
      · rw [if_neg hp, hat, Option.bind_some]
        simp only [hrun, Option.map_some]
      · exact inside_append.mpr ⟨inside_cons.mpr ⟨hi, hin⟩, hreads⟩
      · rw [scan_refused hlt hpercent hread, emit, ← houtput]
        rfl
    · have hitems := scan_complete hij hj hpercent hread
      rw [if_neg hp, hat, Option.bind_some]
      cases hfield : field w cv with
      | none =>
        refine ⟨⟨i :: reads, [.complete i j cv], [], true⟩, by simp only [hfield],
          inside_cons.mpr ⟨hi, hin⟩, ?_, Bool.noConfusion, Bool.noConfusion⟩
        rw [hitems, emit, hfield]
      | some text =>
        obtain ⟨o, hrun, hreads, houtput, htiles, hemits⟩ :=
          ih (n + 1) (i := j + 1) va.ap hj (by omega)
        refine ⟨Outcome.after (i :: reads) (.complete i j cv) (putField h n (block n) cv text) o,
          ?_, ?_, ?_, fun hok => .complete hpercent hij hj hat (htiles hok),
          fun hok => .complete hfield (hemits hok)⟩
        · simp only [hfield, hrun, Option.map_some]
        · exact inside_append.mpr ⟨inside_cons.mpr ⟨hi, hin⟩, hreads⟩
        · rw [hitems, emit, hfield, ← houtput]
          rfl

theorem Tiles.increasing {i : ℕ} {ts : List Turn} (h : Tiles f m i ts) :
    (∀ t ∈ ts, i ≤ t.start) ∧ (ts.map Turn.start).Pairwise (· < ·) := by
  have hstep : ∀ {i j : ℕ} {t : Turn} {ts : List Turn}, t.start = i → i < j →
      ((∀ t ∈ ts, j ≤ t.start) ∧ (ts.map Turn.start).Pairwise (· < ·)) →
      (∀ t' ∈ t :: ts, i ≤ t'.start) ∧ ((t :: ts).map Turn.start).Pairwise (· < ·) := by
    rintro i j t ts rfl hij ⟨hle, hinc⟩
    refine ⟨?_, ?_⟩
    · rw [List.forall_mem_cons]
      exact ⟨le_rfl, fun t' ht' => hij.le.trans (hle t' ht')⟩
    · rw [List.map_cons, List.pairwise_cons, List.forall_mem_map]
      exact ⟨fun t' ht' => hij.trans_le (hle t' ht'), hinc⟩
  induction h with
  | nil => exact ⟨fun t ht => absurd ht List.not_mem_nil, List.Pairwise.nil⟩
  | char _ _ _ ih => exact hstep rfl (Nat.lt_succ_self _) ih
  | refused _ _ _ _ ih => exact hstep rfl (Nat.lt_succ_self _) ih
  | complete _ hij _ _ _ ih => exact hstep rfl (hij.trans (Nat.lt_succ_self _)) ih

theorem emit_fault_iff (w : World) (h : Heap) (block : ℕ → ℕ → UInt8) (items : List Item) (n : ℕ) :
    (emit w h block n items).fault = false ↔
      ∀ va cv, .call va (some cv) ∈ items → field w cv ≠ none := by
  induction items generalizing n with
  | nil => exact iff_of_true rfl fun va cv hmem => absurd hmem List.not_mem_nil
  | cons item items ih =>
    simp only [List.mem_cons]
    cases item with
    | char c =>
      rw [emit, Output.after, ih n]
      simp
    | call va cv =>
      cases cv with
      | none =>
        rw [emit, ih n]
        simp
      | some cv =>
        cases hf : field w cv with
        | none =>
          simp only [emit, hf]
          exact iff_of_false (by simp) fun hall => hall va cv (.inl rfl) hf
        | some out =>
          have hok : field w cv ≠ none := by simp [hf]
          simp only [emit, hf, Output.after, ih (n + 1)]
          constructor
          · rintro hall va' cv' (heq | hmem)
            · cases heq
              exact hok
            · exact hall va' cv' hmem
          · exact fun hall va' cv' hmem => hall va' cv' (.inr hmem)

theorem total_iff (f : Text) (m : Mem) (M : Machine) (w : World) (h : Heap)
    (block : ℕ → ℕ → UInt8) (ap : ℕ) :
    Total f m M w h block ap ↔ ∃ enough, ∀ fuel, enough ≤ fuel →
      (emit (world M fuel w) h block 0 (scan m 0 (f.from 0) ap)).fault = false := by
  constructor
  · rintro ⟨enough, htotal⟩
    refine ⟨max enough (f.length + 1), fun fuel hfuel => ?_⟩
    obtain ⟨o, hrun, hparses⟩ := htotal fuel ((le_max_left _ _).trans hfuel)
    have hlen : f.length + 1 ≤ fuel := (le_max_right _ _).trans hfuel
    obtain ⟨o', hrun', hfollows⟩ := vformatAt_spec (f := f) (m := m) fuel (world M fuel w) h block
      0 ap (Nat.zero_le _) (by omega)
    obtain rfl : o = o' := Option.some.inj (hrun.symm.trans hrun')
    rw [← hfollows.output]
    exact hparses.ends
  · rintro ⟨enough, hok⟩
    refine ⟨max enough (f.length + 1), fun fuel hfuel => ?_⟩
    have hlen : f.length + 1 ≤ fuel := (le_max_right _ _).trans hfuel
    obtain ⟨o, hrun, hfollows⟩ := vformatAt_spec (f := f) (m := m) fuel (world M fuel w) h block
      0 ap (Nat.zero_le _) (by omega)
    have hends : o.fault = false := by
      have hemit := hok fuel ((le_max_left _ _).trans hfuel)
      rw [← hfollows.output] at hemit
      exact hemit
    have htiles := hfollows.tiles hends
    exact ⟨o, hrun, hends, htiles.increasing.2, hfollows.reads, htiles, hfollows.emits hends⟩

theorem field_world_none_iff (M : Machine) (fuel : ℕ) (w : World) (cv : Conversion) :
    field (world M (fuel + 1) w) cv = none ↔ Overscaled cv ∨ TakesLog cv := by
  obtain ⟨fl, width, precision, value⟩ := cv
  cases value with
  | double bytes =>
    rw [field_double, Option.map_eq_none_iff, streamPutdouble, Option.map_eq_none_iff,
      formatDouble_none_iff]
    exact (or_iff_right id).symm
  | _ => exact field_none_iff _ _

/-- Formats are parsed right to their end exactly if no integer conversion divides by zero and no
floating one takes a logarithm. -/
theorem format_total_iff (f : Text) (m : Mem) (M : Machine) (w : World) (h : Heap)
    (block : ℕ → ℕ → UInt8) (ap : ℕ) : Total f m M w h block ap ↔
      ∀ va cv, .call va (some cv) ∈ scan m 0 (f.from 0) ap → ¬Overscaled cv ∧ ¬TakesLog cv := by
  have hput (fuel : ℕ) : (emit (world M (fuel + 1) w) h block 0 (scan m 0 (f.from 0) ap)).fault =
      false ↔ ∀ va cv, .call va (some cv) ∈ scan m 0 (f.from 0) ap →
        ¬Overscaled cv ∧ ¬TakesLog cv := by
    simp only [emit_fault_iff, field_world_none_iff, ne_eq, not_or]
  rw [total_iff]
  constructor
  · rintro ⟨enough, hall⟩
    exact (hput enough).mp (hall (enough + 1) (Nat.le_succ enough))
  · refine fun hall => ⟨1, fun fuel hfuel => ?_⟩
    obtain ⟨fuel, rfl⟩ := Nat.exists_eq_add_of_le' hfuel
    exact (hput fuel).mpr hall

def hexText : Text := ⟨fun i => [37, 120].getD i 0, 2, rfl, by decide⟩

/-- "%x" of two to the 28. -/
theorem format_faults : ¬Total hexText (fun a => if a = 3 then 16 else 0)
    ⟨fun _ => 0, fun _ => 0, fun _ => 0, fun _ _ => 0⟩
    ⟨fun _ => [], fun _ _ => 0, fun _ _ _ => some []⟩ ⟨fun _ _ _ => 0, fun _ _ => []⟩
    (fun _ _ => 0) 0 := by
  rw [total_iff]
  rintro ⟨enough, hall⟩
  have hfault := hall enough le_rfl
  revert hfault
  exact Bool.noConfusion

end Jiauliyan.FormatScan
