import Mathlib.Data.List.Basic
import Mathlib.Data.Nat.Notation
import Mathlib.Logic.Function.Basic
import Mathlib.Tactic.SplitIfs

namespace Jiauliyan.Pic

/-- What a controller takes the next byte on its data port for; during the initialization also
whether a word on the cascade and one on the mode are still to come. -/
inductive Expects
  | mask
  | base (cascade mode : Bool)
  | cascade (mode : Bool)
  | mode

/-- An 8259: the levels that are requested, those in service and those masked, the vector of level
0, which comes first, and whether interrupts end by themselves. -/
structure Chip where
  irr : ℕ → Bool
  isr : ℕ → Bool
  imr : UInt8
  base : ℕ
  auto : Bool
  expects : Expects

namespace Chip

/-- A level may interrupt if neither it nor one that comes before it is in service. -/
def allowed (c : Chip) (i : ℕ) : Bool :=
  c.irr i && !c.imr.toNat.testBit i && (List.range (i + 1)).all fun j => !c.isr j

def pending (c : Chip) : Option ℕ := (List.range 8).find? c.allowed

def serve (c : Chip) (i : ℕ) : Chip :=
  { c with
    irr := Function.update c.irr i false
    isr := if c.auto then c.isr else Function.update c.isr i true }

def endOfInterrupt (c : Chip) : Chip :=
  match (List.range 8).find? c.isr with
  | some i => { c with isr := Function.update c.isr i false }
  | none => c

/-- A byte on the command port. The commands that turn the levels round are left out. -/
def command (c : Chip) (v : UInt8) : Chip :=
  if v.toNat.testBit 4 then
    ⟨fun _ => false, fun _ => false, 0, c.base, false,
      .base (!v.toNat.testBit 1) (v.toNat.testBit 0)⟩
  else if v = 0x20 then c.endOfInterrupt
  else if v.toNat / 8 = 0x60 / 8 then
    { c with isr := Function.update c.isr (v.toNat % 8) false }
  else c

/-- A byte on the data port. -/
def data (c : Chip) (v : UInt8) : Chip :=
  match c.expects with
  | .mask => { c with imr := v }
  | .base cascade mode =>
    { c with
      base := v.toNat / 8 * 8
      expects := if cascade then .cascade mode else if mode then .mode else .mask }
  | .cascade mode => { c with expects := if mode then .mode else .mask }
  | .mode => { c with auto := v.toNat.testBit 1, expects := .mask }

theorem pending_some {c : Chip} {i : ℕ} (h : c.pending = some i) :
    i < 8 ∧ c.irr i = true ∧ ∀ j ≤ i, c.isr j = false := by
  obtain ⟨hallowed, hi, -⟩ := List.find?_range_eq_some.mp h
  rw [allowed, Bool.and_eq_true, Bool.and_eq_true, List.all_eq_true] at hallowed
  refine ⟨List.mem_range.mp hi, hallowed.1.1, fun j hj => ?_⟩
  have hfree := hallowed.2 j (List.mem_range.mpr (Nat.lt_succ_of_le hj))
  simpa using hfree

theorem pending_of_request {c : Chip} {i : ℕ} (hi : i < 8) (hirr : c.irr i = true)
    (himr : c.imr = 0) (hisr : ∀ j, c.isr j = false) : ∃ k, c.pending = some k := by
  have hsome : c.pending.isSome = true := by
    rw [pending, List.find?_isSome]
    refine ⟨i, List.mem_range.mpr hi, ?_⟩
    simp [allowed, hirr, himr, hisr]
  exact Option.isSome_iff_exists.mp hsome

theorem endOfInterrupt_irr (c : Chip) : c.endOfInterrupt.irr = c.irr := by
  rw [endOfInterrupt]
  cases (List.range 8).find? c.isr <;> rfl

theorem endOfInterrupt_first {c : Chip} {i : ℕ} (hi : i < 8) (hisr : c.isr i = true)
    (hfirst : ∀ j < i, c.isr j = false) :
    c.endOfInterrupt = { c with isr := Function.update c.isr i false } := by
  have hfind : (List.range 8).find? c.isr = some i :=
    List.find?_range_eq_some.mpr ⟨hisr, List.mem_range.mpr hi, fun j hj => by simp [hfirst j hj]⟩
  rw [endOfInterrupt, hfind]

end Chip

structure Pair where
  master : Chip
  slave : Chip

namespace Pair

/-- The first controller with the request of the second. -/
def requested (p : Pair) : Chip :=
  { p.master with irr := Function.update p.master.irr 2 p.slave.pending.isSome }

def acknowledge (p : Pair) : Option (ℕ × Pair) :=
  match p.requested.pending with
  | none => none
  | some i =>
    if i = 2 then
      p.slave.pending.map fun j => (p.slave.base + j, ⟨p.requested.serve 2, p.slave.serve j⟩)
    else some (p.master.base + i, { p with master := p.master.serve i })

def request (p : Pair) (n : ℕ) : Pair :=
  if n < 8 then { p with master := { p.master with irr := Function.update p.master.irr n true } }
  else { p with slave := { p.slave with irr := Function.update p.slave.irr (n - 8) true } }

/-- The device on a line waits for its interrupt. -/
def requests (p : Pair) (n : ℕ) : Bool := if n < 8 then p.master.irr n else p.slave.irr (n - 8)

/-- A byte on a port. -/
def out (p : Pair) (port : ℕ) (v : UInt8) : Pair :=
  if port = 0x20 then { p with master := p.master.command v }
  else if port = 0x21 then { p with master := p.master.data v }
  else if port = 0xA0 then { p with slave := p.slave.command v }
  else if port = 0xA1 then { p with slave := p.slave.data v }
  else p

variable {p : Pair}

theorem acknowledge_of_pending {i : ℕ} (h : p.requested.pending = some i) :
    ∃ a, p.acknowledge = some a := by
  rw [acknowledge, h]
  by_cases h2 : i = 2
  · subst h2
    have hirr : p.slave.pending.isSome = true := (Chip.pending_some h).2.1
    obtain ⟨j, hj⟩ := Option.isSome_iff_exists.mp hirr
    exact ⟨_, by rw [hj]; rfl⟩
  · exact ⟨_, if_neg h2⟩

/-- Where neither controller has anything in service, every request is acknowledged, or one
before it. -/
theorem acknowledge_of_requests {n : ℕ} (hn : n < 16) (h2 : n ≠ 2) (hreq : p.requests n = true)
    (hmaster : p.master.imr = 0) (hslave : p.slave.imr = 0)
    (hisr : ∀ i, p.master.isr i = false) (hslaveIsr : ∀ j, p.slave.isr j = false) :
    ∃ a, p.acknowledge = some a := by
  rw [requests] at hreq
  split_ifs at hreq with h8
  · have hirr : p.requested.irr n = true := (Function.update_of_ne h2 _ _).trans hreq
    obtain ⟨k, hk⟩ := Chip.pending_of_request h8 hirr hmaster hisr
    exact acknowledge_of_pending hk
  · obtain ⟨j, hj⟩ := Chip.pending_of_request (by omega) hreq hslave hslaveIsr
    have hirr : p.requested.irr 2 = true := by
      show Function.update p.master.irr 2 p.slave.pending.isSome 2 = true
      rw [Function.update_self, hj, Option.isSome_some]
    obtain ⟨k, hk⟩ := Chip.pending_of_request (by decide) hirr hmaster hisr
    exact acknowledge_of_pending hk

end Pair

end Jiauliyan.Pic
