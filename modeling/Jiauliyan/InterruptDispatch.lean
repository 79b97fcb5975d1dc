import Jiauliyan.DescriptorTables

namespace Jiauliyan.InterruptDispatch

open Jiauliyan.Memory Jiauliyan.X86 Jiauliyan.InterruptStubs Jiauliyan.DescriptorTables

/-- The registers of the code that was interrupted, in the order of the structure. The last two
fields were not pushed: they are what that code has on its stack. -/
def regsOf (c : Cpu) (number err : UInt32) : Regs :=
  let s := c.state
  ⟨(s.seg .gs).toUInt32, (s.seg .fs).toUInt32, (s.seg .es).toUInt32, (s.seg .ds).toUInt32,
    s.reg .edi, s.reg .esi, s.reg .ebp, s.reg .esp - 20, s.reg .ebx, s.reg .edx, s.reg .ecx,
    s.reg .eax, number, err, c.eip, (s.seg .cs).toUInt32, s.eflags,
    UInt32.ofNat (load32 s.mem (s.reg .esp).toNat),
    UInt32.ofNat (load32 s.mem ((s.reg .esp).toNat + 4))⟩

section Called

variable {c : Cpu} {number err ret : UInt32} {s : State}

theorem called_regs (h : Called c number err ret s) :
    load32 s.mem (s.reg .esp).toNat = ret.toNat ∧
      regsAt s.mem (load32 s.mem ((s.reg .esp).toNat + 4)) = regsOf c number err := by
  have hold : (s.reg .esp).toNat + 76 = (c.state.reg .esp).toNat := h.pushed.esp
  have hlt := (c.state.reg .esp).toNat_lt
  have hword : ∀ i (hi : i < 17),
      UInt32.ofNat (load32 s.mem ((s.reg .esp).toNat + 8 + 4 * i)) = (saved c number err)[i] := by
    intro i hi
    have hat := h.pushed.stack.holds (i + 2) (Nat.succ_lt_succ (Nat.succ_lt_succ hi))
    have haddr : (s.reg .esp).toNat + 8 + 4 * i = (s.reg .esp).toNat + 4 * (i + 2) := by omega
    rw [haddr, hat]
    exact UInt32.ofNat_toNat
  have hargument : load32 s.mem ((s.reg .esp).toNat + 4) = (s.reg .esp).toNat + 8 := by
    have hat := h.pushed.stack.holds 1 (Nat.succ_lt_succ (Nat.succ_pos _))
    rw [Nat.mul_one] at hat
    rw [hat]
    show (s.reg .esp + 8).toNat = _
    rw [UInt32.toNat_add]
    exact Nat.mod_eq_of_lt (by
      rw [show (8 : UInt32).toNat = 8 from rfl]
      omega)
  have habove : ∀ i, load32 s.mem ((s.reg .esp).toNat + 8 + 4 * (17 + i)) =
      load32 c.state.mem ((c.state.reg .esp).toNat + 4 * i) := by
    intro i
    have haddr : (s.reg .esp).toNat + 8 + 4 * (17 + i) = (c.state.reg .esp).toNat + 4 * i := by
      omega
    rw [haddr]
    exact load32_congr fun x _ _ => h.pushed.frame x (by omega)
  have hret := h.pushed.stack.holds 0 (Nat.succ_pos _)
  refine ⟨hret, ?_⟩
  have husersp : load32 s.mem ((s.reg .esp).toNat + 8 + 4 * 17) =
      load32 c.state.mem (c.state.reg .esp).toNat := habove 0
  have hss : load32 s.mem ((s.reg .esp).toNat + 8 + 4 * 18) =
      load32 c.state.mem ((c.state.reg .esp).toNat + 4) := habove 1
  rw [hargument, regsAt, regsOf]
  simp (disch := decide) only [hword, husersp, hss]
  rfl

end Called

structure Kernel where
  fetch : Fetch
  isr : ℕ → UInt32
  irq : ℕ → UInt32
  faultHandler : UInt32
  irqHandler : UInt32
  idtp : ℕ
  idt : ℕ
  isrLinked : ∀ n < 32, Linked fetch (isr n) (hasCode n) (UInt32.ofNat n) faultHandler
  irqLinked : ∀ n < 16, Linked fetch (irq n) false (UInt32.ofNat (32 + n)) irqHandler
  disjoint : idtp + 6 ≤ idt ∨ idt + 2048 ≤ idtp
  fits : idt + 2048 ≤ 4294967296

/-- The interrupt table is loaded and still as it was installed. -/
structure Kernel.Installed (K : Kernel) (m : Mem) (c : Cpu) : Prop where
  idtr : c.state.idtr = tableAt (interruptTables K.idtp K.idt K.isr K.irq m) K.idtp
  table : ∀ x, K.idt ≤ x → x < K.idt + 2048 →
    c.state.mem x = interruptTables K.idtp K.idt K.isr K.irq m x

/-- The exceptions for which the processor pushes a code, of those that there are stubs for. -/
def Pushes (vector : ℕ) (code : Option UInt32) : Prop :=
  code.isSome = (decide (vector < 32) && hasCode vector)

section Dispatch

variable (K : Kernel) {m : Mem} {c : Cpu} {vector : ℕ} {code : Option UInt32}

/-- Every exception and every interrupt gets to its handler, with its number and the registers of
the code that it came in, and when the handler returns that code goes on as it was. -/
theorem interrupt_dispatched (hc : K.Installed m c) (hvector : vector < 48)
    (hcode : Pushes vector code) (hroom : 76 ≤ (c.state.reg .esp).toNat) :
    ∃ c₀ s ret, accept vector code c = some c₀ ∧
      Reaches K.fetch c₀ ⟨s, if vector < 32 then K.faultHandler else K.irqHandler⟩ ∧
      load32 s.mem (s.reg .esp).toNat = ret.toNat ∧
      regsAt s.mem (load32 s.mem ((s.reg .esp).toNat + 4)) =
        regsOf c (UInt32.ofNat vector) (code.getD 0) ∧
      (∀ x, (c.state.reg .esp).toNat ≤ x ∨ x < (s.reg .esp).toNat → s.mem x = c.state.mem x) ∧
      ∀ s', Returns (c.state.reg .esp).toNat s s' →
        Reaches K.fetch ⟨s', ret⟩ ⟨{ c.state with mem := s'.mem }, c.eip⟩ := by
  have hidtr : c.state.idtr = ⟨2047, K.idt⟩ :=
    hc.idtr.trans (installed_idtr K.disjoint K.fits)
  have hgate : gateAt c.state.mem (K.idt + 8 * vector) =
      ⟨(if vector < 32 then K.isr vector else K.irq (vector - 32)).toNat, 0x08, 0x8E⟩ := by
    rw [gateAt_congr fun x _ _ => hc.table x (by omega) (by omega),
      installed_gates K.fits (by omega)]
    split_ifs <;> rfl
  obtain ⟨c₀, hacc, heip⟩ : ∃ c₀, accept vector code c = some c₀ ∧
      c₀.eip = if vector < 32 then K.isr vector else K.irq (vector - 32) := by
    obtain ⟨c₀, hacc, heip⟩ := accept_gate (c := c) (by rw [hidtr, hgate]) (by
      rw [hidtr]
      show 8 * vector + 7 ≤ 2047
      omega) code
    rw [hidtr, hgate, UInt32.ofNat_toNat] at heip
    exact ⟨c₀, hacc, heip⟩
  have hlink : Linked K.fetch c₀.eip code.isSome (UInt32.ofNat vector)
      (if vector < 32 then K.faultHandler else K.irqHandler) := by
    rw [heip, hcode]
    by_cases h32 : vector < 32
    · simp only [if_pos h32, decide_eq_true h32, Bool.true_and]
      exact K.isrLinked vector h32
    · have hirq := K.irqLinked (vector - 32) (by omega)
      rw [show 32 + (vector - 32) = vector by omega] at hirq
      simp only [if_neg h32, decide_eq_false h32, Bool.false_and]
      exact hirq
  obtain ⟨s, ret, hrun, hcalled, hresume⟩ := interrupt_resumes hlink hacc hroom
  obtain ⟨hret, hregs⟩ := called_regs hcalled
  exact ⟨c₀, s, ret, hacc, hrun, hret, hregs, fun x hx => hcalled.pushed.frame x hx.symm, hresume⟩

end Dispatch

def routine (n : ℕ) : List Instr :=
  if n < 32 then (isr n).map .op ++ [.jmp 384] else (irq (n - 32)).map .op ++ [.jmp 448]

def fetchByte : Fetch := fun a =>
  let k := a.toNat
  let line : Option Instr :=
    if k < 384 then (routine (k / 8))[k % 8]?
    else if k < 448 then (commonStub 0x1000)[k - 384]?
    else (commonStub 0x2000)[k - 448]?
  line.map (·, UInt32.ofNat (k + 1))

theorem routine_length (n : ℕ) : (routine n).length ≤ 4 := by
  unfold routine isr irq stub
  split_ifs <;> simp

theorem code_routine {n : ℕ} (hn : n < 48) :
    ∃ b, Code fetchByte (UInt32.ofNat (8 * n)) (routine n) b := by
  refine ⟨_, code_bytes fun i hi => ?_⟩
  have hlen := routine_length n
  have hk : (UInt32.ofNat (8 * n + i)).toNat = 8 * n + i :=
    UInt32.toNat_ofNat_of_lt' (by show _ < 4294967296; omega)
  have hdiv : (8 * n + i) / 8 = n := by omega
  have hmod : (8 * n + i) % 8 = i := by omega
  simp only [fetchByte, hk, hdiv, hmod, if_pos (by omega : 8 * n + i < 384),
    List.getElem?_eq_getElem hi]
  rfl

theorem code_common {start : ℕ} {handler : UInt32}
    (h : start = 384 ∧ handler = 0x1000 ∨ start = 448 ∧ handler = 0x2000) :
    ∃ b, Code fetchByte (UInt32.ofNat start) (commonStub handler) b := by
  refine ⟨_, code_bytes fun i hi => ?_⟩
  have hlen : (commonStub handler).length = 22 := rfl
  have hk : (UInt32.ofNat (start + i)).toNat = start + i :=
    UInt32.toNat_ofNat_of_lt' (by show _ < 4294967296; omega)
  have hsub : start + i - start = i := Nat.add_sub_cancel_left start i
  obtain ⟨rfl, rfl⟩ | ⟨rfl, rfl⟩ := h
  · simp only [fetchByte, hk, hsub, if_neg (by omega : ¬384 + i < 384),
      if_pos (by omega : 384 + i < 448), List.getElem?_eq_getElem hi]
    rfl
  · simp only [fetchByte, hk, hsub, if_neg (by omega : ¬448 + i < 384),
      if_neg (by omega : ¬448 + i < 448), List.getElem?_eq_getElem hi]
    rfl

def byteKernel : Kernel where
  fetch := fetchByte
  isr n := UInt32.ofNat (8 * n)
  irq n := UInt32.ofNat (8 * (32 + n))
  faultHandler := 0x1000
  irqHandler := 0x2000
  idtp := 0x10000
  idt := 0x11000
  isrLinked n hn := by
    obtain ⟨b, hb⟩ := code_routine (n := n) (by omega)
    obtain ⟨b', hb'⟩ := code_common (.inl ⟨rfl, rfl⟩)
    rw [routine, if_pos hn] at hb
    exact ⟨_, b, b', hb, hb'⟩
  irqLinked n hn := by
    obtain ⟨b, hb⟩ := code_routine (n := 32 + n) (by omega)
    obtain ⟨b', hb'⟩ := code_common (.inr ⟨rfl, rfl⟩)
    rw [routine, if_neg (by omega), Nat.add_sub_cancel_left] at hb
    exact ⟨_, b, b', hb, hb'⟩
  disjoint := .inl (by decide)
  fits := by decide

def running : Cpu where
  state :=
    { reg := fun _ => 0x20000, seg := fun _ => 0x10, eflags := 0x202, gdtr := ⟨0, 0⟩,
      idtr := tableAt (interruptTables 0x10000 0x11000 byteKernel.isr byteKernel.irq fun _ => 0)
        0x10000,
      mem := interruptTables 0x10000 0x11000 byteKernel.isr byteKernel.irq fun _ => 0 }
  eip := 0x5000

theorem keyboard_dispatched : ∃ c₀ s ret, accept 33 none running = some c₀ ∧
    Reaches byteKernel.fetch c₀ ⟨s, if 33 < 32 then 0x1000 else 0x2000⟩ ∧
    load32 s.mem (s.reg .esp).toNat = ret.toNat ∧
    regsAt s.mem (load32 s.mem ((s.reg .esp).toNat + 4)) = regsOf running 33 0 ∧
    (∀ x, (running.state.reg .esp).toNat ≤ x ∨ x < (s.reg .esp).toNat →
      s.mem x = running.state.mem x) ∧
    ∀ s', Returns (running.state.reg .esp).toNat s s' →
      Reaches byteKernel.fetch ⟨s', ret⟩ ⟨{ running.state with mem := s'.mem }, running.eip⟩ :=
  interrupt_dispatched byteKernel (m := fun _ => 0) ⟨rfl, fun _ _ _ => rfl⟩ (by decide) rfl
    (by decide)

end Jiauliyan.InterruptDispatch
