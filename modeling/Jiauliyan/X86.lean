import Jiauliyan.Memory
import Mathlib.Logic.Function.Basic
import Mathlib.Logic.Relation

namespace Jiauliyan.X86

open Jiauliyan.Memory

inductive Reg
  | eax | ecx | edx | ebx | esp | ebp | esi | edi
  deriving DecidableEq

inductive Seg
  | cs | ds | es | fs | gs | ss
  deriving DecidableEq

structure TableReg where
  limit : ℕ
  base : ℕ

/-- Everything but the place of the next instruction. Addresses are linear ones: all segments
begin at 0. -/
@[ext]
structure State where
  reg : Reg → UInt32
  seg : Seg → UInt16
  eflags : UInt32
  gdtr : TableReg
  idtr : TableReg
  mem : Mem

structure Cpu where
  state : State
  eip : UInt32

def IF : UInt32 := 0x200

/-- `TF`, `IF`, `NT`, `RF` and `VM`, which an interrupt clears. -/
def cleared : UInt32 := 0x34300

namespace State

def setReg (s : State) (r : Reg) (v : UInt32) : State := { s with reg := Function.update s.reg r v }

def setSeg (s : State) (r : Seg) (v : UInt16) : State := { s with seg := Function.update s.seg r v }

def top (s : State) : UInt32 := UInt32.ofNat (load32 s.mem (s.reg .esp).toNat)

def push (s : State) (v : UInt32) : State :=
  let esp := s.reg .esp - 4
  { s.setReg .esp esp with mem := store32 s.mem esp.toNat v.toNat }

def drop (s : State) (n : UInt32) : State := s.setReg .esp (s.reg .esp + n)

@[simp]
theorem setReg_reg (s : State) (r r' : Reg) (v : UInt32) :
    (s.setReg r v).reg r' = if r' = r then v else s.reg r' := Function.update_apply ..

@[simp]
theorem setReg_seg (s : State) (r : Reg) (v : UInt32) : (s.setReg r v).seg = s.seg := rfl

@[simp]
theorem setSeg_reg (s : State) (r : Seg) (v : UInt16) : (s.setSeg r v).reg = s.reg := rfl

@[simp]
theorem setSeg_seg (s : State) (r r' : Seg) (v : UInt16) :
    (s.setSeg r v).seg r' = if r' = r then v else s.seg r' := Function.update_apply ..

@[simp]
theorem drop_reg (s : State) (n : UInt32) (r : Reg) :
    (s.drop n).reg r = if r = .esp then s.reg .esp + n else s.reg r := Function.update_apply ..

@[simp]
theorem drop_seg (s : State) (n : UInt32) : (s.drop n).seg = s.seg := rfl

def pushAll (s : State) (vs : List UInt32) : State := vs.foldl push s

def popReg (s : State) (r : Reg) : State := (s.drop 4).setReg r s.top

def popSeg (s : State) (r : Seg) : State := (s.drop 4).setSeg r s.top.toUInt16

def general (s : State) : List UInt32 :=
  [s.reg .eax, s.reg .ecx, s.reg .edx, s.reg .ebx, s.reg .esp, s.reg .ebp, s.reg .esi, s.reg .edi]

end State

/-- The instructions behind which the next one follows. -/
inductive Op
  | cli
  | sti
  | pushByte (v : UInt32)
  | push (r : Reg)
  | pushSeg (s : Seg)
  | pop (r : Reg)
  | popSeg (s : Seg)
  | pusha
  | popa
  | movImm (r : Reg) (v : UInt32)
  | movAx (v : UInt16)
  | movSeg (s : Seg)
  | mov (dst src : Reg)
  | load (dst base : Reg) (disp : UInt32)
  | store (base : Reg) (disp : UInt32) (src : Reg)
  | xor (dst src : Reg)
  | add (r : Reg) (v : UInt32)
  | lgdt (address : ℕ)
  | lidt (address : ℕ)

inductive Instr
  | op (o : Op)
  | jmp (target : UInt32)
  | farJmp (selector : UInt16) (target : UInt32)
  | call (target : UInt32)
  | callReg (r : Reg)
  | ret
  | iret

def tableAt (m : Mem) (a : ℕ) : TableReg := ⟨load16 m a, load32 m (a + 2)⟩

def Op.run (s : State) : Op → State
  | .cli => { s with eflags := s.eflags &&& ~~~IF }
  | .sti => { s with eflags := s.eflags ||| IF }
  | .pushByte v => s.push v
  | .push r => s.push (s.reg r)
  | .pushSeg r => s.push (s.seg r).toUInt32
  | .pop r => s.popReg r
  | .popSeg r => s.popSeg r
  | .pusha => s.pushAll s.general
  | .popa =>
    let s := ((s.popReg .edi).popReg .esi).popReg .ebp
    -- the saved `esp` is skipped
    let s := s.drop 4
    (((s.popReg .ebx).popReg .edx).popReg .ecx).popReg .eax
  | .movImm r v => s.setReg r v
  | .movAx v => s.setReg .eax ((s.reg .eax &&& 0xffff0000) ||| v.toUInt32)
  | .movSeg r => s.setSeg r (s.reg .eax).toUInt16
  | .mov dst src => s.setReg dst (s.reg src)
  | .load dst base disp => s.setReg dst (UInt32.ofNat (load32 s.mem (s.reg base + disp).toNat))
  | .store base disp src =>
    { s with mem := store32 s.mem (s.reg base + disp).toNat (s.reg src).toNat }
  | .xor dst src => s.setReg dst (s.reg dst ^^^ s.reg src)
  | .add r v => s.setReg r (s.reg r + v)
  | .lgdt a => { s with gdtr := tableAt s.mem a }
  | .lidt a => { s with idtr := tableAt s.mem a }

/-- What an instruction does where the next one is at `next`. -/
def exec (next : UInt32) (s : State) : Instr → Cpu
  | .op o => ⟨o.run s, next⟩
  | .jmp target => ⟨s, target⟩
  | .farJmp selector target => ⟨s.setSeg .cs selector, target⟩
  | .call target => ⟨s.push next, target⟩
  | .callReg r => ⟨s.push next, s.reg r⟩
  | .ret => ⟨s.drop 4, s.top⟩
  | .iret =>
    let s₁ := s.drop 4
    let s₂ := s₁.popSeg .cs
    ⟨{ s₂.drop 4 with eflags := s₂.top }, s.top⟩

/-- The instruction at an address, with the address of the next one. -/
abbrev Fetch := UInt32 → Option (Instr × UInt32)

def step (fetch : Fetch) (c : Cpu) : Option Cpu :=
  (fetch c.eip).map fun i => exec i.2 c.state i.1

def Reaches (fetch : Fetch) : Cpu → Cpu → Prop :=
  Relation.ReflTransGen fun c c' => step fetch c = some c'

/-- The instructions that follow each other from an address on, up to another one. -/
inductive Code (fetch : Fetch) : UInt32 → List Instr → UInt32 → Prop
  | nil (a : UInt32) : Code fetch a [] a
  | cons {a next b : UInt32} {i : Instr} {is : List Instr} (first : fetch a = some (i, next))
    (more : Code fetch next is b) : Code fetch a (i :: is) b

structure Gate where
  offset : ℕ
  selector : ℕ
  flags : ℕ

def gateAt (m : Mem) (a : ℕ) : Gate where
  offset := load16 m a + 65536 * load16 m (a + 6)
  selector := load16 m (a + 2)
  flags := (m (a + 5)).toNat

/-- What the processor pushes: the place that was interrupted, and for some exceptions a code. -/
def Cpu.frame (c : Cpu) (code : Option UInt32) : List UInt32 :=
  [c.state.eflags, (c.state.seg .cs).toUInt32, c.eip] ++ code.toList

/-- The processor accepts an interrupt, or an exception with its code, if there is a gate for it:
one that is present, for 32-bit interrupts. -/
def accept (vector : ℕ) (code : Option UInt32) (c : Cpu) : Option Cpu :=
  let s := c.state
  let g := gateAt s.mem (s.idtr.base + 8 * vector)
  if g.flags = 0x8E ∧ 8 * vector + 7 ≤ s.idtr.limit then
    some ⟨{ (s.pushAll (c.frame code)).setSeg .cs (UInt16.ofNat g.selector) with
      eflags := s.eflags &&& ~~~cleared }, UInt32.ofNat g.offset⟩
  else none

theorem accept_gate {c : Cpu} {vector : ℕ}
    (hgate : (gateAt c.state.mem (c.state.idtr.base + 8 * vector)).flags = 0x8E)
    (hlimit : 8 * vector + 7 ≤ c.state.idtr.limit) (code : Option UInt32) :
    ∃ c₀, accept vector code c = some c₀ ∧
      c₀.eip = UInt32.ofNat (gateAt c.state.mem (c.state.idtr.base + 8 * vector)).offset :=
  ⟨_, if_pos ⟨hgate, hlimit⟩, rfl⟩

variable {fetch : Fetch} {s s' : State} {a b : UInt32}

theorem Reaches.trans {c₁ c₂ c₃ : Cpu} (h : Reaches fetch c₁ c₂) (h' : Reaches fetch c₂ c₃) :
    Reaches fetch c₁ c₃ := Relation.ReflTransGen.trans h h'

theorem Reaches.refl' {c c' : Cpu} (h : c = c') : Reaches fetch c c' := h ▸ .refl

theorem Reaches.first {i : Instr} {next : UInt32} {c : Cpu} (h : fetch a = some (i, next))
    (hc : Reaches fetch (exec next s i) c) : Reaches fetch ⟨s, a⟩ c :=
  .head (by rw [step, h]; rfl) hc

theorem Code.ops {os : List Op} {is : List Instr} (h : Code fetch a (os.map .op ++ is) b) :
    ∃ next, Code fetch next is b ∧ Reaches fetch ⟨s, a⟩ ⟨os.foldl Op.run s, next⟩ := by
  induction os generalizing a s with
  | nil => exact ⟨a, h, .refl⟩
  | cons o os ih =>
    rw [List.map_cons, List.cons_append] at h
    cases h with
    | cons first more =>
      obtain ⟨next, hcode, hrun⟩ := ih more
      exact ⟨next, hcode, .first first hrun⟩

theorem code_bytes {start : ℕ} {is : List Instr}
    (h : ∀ i (hi : i < is.length), fetch (UInt32.ofNat (start + i)) =
      some (is[i], UInt32.ofNat (start + (i + 1)))) :
    Code fetch (UInt32.ofNat start) is (UInt32.ofNat (start + is.length)) := by
  induction is generalizing start with
  | nil => exact .nil _
  | cons i is ih =>
    have hrest : Code fetch (UInt32.ofNat (start + 1)) is
        (UInt32.ofNat (start + 1 + is.length)) := by
      refine ih fun j hj => ?_
      have hj' := h (j + 1) (Nat.succ_lt_succ hj)
      rw [show start + (j + 1) = start + 1 + j by omega,
        show start + (j + 1 + 1) = start + 1 + (j + 1) by omega] at hj'
      exact hj'
    rw [show start + 1 + is.length = start + (is.length + 1) by omega] at hrest
    exact .cons (h 0 (Nat.succ_pos _)) hrest

/-- Code from address 0 on whose instructions are one byte long. -/
def byteImage (image : List Instr) : Fetch :=
  fun a => (image[a.toNat]?).map (·, UInt32.ofNat (a.toNat + 1))

theorem byteImage_code (start : ℕ) {image is : List Instr} (h : is <+: image.drop start)
    (hlen : start + is.length ≤ 4294967296) :
    Code (byteImage image) (UInt32.ofNat start) is (UInt32.ofNat (start + is.length)) := by
  obtain ⟨rest, hrest⟩ := h
  refine code_bytes fun i hi => ?_
  have hk : (UInt32.ofNat (start + i)).toNat = start + i :=
    UInt32.toNat_ofNat_of_lt' (by show _ < 4294967296; omega)
  have hat : image[start + i]? = some is[i] := by
    rw [← List.getElem?_drop, ← hrest, List.getElem?_append_left hi, List.getElem?_eq_getElem hi]
  rw [byteImage, hk, hat]
  rfl

/-- The words on top of the stack, the last one that was pushed first. -/
structure State.Stack (s : State) (ws : List UInt32) : Prop where
  holds : ∀ i (hi : i < ws.length), load32 s.mem ((s.reg .esp).toNat + 4 * i) = (ws[i]).toNat
  room : (s.reg .esp).toNat + 4 * ws.length < 4294967296

variable {ws : List UInt32} {w : UInt32}

theorem State.Stack.nil (s : State) : s.Stack [] :=
  ⟨fun i hi => absurd hi (Nat.not_lt_zero i), (s.reg .esp).toNat_lt⟩

theorem State.Stack.congr (h : s.Stack ws) (hesp : s'.reg .esp = s.reg .esp)
    (hmem : s'.mem = s.mem) : s'.Stack ws := by
  refine ⟨fun i hi => ?_, ?_⟩
  · rw [hesp, hmem]
    exact h.holds i hi
  · rw [hesp]
    exact h.room

theorem esp_sub {esp : UInt32} (h : 4 ≤ esp.toNat) : (esp - 4).toNat = esp.toNat - 4 := by
  have hle : (4 : UInt32) ≤ esp := h
  rw [UInt32.toNat_sub_of_le _ _ hle]
  rfl

theorem State.Stack.push (h : s.Stack ws) (hroom : 4 ≤ (s.reg .esp).toNat) (v : UInt32) :
    (s.push v).Stack (v :: ws) := by
  have hesp : ((s.push v).reg .esp).toNat = (s.reg .esp).toNat - 4 := esp_sub hroom
  have hmem : (s.push v).mem = store32 s.mem ((s.reg .esp).toNat - 4) v.toNat := by
    rw [← esp_sub hroom]
    rfl
  refine ⟨fun i hi => ?_, ?_⟩
  · rw [hesp, hmem]
    cases i with
    | zero =>
      rw [Nat.mul_zero, Nat.add_zero, load32_store32]
      exact u32_eq v.toNat_lt
    | succ i =>
      have hat := h.holds i (Nat.lt_of_succ_lt_succ hi)
      rw [load32_store32_frame _ _ (by omega)]
      have haddr : (s.reg .esp).toNat - 4 + 4 * (i + 1) = (s.reg .esp).toNat + 4 * i := by omega
      rw [haddr, hat]
      rfl
  · have := h.room
    rw [hesp, List.length_cons]
    omega

theorem State.Stack.top (h : s.Stack (w :: ws)) : s.top = w := by
  have hw := h.holds 0 (Nat.succ_pos _)
  rw [Nat.mul_zero, Nat.add_zero] at hw
  rw [State.top, hw]
  exact UInt32.ofNat_toNat

theorem State.Stack.drop (h : s.Stack (w :: ws)) : (s.drop 4).Stack ws := by
  have hroom := h.room
  rw [List.length_cons] at hroom
  have hesp : ((s.drop 4).reg .esp).toNat = (s.reg .esp).toNat + 4 := by
    show (s.reg .esp + 4).toNat = _
    rw [UInt32.toNat_add]
    exact Nat.mod_eq_of_lt (by show (s.reg .esp).toNat + 4 < _; omega)
  refine ⟨fun i hi => ?_, ?_⟩
  · have hat := h.holds (i + 1) (Nat.succ_lt_succ hi)
    have haddr : (s.reg .esp).toNat + 4 + 4 * i = (s.reg .esp).toNat + 4 * (i + 1) := by omega
    rw [hesp, haddr]
    exact hat
  · rw [hesp]
    omega

theorem State.Stack.popSeg (h : s.Stack (w :: ws)) (r : Seg) :
    s.popSeg r = (s.drop 4).setSeg r w.toUInt16 ∧ ((s.drop 4).setSeg r w.toUInt16).Stack ws := by
  refine ⟨?_, h.drop.congr rfl rfl⟩
  rw [State.popSeg, h.top]

theorem State.Stack.popReg (h : s.Stack (w :: ws)) {r : Reg} (hr : r ≠ .esp) :
    s.popReg r = (s.drop 4).setReg r w ∧ ((s.drop 4).setReg r w).Stack ws := by
  refine ⟨?_, h.drop.congr (Function.update_of_ne hr.symm _ _) rfl⟩
  rw [State.popReg, h.top]

theorem State.Stack.skip {v : UInt32} (h : s.Stack (v :: w :: ws)) : (s.drop 8).Stack ws := by
  have hesp : s.reg .esp + 8 = s.reg .esp + 4 + 4 := by grind
  exact h.drop.drop.congr hesp rfl

/-- A state with some more words on its stack, the last one that was pushed first. -/
structure Pushed (s : State) (ws : List UInt32) (s' : State) : Prop where
  stack : s'.Stack ws
  esp : (s'.reg .esp).toNat + 4 * ws.length = (s.reg .esp).toNat
  frame : ∀ x, x < (s'.reg .esp).toNat ∨ (s.reg .esp).toNat ≤ x → s'.mem x = s.mem x

theorem Pushed.nil (s : State) : Pushed s [] s := ⟨.nil s, rfl, fun _ _ => rfl⟩

theorem Pushed.congr {s'' : State} (h : Pushed s ws s') (hesp : s''.reg .esp = s'.reg .esp)
    (hmem : s''.mem = s'.mem) : Pushed s ws s'' := by
  refine ⟨h.stack.congr hesp hmem, ?_, ?_⟩
  · rw [hesp]
    exact h.esp
  · rw [hesp, hmem]
    exact h.frame

theorem Pushed.push (h : Pushed s ws s') (v : UInt32)
    (hroom : 4 * (ws.length + 1) ≤ (s.reg .esp).toNat) : Pushed s (v :: ws) (s'.push v) := by
  have hold := h.esp
  have hfour : 4 ≤ (s'.reg .esp).toNat := by omega
  have hesp : ((s'.push v).reg .esp).toNat = (s'.reg .esp).toNat - 4 := esp_sub hfour
  refine ⟨h.stack.push hfour v, ?_, fun x hx => ?_⟩
  · rw [hesp, List.length_cons]
    omega
  · have hmem : (s'.push v).mem = store32 s'.mem ((s'.push v).reg .esp).toNat v.toNat := rfl
    rw [hmem, store32_frame _ _ (by omega), h.frame x (by omega)]

theorem Pushed.pushAll (h : Pushed s ws s') (vs : List UInt32)
    (hroom : 4 * (ws.length + vs.length) ≤ (s.reg .esp).toNat) :
    Pushed s (vs.reverse ++ ws) (s'.pushAll vs) := by
  induction vs generalizing s' ws with
  | nil => exact h
  | cons v vs ih =>
    rw [List.length_cons] at hroom
    rw [List.reverse_cons, List.append_assoc, List.singleton_append]
    refine ih (h.push v (by omega)) ?_
    rw [List.length_cons]
    omega

end Jiauliyan.X86
