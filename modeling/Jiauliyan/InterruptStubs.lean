import Jiauliyan.X86
import Mathlib.Tactic.SplitIfs

namespace Jiauliyan.InterruptStubs

open Jiauliyan.Memory Jiauliyan.X86

/-- A routine of the table, which brings the frame into one form: a zero where the processor has
pushed no code, and the number. -/
def stub (code : Bool) (number : UInt32) : List Op :=
  .cli :: ((if code then [] else [.pushByte 0]) ++ [.pushByte number])

/-- The exceptions for which the stubs expect a code from the processor. -/
def hasCode (n : ℕ) : Bool := n == 8 || (10 ≤ n && n ≤ 14)

/-- `isr0` to `isr31` -/
def isr (n : ℕ) : List Op := stub (hasCode n) (UInt32.ofNat n)

def irq (n : ℕ) : List Op := stub false (UInt32.ofNat (32 + n))

def commonSaves (handler : UInt32) : List Op :=
  [.pusha, .pushSeg .ds, .pushSeg .es, .pushSeg .fs, .pushSeg .gs, .movAx 0x10, .movSeg .ds,
    .movSeg .es, .movSeg .fs, .movSeg .gs, .mov .eax .esp, .push .eax, .movImm .eax handler]

def commonRestores : List Op :=
  [.pop .eax, .popSeg .gs, .popSeg .fs, .popSeg .es, .popSeg .ds, .popa, .add .esp 8]

def commonStub (handler : UInt32) : List Instr :=
  (commonSaves handler).map .op ++ (.callReg .eax :: (commonRestores.map .op ++ [.iret]))

structure Regs where
  gs : UInt32
  fs : UInt32
  es : UInt32
  ds : UInt32
  edi : UInt32
  esi : UInt32
  ebp : UInt32
  esp : UInt32
  ebx : UInt32
  edx : UInt32
  ecx : UInt32
  eax : UInt32
  int_no : UInt32
  err_code : UInt32
  eip : UInt32
  cs : UInt32
  eflags : UInt32
  useresp : UInt32
  ss : UInt32

/-- The structure at an address. -/
def regsAt (m : Mem) (r : ℕ) : Regs :=
  let word (i : ℕ) : UInt32 := UInt32.ofNat (load32 m (r + 4 * i))
  ⟨word 0, word 1, word 2, word 3, word 4, word 5, word 6, word 7, word 8, word 9, word 10,
    word 11, word 12, word 13, word 14, word 15, word 16, word 17, word 18⟩

/-- What the stubs leave on the stack, from the top on. -/
def saved (c : Cpu) (number err : UInt32) : List UInt32 :=
  let s := c.state
  [(s.seg .gs).toUInt32, (s.seg .fs).toUInt32, (s.seg .es).toUInt32, (s.seg .ds).toUInt32,
    s.reg .edi, s.reg .esi, s.reg .ebp, s.reg .esp - 20, s.reg .ebx, s.reg .edx, s.reg .ecx,
    s.reg .eax, number, err, c.eip, (s.seg .cs).toUInt32, s.eflags]

/-- A C function that returns leaves the stack of its callers alone, up to a limit, and the
argument that was pushed for it below them. -/
structure Returns (limit : ℕ) (s s' : State) : Prop where
  esp : s'.reg .esp = s.reg .esp + 4
  callers : ∀ x, (s.reg .esp).toNat + 8 ≤ x → x < limit → s'.mem x = s.mem x
  ss : s'.seg .ss = s.seg .ss
  gdtr : s'.gdtr = s.gdtr
  idtr : s'.idtr = s.idtr

section Run

variable {fetch : Fetch} {c c₀ : Cpu} {vector : ℕ} {code : Option UInt32} {number handler : UInt32}

structure Entered (c : Cpu) (number err : UInt32) (s : State) : Prop where
  pushed : Pushed c.state [number, err, c.eip, (c.state.seg .cs).toUInt32, c.state.eflags] s
  reg : ∀ r, r ≠ .esp → s.reg r = c.state.reg r
  seg : ∀ r, r ≠ .cs → s.seg r = c.state.seg r
  eflags : s.eflags = c.state.eflags &&& ~~~cleared &&& ~~~IF
  gdtr : s.gdtr = c.state.gdtr
  idtr : s.idtr = c.state.idtr

theorem stub_entered (hacc : accept vector code c = some c₀)
    (hroom : 20 ≤ (c.state.reg .esp).toNat) :
    Entered c number (code.getD 0) ((stub code.isSome number).foldl Op.run c₀.state) := by
  have h12 : 12 ≤ (c.state.reg .esp).toNat := by omega
  have h16 : 16 ≤ (c.state.reg .esp).toNat := by omega
  rw [accept] at hacc
  split_ifs at hacc
  cases hacc
  cases code with
  | none =>
    have h := ((Pushed.nil c.state).pushAll (c.frame none) h12).push 0 h16
    refine ⟨(h.push number hroom).congr rfl rfl, fun r hr => ?_, fun r hr => ?_, rfl, rfl, rfl⟩
    · cases r <;> first | rfl | exact absurd rfl hr
    · cases r <;> first | rfl | exact absurd rfl hr
  | some e =>
    have h := (Pushed.nil c.state).pushAll (c.frame (some e)) h16
    refine ⟨(h.push number hroom).congr rfl rfl, fun r hr => ?_, fun r hr => ?_, rfl, rfl, rfl⟩
    · cases r <;> first | rfl | exact absurd rfl hr
    · cases r <;> first | rfl | exact absurd rfl hr

structure Called (c : Cpu) (number err ret : UInt32) (s : State) : Prop where
  pushed : Pushed c.state (ret :: (s.reg .esp + 8) :: saved c number err) s
  ss : s.seg .ss = c.state.seg .ss
  data : ∀ r, r = .ds ∨ r = .es ∨ r = .fs ∨ r = .gs → s.seg r = 0x10
  eflags : s.eflags = c.state.eflags &&& ~~~cleared &&& ~~~IF
  gdtr : s.gdtr = c.state.gdtr
  idtr : s.idtr = c.state.idtr

theorem low_half (v : UInt32) :
    ((v &&& 0xffff0000) ||| (0x10 : UInt16).toUInt32).toUInt16 = 0x10 := by
  apply UInt16.toNat_inj.mp
  have hlow : (v.toNat &&& 0xffff0000) % 2 ^ 16 = 0 := by
    rw [Nat.and_mod_two_pow]
    exact Nat.and_zero _
  show (((v &&& 0xffff0000) ||| (0x10 : UInt16).toUInt32).toNat) % 2 ^ 16 = 16
  rw [UInt32.toNat_or, UInt32.toNat_and, Nat.or_mod_two_pow]
  show ((v.toNat &&& 0xffff0000) % 2 ^ 16 ||| 16) = 16
  rw [hlow, Nat.zero_or]

theorem two_words (esp : UInt32) : esp - 4 - 4 + 8 = esp := by grind

def allSaved (s : State) : State :=
  ((((s.pushAll s.general).push (s.seg .ds).toUInt32).push (s.seg .es).toUInt32).push
    (s.seg .fs).toUInt32).push (s.seg .gs).toUInt32

theorem allSaved_pushed {s : State} {err : UInt32} (h : Entered c number err s)
    (hroom : 68 ≤ (c.state.reg .esp).toNat) :
    Pushed c.state (saved c number err) (allSaved s) := by
  have h52 : 52 ≤ (c.state.reg .esp).toNat := by omega
  have h56 : 56 ≤ (c.state.reg .esp).toNat := by omega
  have h60 : 60 ≤ (c.state.reg .esp).toNat := by omega
  have h64 : 64 ≤ (c.state.reg .esp).toNat := by omega
  have hesp : s.reg .esp = c.state.reg .esp - 20 := by
    have hold := h.pushed.esp
    have hle : (20 : UInt32) ≤ c.state.reg .esp := UInt32.le_iff_toNat_le.mpr (by
      show 20 ≤ _
      omega)
    apply UInt32.toNat_inj.mp
    rw [UInt32.toNat_sub_of_le _ _ hle]
    exact Nat.eq_sub_of_add_eq hold
  have hregs : s.general.reverse = [c.state.reg .edi, c.state.reg .esi, c.state.reg .ebp,
      c.state.reg .esp - 20, c.state.reg .ebx, c.state.reg .edx, c.state.reg .ecx,
      c.state.reg .eax] := by
    simp [State.general, hesp, h.reg]
  have hsaved : Pushed c.state ((s.seg .gs).toUInt32 :: (s.seg .fs).toUInt32 ::
      (s.seg .es).toUInt32 :: (s.seg .ds).toUInt32 :: (s.general.reverse ++ [number, err, c.eip,
        (c.state.seg .cs).toUInt32, c.state.eflags])) (allSaved s) :=
    ((((h.pushed.pushAll s.general h52).push (s.seg .ds).toUInt32 h56).push
      (s.seg .es).toUInt32 h60).push (s.seg .fs).toUInt32 h64).push (s.seg .gs).toUInt32 hroom
  rw [hregs, h.seg .gs (by decide), h.seg .fs (by decide), h.seg .es (by decide),
    h.seg .ds (by decide)] at hsaved
  exact hsaved

theorem saves_called {s : State} {err : UInt32} (h : Entered c number err s)
    (hroom : 76 ≤ (c.state.reg .esp).toNat) (ret : UInt32) :
    (((commonSaves handler).foldl Op.run s).reg .eax = handler) ∧
      Called c number err ret (((commonSaves handler).foldl Op.run s).push ret) := by
  have h68 : 68 ≤ (c.state.reg .esp).toNat := by omega
  have h72 : 72 ≤ (c.state.reg .esp).toNat := by omega
  refine ⟨rfl, ?_, h.seg .ss (by decide), ?_, h.eflags, h.gdtr, h.idtr⟩
  · have hframe := ((allSaved_pushed h h68).push ((allSaved s).reg .esp) h72).push ret hroom
    have hback : (((commonSaves handler).foldl Op.run s).push ret).reg .esp + 8 =
        (allSaved s).reg .esp := two_words ((allSaved s).reg .esp)
    rw [hback]
    exact hframe.congr rfl rfl
  · rintro r (rfl | rfl | rfl | rfl)
    · exact low_half _
    · exact low_half _
    · exact low_half _
    · exact low_half _

theorem restores_resume {s : State} {err : UInt32} (h : s.Stack (saved c number err))
    (hesp : (s.reg .esp).toNat + 68 = (c.state.reg .esp).toNat)
    (hss : s.seg .ss = c.state.seg .ss) (hgdtr : s.gdtr = c.state.gdtr)
    (hidtr : s.idtr = c.state.idtr) (next : UInt32) :
    exec next (commonRestores.tail.foldl Op.run s) .iret =
      ⟨{ c.state with mem := s.mem }, c.eip⟩ := by
  obtain ⟨egs, hgs⟩ := h.popSeg .gs
  obtain ⟨efs, hfs⟩ := hgs.popSeg .fs
  obtain ⟨ees, hes⟩ := hfs.popSeg .es
  obtain ⟨eds, hds⟩ := hes.popSeg .ds
  obtain ⟨eedi, hedi⟩ := hds.popReg (r := .edi) (by decide)
  obtain ⟨eesi, hesi⟩ := hedi.popReg (r := .esi) (by decide)
  obtain ⟨eebp, hebp⟩ := hesi.popReg (r := .ebp) (by decide)
  have hskip := hebp.drop
  obtain ⟨eebx, hebx⟩ := hskip.popReg (r := .ebx) (by decide)
  obtain ⟨eedx, hedx⟩ := hebx.popReg (r := .edx) (by decide)
  obtain ⟨eecx, hecx⟩ := hedx.popReg (r := .ecx) (by decide)
  obtain ⟨eeax, heax⟩ := hecx.popReg (r := .eax) (by decide)
  have hadd := heax.skip
  obtain ⟨ecs, hcs⟩ := hadd.drop.popSeg .cs
  have hrun : commonRestores.tail.foldl Op.run s =
      (((((((((((((s.popSeg .gs).popSeg .fs).popSeg .es).popSeg .ds).popReg .edi).popReg
        .esi).popReg .ebp).drop 4).popReg .ebx).popReg .edx).popReg .ecx).popReg .eax).drop 8) :=
    rfl
  rw [hrun, egs, efs, ees, eds, eedi, eesi, eebp, eebx, eedx, eecx, eeax, exec, hadd.top, ecs,
    hcs.top]
  refine congrArg (Cpu.mk · c.eip) (State.ext (funext fun r => ?_) (funext fun r => ?_) rfl hgdtr
    hidtr rfl)
  · cases r with
    | esp =>
      have hback : s.reg .esp + 68 = c.state.reg .esp := by
        apply UInt32.toNat_inj.mp
        rw [UInt32.toNat_add]
        exact (Nat.mod_eq_of_lt (by
          rw [show (68 : UInt32).toNat = 68 from rfl, hesp]
          exact (c.state.reg .esp).toNat_lt)).trans hesp
      rw [← hback]
      simp
      grind
    | _ => simp
  · cases r with
    | ss => simpa using hss
    | _ => simp

theorem returned_stack {err ret : UInt32} {s s' : State} (h : Called c number err ret s)
    (hs : Returns (c.state.reg .esp).toNat s s') :
    ((s'.popReg .eax).reg .esp).toNat + 68 = (c.state.reg .esp).toNat ∧
      (s'.popReg .eax).Stack (saved c number err) := by
  have hold : (s.reg .esp).toNat + 76 = (c.state.reg .esp).toNat := h.pushed.esp
  have hlt := (c.state.reg .esp).toNat_lt
  have hesp : ((s'.popReg .eax).reg .esp).toNat = (s.reg .esp).toNat + 8 := by
    have hback : (s'.popReg .eax).reg .esp = s.reg .esp + 8 := by
      have hdrop : (s'.popReg .eax).reg .esp = s'.reg .esp + 4 := rfl
      rw [hdrop, hs.esp]
      grind
    rw [hback, UInt32.toNat_add]
    exact Nat.mod_eq_of_lt (by
      rw [show (8 : UInt32).toNat = 8 from rfl]
      omega)
  refine ⟨by omega, fun i hi => ?_, ?_⟩
  · have hlen : (saved c number err).length = 17 := rfl
    have hat := h.pushed.stack.holds (i + 2) (Nat.succ_lt_succ (Nat.succ_lt_succ hi))
    have hmem : (s'.popReg .eax).mem = s'.mem := rfl
    rw [hesp, hmem, load32_congr (m := s.mem) fun x hx hx' => hs.callers x (by omega) (by omega)]
    have haddr : (s.reg .esp).toNat + 8 + 4 * i = (s.reg .esp).toNat + 4 * (i + 2) := by omega
    rw [haddr]
    exact hat
  · have hlen : (saved c number err).length = 17 := rfl
    rw [hesp, hlen]
    omega

structure Linked (fetch : Fetch) (start : UInt32) (code : Bool) (number handler : UInt32) :
    Prop where
  linked : ∃ common b b', Code fetch start ((stub code number).map .op ++ [.jmp common]) b ∧
    Code fetch common (commonStub handler) b'

/-- An interrupt calls its handler with the registers of the code that it came in, and when the
handler returns that code goes on as if nothing had been. -/
theorem interrupt_resumes (hlink : Linked fetch c₀.eip code.isSome number handler)
    (hacc : accept vector code c = some c₀) (hroom : 76 ≤ (c.state.reg .esp).toNat) :
    ∃ s ret, Reaches fetch c₀ ⟨s, handler⟩ ∧ Called c number (code.getD 0) ret s ∧
      ∀ s', Returns (c.state.reg .esp).toNat s s' →
        Reaches fetch ⟨s', ret⟩ ⟨{ c.state with mem := s'.mem }, c.eip⟩ := by
  obtain ⟨common, b, b', hstub, hcommon⟩ := hlink.linked
  have hentered : Entered c number (code.getD 0) _ := stub_entered hacc (by omega)
  obtain ⟨jump, hjump, hstubrun⟩ := hstub.ops (s := c₀.state)
  cases hjump with
  | cons hjumpfetch _ =>
  obtain ⟨call, hcall, hsaverun⟩ :=
    hcommon.ops (s := (stub code.isSome number).foldl Op.run c₀.state)
  cases hcall with
  | @cons _ ret _ _ _ hcallfetch hrest =>
  obtain ⟨heax, hcalled⟩ : ((commonSaves handler).foldl Op.run _).reg .eax = handler ∧ _ :=
    saves_called hentered hroom ret
  refine ⟨_, ret, ?_, hcalled, fun s' hs' => ?_⟩
  · refine (hstubrun.trans (.first hjumpfetch (hsaverun.trans (.first hcallfetch ?_))))
    rw [exec, heax]
    exact .refl
  · obtain ⟨iret, hiret, hrestorerun⟩ := hrest.ops (s := s')
    cases hiret with
    | @cons _ next _ _ _ hiretfetch _ =>
    obtain ⟨hesp, hstack⟩ := returned_stack hcalled hs'
    have hresume := restores_resume hstack hesp (hs'.ss.trans hcalled.ss)
      (hs'.gdtr.trans hcalled.gdtr) (hs'.idtr.trans hcalled.idtr) next
    refine hrestorerun.trans (.first hiretfetch ?_)
    have hpop : commonRestores.foldl Op.run s' =
        commonRestores.tail.foldl Op.run (s'.popReg .eax) := List.foldl_cons ..
    rw [hpop, hresume]
    exact .refl

end Run

end Jiauliyan.InterruptStubs
