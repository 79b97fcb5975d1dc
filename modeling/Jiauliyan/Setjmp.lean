import Jiauliyan.X86
import Mathlib.Tactic.SplitIfs

namespace Jiauliyan.Setjmp

open Jiauliyan.Memory Jiauliyan.X86

def setjmp : List Op :=
  [.load .eax .esp 4, .pop .ecx, .store .eax 0x00 .esp, .store .eax 0x04 .ebp,
    .store .eax 0x08 .ecx, .store .eax 0x0C .ebx, .store .eax 0x10 .edi, .store .eax 0x14 .esi,
    .xor .eax .eax, .push .ecx]

def longjmp : List Op :=
  [.load .edx .esp 4, .load .eax .esp 8, .load .esp .edx 0x00, .load .ebp .edx 0x04,
    .load .ecx .edx 0x08, .load .ebx .edx 0x0C, .load .edi .edx 0x10, .load .esi .edx 0x14,
    .push .ecx]

@[ext]
structure JmpBuf where
  esp : UInt32
  ebp : UInt32
  eip : UInt32
  ebx : UInt32
  edi : UInt32
  esi : UInt32

def jmpBufAt (m : Mem) (a : ℕ) : JmpBuf :=
  let word (i : ℕ) : UInt32 := UInt32.ofNat (load32 m (a + 4 * i))
  ⟨word 0, word 1, word 2, word 3, word 4, word 5⟩

/-- What the code at a place needs to go on, as the calling convention has it. -/
def context (c : Cpu) : JmpBuf :=
  ⟨c.state.reg .esp, c.state.reg .ebp, c.eip, c.state.reg .ebx, c.state.reg .edi, c.state.reg .esi⟩

theorem jmpBufAt_congr {m m' : Mem} {a : ℕ} (h : ∀ x, a ≤ x → x < a + 24 → m' x = m x) :
    jmpBufAt m' a = jmpBufAt m a := by
  have hword : ∀ i < 6, load32 m' (a + 4 * i) = load32 m (a + 4 * i) := fun i hi =>
    load32_congr fun x _ _ => h x (by omega) (by omega)
  simp (disch := decide) only [jmpBufAt, hword]

/-- The structure is written. -/
def store (m : Mem) (a : ℕ) (b : JmpBuf) : Mem :=
  let m := store32 m a b.esp.toNat
  let m := store32 m (a + 4) b.ebp.toNat
  let m := store32 m (a + 8) b.eip.toNat
  let m := store32 m (a + 12) b.ebx.toNat
  let m := store32 m (a + 16) b.edi.toNat
  store32 m (a + 20) b.esi.toNat

theorem jmpBufAt_store (m : Mem) (a : ℕ) (b : JmpBuf) : jmpBufAt (store m a b) a = b := by
  have hword : ∀ v : UInt32, UInt32.ofNat (u32 v.toNat) = v := fun v => by
    rw [u32_eq v.toNat_lt, UInt32.ofNat_toNat]
  simp (disch := omega) only [jmpBufAt, store, load32_store32_frame, load32_store32, Nat.mul_zero,
    Nat.add_zero, Nat.mul_one, Nat.reduceMul, hword]

theorem store_frame (m : Mem) {a x : ℕ} (b : JmpBuf) (h : x < a ∨ a + 24 ≤ x) :
    store m a b x = m x := by
  simp (disch := omega) only [store, store32_frame]

/-- `setjmp` has returned 0, and its buffer tells how to go on from where it has returned. -/
structure Saves (ret env : UInt32) (s s' : State) : Prop where
  eax : s'.reg .eax = 0
  buffer : jmpBufAt s'.mem env.toNat = context ⟨s', ret⟩
  esp : s'.reg .esp = s.reg .esp + 4
  reg : ∀ r, r ≠ .eax → r ≠ .ecx → r ≠ .esp → s'.reg r = s.reg r
  frame : ∀ x, (x < env.toNat ∨ env.toNat + 24 ≤ x) →
    (x < (s.reg .esp).toNat ∨ (s.reg .esp).toNat + 4 ≤ x) → s'.mem x = s.mem x

/-- `longjmp` goes on from the place that the buffer tells, with any value, also with 0. -/
structure Resumes (env val : UInt32) (s : State) (c : Cpu) : Prop where
  eax : c.state.reg .eax = val
  context : context c = jmpBufAt s.mem env.toNat
  frame : ∀ x, (x < (c.state.reg .esp).toNat - 4 ∨ (c.state.reg .esp).toNat ≤ x) →
    c.state.mem x = s.mem x

section Calls

variable {fetch : Fetch} {start ret env val b : UInt32} {ws : List UInt32} {s : State}

theorem addr_add {a d : UInt32} (h : a.toNat + d.toNat < 4294967296) :
    (a + d).toNat = a.toNat + d.toNat := by
  rw [UInt32.toNat_add]
  exact Nat.mod_eq_of_lt h

theorem stack_word {s : State} {ws : List UInt32} (h : s.Stack ws) {i : ℕ} (hi : i < ws.length)
    {d : UInt32} (hd : d.toNat = 4 * i) :
    UInt32.ofNat (load32 s.mem (s.reg .esp + d).toNat) = ws[i] := by
  have hroom := h.room
  rw [addr_add (by omega), hd, h.holds i hi, UInt32.ofNat_toNat]

theorem setjmp_saves (hcode : Code fetch start (setjmp.map .op ++ [.ret]) b)
    (hs : s.Stack (ret :: env :: ws)) (henv : env.toNat + 24 < 4294967296)
    (hslot : env.toNat + 24 ≤ (s.reg .esp).toNat ∨ (s.reg .esp).toNat + 4 ≤ env.toNat) :
    ∃ s', Reaches fetch ⟨s, start⟩ ⟨s', ret⟩ ∧ Saves ret env s s' := by
  obtain ⟨next, hnext, hrun⟩ := hcode.ops (s := s)
  cases hnext with
  | cons hret _ =>
  obtain ⟨t, ht⟩ : ∃ t, t = setjmp.foldl Op.run s := ⟨_, rfl⟩
  rw [← ht] at hrun
  have hloaded : (Op.run s (.load .eax .esp 4)) = s.setReg .eax env := by
    rw [Op.run, stack_word hs (i := 1) (by simp) rfl]
    rfl
  have hstack : (s.setReg .eax env).Stack (ret :: env :: ws) := hs.congr rfl rfl
  obtain ⟨hpop, -⟩ := hstack.popReg (r := .ecx) (by decide)
  have hstart : setjmp.foldl Op.run s = (setjmp.drop 2).foldl Op.run
      (((s.setReg .eax env).drop 4).setReg .ecx ret) := by
    have hsplit : setjmp = .load .eax .esp 4 :: .pop .ecx :: setjmp.drop 2 := rfl
    have hpoprun : Op.run (s.setReg .eax env) (.pop .ecx) =
        ((s.setReg .eax env).drop 4).setReg .ecx ret := hpop
    refine (congrArg (List.foldl Op.run s) hsplit).trans ?_
    rw [List.foldl_cons, List.foldl_cons, hloaded, hpoprun]
  have hmem : t.mem = store32 (store s.mem env.toNat ⟨s.reg .esp + 4, s.reg .ebp, ret, s.reg .ebx,
      s.reg .edi, s.reg .esi⟩) (s.reg .esp).toNat ret.toNat := by
    have haddr : ∀ d : UInt32, d.toNat ≤ 20 → (env + d).toNat = env.toNat + d.toNat :=
      fun d hd => addr_add (by omega)
    have hback : s.reg .esp + 4 - 4 = s.reg .esp := by grind
    rw [ht, hstart]
    show store32 (store32 (store32 (store32 (store32 (store32 (store32 s.mem
      (env + 0x00).toNat (s.reg .esp + 4).toNat) (env + 0x04).toNat (s.reg .ebp).toNat)
      (env + 0x08).toNat ret.toNat) (env + 0x0C).toNat (s.reg .ebx).toNat)
      (env + 0x10).toNat (s.reg .edi).toNat) (env + 0x14).toNat (s.reg .esi).toNat)
      (s.reg .esp + 4 - 4).toNat ret.toNat = _
    simp (disch := decide) only [haddr, hback]
    rfl
  have hreg : ∀ r, r ≠ .eax → r ≠ .ecx → r ≠ .esp → t.reg r = s.reg r := by
    intro r heax hecx hesp
    rw [ht, hstart]
    cases r with
    | eax => exact absurd rfl heax
    | ecx => exact absurd rfl hecx
    | esp => exact absurd rfl hesp
    | _ => rfl
  have hesp : t.reg .esp = s.reg .esp := by
    rw [ht, hstart]
    show s.reg .esp + 4 - 4 = s.reg .esp
    grind
  have htop : t.top = ret := by
    rw [State.top, hesp, hmem, load32_store32, u32_eq ret.toNat_lt, UInt32.ofNat_toNat]
  have hbuf : jmpBufAt t.mem env.toNat = ⟨s.reg .esp + 4, s.reg .ebp, ret, s.reg .ebx,
      s.reg .edi, s.reg .esi⟩ := by
    rw [hmem, jmpBufAt_congr fun x _ _ => store32_frame _ _ (by omega), jmpBufAt_store]
  refine ⟨t.drop 4, hrun.trans (.first hret (.refl' ?_)), ?_, hbuf.trans ?_, ?_, ?_, ?_⟩
  · rw [exec, htop]
  · rw [ht, hstart]
    exact UInt32.xor_self
  · rw [← hesp, ← hreg .ebp (by decide) (by decide) (by decide),
      ← hreg .ebx (by decide) (by decide) (by decide),
      ← hreg .edi (by decide) (by decide) (by decide),
      ← hreg .esi (by decide) (by decide) (by decide)]
    rfl
  · rw [State.drop_reg, if_pos rfl, hesp]
  · intro r heax hecx hne
    rw [State.drop_reg, if_neg hne, hreg r heax hecx hne]
  · intro x henvx hslotx
    show t.mem x = s.mem x
    rw [hmem, store32_frame _ _ hslotx, store_frame _ _ henvx]

theorem longjmp_resumes (hcode : Code fetch start (longjmp.map .op ++ [.ret]) b)
    (hs : s.Stack (ret :: env :: val :: ws)) (henv : env.toNat + 24 < 4294967296)
    (hesp : 4 ≤ (jmpBufAt s.mem env.toNat).esp.toNat) :
    ∃ c, Reaches fetch ⟨s, start⟩ c ∧ Resumes env val s c := by
  obtain ⟨next, hnext, hrun⟩ := hcode.ops (s := s)
  cases hnext with
  | cons hret _ =>
  obtain ⟨t, ht⟩ : ∃ t, t = longjmp.foldl Op.run s := ⟨_, rfl⟩
  rw [← ht] at hrun
  obtain ⟨j, hj⟩ : ∃ j, j = jmpBufAt s.mem env.toNat := ⟨_, rfl⟩
  rw [← hj] at hesp
  have hloaded : longjmp.foldl Op.run s =
      (longjmp.drop 2).foldl Op.run ((s.setReg .edx env).setReg .eax val) := by
    have henvarg : Op.run s (.load .edx .esp 4) = s.setReg .edx env := by
      rw [Op.run, stack_word hs (i := 1) (by simp) rfl]
      rfl
    have hvalarg : Op.run (s.setReg .edx env) (.load .eax .esp 8) =
        (s.setReg .edx env).setReg .eax val := by
      show (s.setReg .edx env).setReg .eax (UInt32.ofNat (load32 s.mem (s.reg .esp + 8).toNat)) = _
      rw [stack_word hs (i := 2) (by simp) rfl]
      rfl
    have hsplit : longjmp = .load .edx .esp 4 :: .load .eax .esp 8 :: longjmp.drop 2 := rfl
    refine (congrArg (List.foldl Op.run s) hsplit).trans ?_
    rw [List.foldl_cons, List.foldl_cons, henvarg, hvalarg]
  have hrest : (longjmp.drop 2).foldl Op.run ((s.setReg .edx env).setReg .eax val) =
      ((((((((s.setReg .edx env).setReg .eax val).setReg .esp j.esp).setReg .ebp j.ebp).setReg
        .ecx j.eip).setReg .ebx j.ebx).setReg .edi j.edi).setReg .esi j.esi).push j.eip := by
    have hfield : ∀ (d : UInt32) (i : ℕ), d.toNat = 4 * i → i < 6 →
        UInt32.ofNat (load32 s.mem (env + d).toNat) =
          UInt32.ofNat (load32 s.mem (env.toNat + 4 * i)) :=
      fun d i hd hi => by rw [addr_add (by omega), hd]
    show ((((((((s.setReg .edx env).setReg .eax val).setReg .esp
      (UInt32.ofNat (load32 s.mem (env + 0x00).toNat))).setReg .ebp
      (UInt32.ofNat (load32 s.mem (env + 0x04).toNat))).setReg .ecx
      (UInt32.ofNat (load32 s.mem (env + 0x08).toNat))).setReg .ebx
      (UInt32.ofNat (load32 s.mem (env + 0x0C).toNat))).setReg .edi
      (UInt32.ofNat (load32 s.mem (env + 0x10).toNat))).setReg .esi
      (UInt32.ofNat (load32 s.mem (env + 0x14).toNat))).push
      (UInt32.ofNat (load32 s.mem (env + 0x08).toNat)) = _
    rw [hj, hfield 0x00 0 rfl (by decide), hfield 0x04 1 rfl (by decide),
      hfield 0x08 2 rfl (by decide), hfield 0x0C 3 rfl (by decide), hfield 0x10 4 rfl (by decide),
      hfield 0x14 5 rfl (by decide)]
    rfl
  have hmem : t.mem = store32 s.mem (j.esp - 4).toNat j.eip.toNat := by
    rw [ht, hloaded, hrest]
    rfl
  have hback : t.reg .esp = j.esp - 4 := by
    rw [ht, hloaded, hrest]
    rfl
  have htop : t.top = j.eip := by
    rw [State.top, hback, hmem, load32_store32, u32_eq j.eip.toNat_lt, UInt32.ofNat_toNat]
  have hup : (t.drop 4).reg .esp = j.esp := by
    rw [State.drop_reg, if_pos rfl, hback]
    grind
  refine ⟨⟨t.drop 4, j.eip⟩, hrun.trans (.first hret (.refl' ?_)), ?_, ?_, fun x hx => ?_⟩
  · rw [exec, htop]
  · rw [ht, hloaded, hrest]
    rfl
  · rw [context, hup, ht, hloaded, hrest, ← hj]
    rfl
  · rw [hup] at hx
    show t.mem x = s.mem x
    rw [hmem, store32_frame _ _ (by rw [esp_sub hesp]; omega)]

/-- What a C function keeps for its caller. -/
def Preserved (r : Reg) : Prop := r = .ebp ∨ r = .ebx ∨ r = .edi ∨ r = .esi

/-- `setjmp` returns, and as long as its buffer is left alone every `longjmp` makes it return
again, with the registers as they were and the memory as it is now. -/
theorem setjmp_returns_again {jump b' : UInt32}
    (hset : Code fetch start (setjmp.map .op ++ [.ret]) b)
    (hjump : Code fetch jump (longjmp.map .op ++ [.ret]) b')
    (hs : s.Stack (ret :: env :: ws)) (henv : env.toNat + 24 < 4294967296)
    (hslot : env.toNat + 24 ≤ (s.reg .esp).toNat ∨ (s.reg .esp).toNat + 4 ≤ env.toNat) :
    ∃ s', Reaches fetch ⟨s, start⟩ ⟨s', ret⟩ ∧ Saves ret env s s' ∧
      ∀ t back val ws', t.Stack (back :: env :: val :: ws') →
        (∀ x, env.toNat ≤ x → x < env.toNat + 24 → t.mem x = s'.mem x) →
        ∃ t', Reaches fetch ⟨t, jump⟩ ⟨t', ret⟩ ∧ t'.reg .eax = val ∧
          t'.reg .esp = s'.reg .esp ∧ (∀ r, Preserved r → t'.reg r = s.reg r) ∧
          ∀ x, (x < (s.reg .esp).toNat ∨ (s.reg .esp).toNat + 4 ≤ x) → t'.mem x = t.mem x := by
  obtain ⟨s', hrun, hsaves⟩ := setjmp_saves hset hs henv hslot
  refine ⟨s', hrun, hsaves, fun t back val ws' ht hbuf => ?_⟩
  have hj : jmpBufAt t.mem env.toNat = context ⟨s', ret⟩ :=
    (jmpBufAt_congr hbuf).trans hsaves.buffer
  have hroom := hs.room
  rw [List.length_cons] at hroom
  have hesp : (s'.reg .esp).toNat = (s.reg .esp).toNat + 4 := by
    rw [hsaves.esp]
    exact addr_add (show (s.reg .esp).toNat + 4 < _ by omega)
  obtain ⟨⟨t', eip⟩, hback, hresumes⟩ := longjmp_resumes hjump ht henv (by
    rw [hj]
    show 4 ≤ (s'.reg .esp).toNat
    omega)
  have hcontext := hresumes.context.trans hj
  obtain rfl : eip = ret := congrArg JmpBuf.eip hcontext
  have hsp : t'.reg .esp = s'.reg .esp := congrArg JmpBuf.esp hcontext
  have hkept : ∀ r, Preserved r → s'.reg r = s.reg r := by
    rintro r (rfl | rfl | rfl | rfl) <;> exact hsaves.reg _ (by decide) (by decide) (by decide)
  refine ⟨t', hback, hresumes.eax, hsp, fun r hr => Eq.trans ?_ (hkept r hr),
    fun x hx => hresumes.frame x ?_⟩
  · obtain rfl | rfl | rfl | rfl := hr
    · exact congrArg JmpBuf.ebp hcontext
    · exact congrArg JmpBuf.ebx hcontext
    · exact congrArg JmpBuf.edi hcontext
    · exact congrArg JmpBuf.esi hcontext
  · show x < (t'.reg .esp).toNat - 4 ∨ (t'.reg .esp).toNat ≤ x
    rw [hsp, hesp]
    omega

end Calls

def jmpImage : List Instr := setjmp.map .op ++ [.ret] ++ (longjmp.map .op ++ [.ret])

def calling : State where
  reg r := if r = .esp then 0x2000 else 7
  seg _ := 0x10
  eflags := 0x202
  gdtr := ⟨0, 0⟩
  idtr := ⟨0, 0⟩
  mem := store32 (store32 (fun _ => 0) 0x2000 0x500) 0x2004 0x3000

theorem calling_stack : calling.Stack [0x500, 0x3000] := by
  refine ⟨fun i hi => ?_, by decide⟩
  obtain rfl | rfl : i = 0 ∨ i = 1 := by
    have : i < 2 := hi
    omega
  · rfl
  · rfl

theorem jumps_back : ∃ s', Reaches (byteImage jmpImage) ⟨calling, 0⟩ ⟨s', 0x500⟩ ∧
    Saves 0x500 0x3000 calling s' ∧
    ∀ t back val ws', t.Stack (back :: 0x3000 :: val :: ws') →
      (∀ x, 0x3000 ≤ x → x < 0x3000 + 24 → t.mem x = s'.mem x) →
      ∃ t', Reaches (byteImage jmpImage) ⟨t, 11⟩ ⟨t', 0x500⟩ ∧ t'.reg .eax = val ∧
        t'.reg .esp = s'.reg .esp ∧ (∀ r, Preserved r → t'.reg r = 7) ∧
        ∀ x, (x < 0x2000 ∨ 0x2000 + 4 ≤ x) → t'.mem x = t.mem x := by
  have hset : Code (byteImage jmpImage) 0 (setjmp.map .op ++ [.ret]) _ :=
    byteImage_code 0 (List.prefix_append _ _) (by decide)
  have hjump : Code (byteImage jmpImage) 11 (longjmp.map .op ++ [.ret]) _ :=
    byteImage_code 11 List.prefix_rfl (by decide)
  obtain ⟨s', hrun, hsaves, hagain⟩ :=
    setjmp_returns_again hset hjump calling_stack (by decide) (.inr (by decide))
  refine ⟨s', hrun, hsaves, fun t back val ws' ht hbuf => ?_⟩
  obtain ⟨t', hback, heax, hesp, hreg, hframe⟩ := hagain t back val ws' ht hbuf
  refine ⟨t', hback, heax, hesp, fun r hr => (hreg r hr).trans ?_, hframe⟩
  obtain rfl | rfl | rfl | rfl := hr <;> rfl

end Jiauliyan.Setjmp
