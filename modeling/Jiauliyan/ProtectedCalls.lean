import Jiauliyan.Execution
import Jiauliyan.Setjmp

namespace Jiauliyan.ProtectedCalls

open Jiauliyan.Memory Jiauliyan.X86 Jiauliyan.Setjmp Jiauliyan.Execution

def previous (m : Mem) (lj : ℕ) : ℕ := load32 m lj

def status (m : Mem) (lj : ℕ) : ℕ := load32 m (lj + 28)

/-- A call of `luaD_rawrunprotected` that has not returned: where its `lj` is, and how the code
behind its `setjmp` goes on. -/
structure Call where
  lj : ℕ
  context : JmpBuf

/-- The calls are those on the stack, the innermost first. -/
structure Machine where
  state : State
  errorJmp : ℕ
  calls : List Call

/-- All `lj` are as before. -/
def Keeps (calls : List Call) (m m' : Mem) : Prop :=
  ∀ c ∈ calls, ∀ x, c.lj ≤ x → x < c.lj + 32 → m' x = m x

/-- A call is about to call `setjmp` for its own `lj`, which lies in its frame. -/
structure Protects (m : Machine) (lj : ℕ) (ret env : UInt32) (s : State) : Prop where
  keeps : Keeps m.calls m.state.mem s.mem
  previous : previous s.mem lj = m.errorJmp
  status : status s.mem lj = 0
  stack : ∃ ws, s.Stack (ret :: env :: ws)
  env : env.toNat = lj + 4
  frame : (s.reg .esp).toNat + 8 ≤ lj
  callers : ∀ c ∈ m.calls, lj + 32 ≤ c.context.esp.toNat
  fits : lj + 32 < 4294967296

/-- `luaD_throw` has set the status and is about to call `longjmp`. -/
structure Throws (m : Machine) (errcode env : UInt32) (s : State) : Prop where
  handled : m.errorJmp ≠ 0
  keeps : Keeps m.calls (store32 m.state.mem (m.errorJmp + 28) errcode.toNat) s.mem
  stack : ∃ back ws, s.Stack (back :: env :: 1 :: ws)
  env : env.toNat = m.errorJmp + 4

/-- `finish` and `throw` come with what `luaD_rawrunprotected` returns. -/
inductive Event
  | work
  | protect (lj : ℕ)
  | finish (result : ℕ)
  | throw (errcode : UInt32) (result : ℕ)

inductive Step : Machine → Event → Machine → Prop
  | work {m : Machine} {s : State} (h : Keeps m.calls m.state.mem s.mem) :
      Step m .work { m with state := s }
  | protect {m : Machine} {s s' : State} {lj : ℕ} {ret env : UInt32}
      (h : Protects m lj ret env s) (hs : Saves ret env s s') :
      Step m (.protect lj) ⟨s', lj, ⟨lj, context ⟨s', ret⟩⟩ :: m.calls⟩
  | finish {m : Machine} {c : Call} {calls : List Call} (h : m.calls = c :: calls) :
      Step m (.finish (status m.state.mem c.lj)) ⟨m.state, previous m.state.mem c.lj, calls⟩
  -- the code that goes on is that of the call with the registers that come back
  | throw {m : Machine} {s : State} {errcode env : UInt32} {after : Cpu} {before calls : List Call}
      {c : Call} (h : Throws m errcode env s) (hresumes : Resumes env 1 s after)
      (hcalls : m.calls = before ++ c :: calls) (hcontext : context after = c.context) :
      Step m (.throw errcode (status after.state.mem c.lj))
        ⟨after.state, previous after.state.mem c.lj, calls⟩

def Chain (m : Mem) : ℕ → List Call → Prop
  | errorJmp, [] => errorJmp = 0
  | errorJmp, c :: calls =>
    errorJmp = c.lj ∧ status m c.lj = 0 ∧ jmpBufAt m (c.lj + 4) = c.context ∧
      (4 ≤ c.context.esp.toNat ∧ c.context.esp.toNat ≤ c.lj ∧ c.lj + 32 < 4294967296) ∧
      (∀ d ∈ calls, c.lj + 32 ≤ d.context.esp.toNat) ∧ Chain m (previous m c.lj) calls

theorem Chain.congr {m m' : Mem} {errorJmp : ℕ} {calls : List Call} (h : Chain m errorJmp calls)
    (hm : Keeps calls m m') : Chain m' errorJmp calls := by
  induction calls generalizing errorJmp with
  | nil => exact h
  | cons c calls ih =>
    obtain ⟨hlj, hstatus, hbuf, hesp, hbelow, hrest⟩ := h
    obtain ⟨hown, hothers⟩ := List.forall_mem_cons.mp hm
    have hprevious : previous m' c.lj = previous m c.lj :=
      load32_congr fun x _ _ => hown x (by omega) (by omega)
    refine ⟨hlj, ?_, ?_, hesp, hbelow, ?_⟩
    · exact (load32_congr fun x _ _ => hown x (by omega) (by omega)).trans hstatus
    · exact (jmpBufAt_congr fun x _ _ => hown x (by omega) (by omega)).trans hbuf
    · rw [hprevious]
      exact ih hrest hothers

theorem Chain.above {m : Mem} {errorJmp : ℕ} {calls : List Call} (h : Chain m errorJmp calls) :
    ∀ c ∈ calls, c.context.esp.toNat ≤ c.lj := by
  induction calls generalizing errorJmp with
  | nil => exact fun c hc => absurd hc List.not_mem_nil
  | cons c calls ih =>
    obtain ⟨-, -, -, ⟨-, hesp, -⟩, -, hrest⟩ := h
    exact List.forall_mem_cons.mpr ⟨hesp, ih hrest⟩

section Steps

variable {m m' : Machine} {s s' : State} {lj : ℕ} {ret env errcode : UInt32} {after : Cpu}
  {c : Call} {calls : List Call}

theorem chain_protect (h : Chain m.state.mem m.errorJmp m.calls) (hp : Protects m lj ret env s)
    (hs : Saves ret env s s') :
    Chain s'.mem lj (⟨lj, context ⟨s', ret⟩⟩ :: m.calls) := by
  obtain ⟨ws, hstack⟩ := hp.stack
  have hroom := hstack.room
  rw [List.length_cons] at hroom
  have henv := hp.env
  have hframe := hp.frame
  have hesp : (s'.reg .esp).toNat = (s.reg .esp).toNat + 4 := by
    rw [hs.esp]
    exact addr_add (show (s.reg .esp).toNat + 4 < _ by omega)
  have hown : ∀ x, lj ≤ x → x < lj + 4 ∨ lj + 28 ≤ x → s'.mem x = s.mem x :=
    fun x _ _ => hs.frame x (by omega) (by omega)
  have hkeeps : Keeps m.calls s.mem s'.mem := fun c hc x hx _ => by
    have habove := h.above c hc
    have hcaller := hp.callers c hc
    exact hs.frame x (by omega) (by omega)
  have hprevious : previous s'.mem lj = m.errorJmp :=
    (load32_congr fun x _ _ => hown x (by omega) (by omega)).trans hp.previous
  refine ⟨rfl, ?_, ?_, ⟨?_, ?_, hp.fits⟩, hp.callers, ?_⟩
  · show status s'.mem lj = 0
    exact (load32_congr fun x _ _ => hown x (by omega) (by omega)).trans hp.status
  · rw [← henv]
    exact hs.buffer
  · show 4 ≤ (s'.reg .esp).toNat
    omega
  · show (s'.reg .esp).toNat ≤ lj
    omega
  · rw [hprevious]
    exact (h.congr hp.keeps).congr hkeeps

theorem chain_throws (h : Chain m.state.mem m.errorJmp m.calls) (ht : Throws m errcode env s)
    (hm : m.calls = c :: calls) :
    env.toNat = c.lj + 4 ∧ status s.mem c.lj = errcode.toNat ∧
      jmpBufAt s.mem (c.lj + 4) = c.context ∧ Chain s.mem (previous s.mem c.lj) calls := by
  have hkeeps := ht.keeps
  rw [hm] at h hkeeps
  obtain ⟨hlj, -, hbuf, ⟨-, hesp, -⟩, hbelow, hrest⟩ := h
  rw [hlj] at hkeeps
  obtain ⟨hown, hothers⟩ := List.forall_mem_cons.mp hkeeps
  have hprevious : previous s.mem c.lj = previous m.state.mem c.lj :=
    (load32_congr fun x _ _ => hown x (by omega) (by omega)).trans
      (load32_store32_frame _ _ (by omega))
  refine ⟨hlj ▸ ht.env, ?_, ?_, ?_⟩
  · rw [status, load32_congr fun x _ _ => hown x (by omega) (by omega), load32_store32,
      u32_eq errcode.toNat_lt]
  · rw [jmpBufAt_congr fun x _ _ => hown x (by omega) (by omega),
      jmpBufAt_congr fun x _ _ => store32_frame _ _ (by omega), hbuf]
  · rw [hprevious]
    refine hrest.congr fun d hd x hx hx' => ?_
    have habove := hrest.above d hd
    have hlow := hbelow d hd
    rw [hothers d hd x hx hx', store32_frame _ _ (by omega)]

theorem throw_innermost (h : Chain m.state.mem m.errorJmp m.calls) (ht : Throws m errcode env s)
    (hm : m.calls = c :: calls) (hresumes : Resumes env 1 s after) :
    context after = c.context ∧ status after.state.mem c.lj = errcode.toNat ∧
      Chain after.state.mem (previous after.state.mem c.lj) calls := by
  obtain ⟨henv, hstatus, hbuf, hchain⟩ := chain_throws h ht hm
  have hcontext : context after = c.context := by rw [hresumes.context, henv, hbuf]
  have hesp : after.state.reg .esp = c.context.esp := congrArg JmpBuf.esp hcontext
  rw [hm] at h
  obtain ⟨-, -, -, ⟨-, hlow, -⟩, hbelow, -⟩ := h
  have hkeeps : ∀ x, c.lj ≤ x → after.state.mem x = s.mem x :=
    fun x _ => hresumes.frame x (by rw [hesp]; omega)
  have hprevious : previous after.state.mem c.lj = previous s.mem c.lj :=
    load32_congr fun x _ _ => hkeeps x (by omega)
  refine ⟨hcontext, ?_, ?_⟩
  · exact (load32_congr fun x _ _ => hkeeps x (by omega)).trans hstatus
  · rw [hprevious]
    refine hchain.congr fun d hd x _ _ => hkeeps x ?_
    have habove := hchain.above d hd
    have hd' := hbelow d hd
    omega

theorem throw_calls {before : List Call} (h : Chain m.state.mem m.errorJmp m.calls)
    (ht : Throws m errcode env s) (hresumes : Resumes env 1 s after)
    (hm : m.calls = before ++ c :: calls) (hcontext : context after = c.context) :
    m.calls = c :: calls := by
  cases before with
  | nil => exact hm
  | cons d before =>
    have hd := (throw_innermost h ht hm hresumes).1
    rw [hm] at h
    obtain ⟨-, -, -, ⟨-, hesp, -⟩, hbelow, -⟩ := h
    have hlow := hbelow c (List.mem_append_right _ List.mem_cons_self)
    rw [← hcontext, hd] at hlow
    omega

theorem chain_step {e : Event} (h : Chain m.state.mem m.errorJmp m.calls) (hstep : Step m e m') :
    Chain m'.state.mem m'.errorJmp m'.calls := by
  cases hstep with
  | work hwork => exact h.congr hwork
  | protect hp hs => exact chain_protect h hp hs
  | finish hm =>
    rw [hm] at h
    exact h.2.2.2.2.2
  | throw ht hresumes hm hcontext =>
    exact (throw_innermost h ht (throw_calls h ht hresumes hm hcontext) hresumes).2.2

end Steps

theorem chain_run {s : State} {es : List Event} {m : Machine} (h : Run Step ⟨s, 0, []⟩ es m) :
    Chain m.state.mem m.errorJmp m.calls :=
  h.invariant (P := fun m => Chain m.state.mem m.errorJmp m.calls)
    (fun _ _ _ hinv hstep => chain_step hinv hstep) (show Chain s.mem 0 [] from rfl)

/-- In every run a protected call returns 0 when its function returns, and an error ends the
innermost of them: `longjmp` gets to where it goes on, with its registers, and it returns the code
of the error; those around it stay as they are. -/
theorem error_ends_innermost {fetch : Fetch} {jump b : UInt32}
    (hjump : Code fetch jump (longjmp.map .op ++ [.ret]) b) {s₀ : State} {es : List Event}
    {m : Machine} (h : Run Step ⟨s₀, 0, []⟩ es m) :
    (m.errorJmp = 0 ↔ m.calls = []) ∧
    (∀ result m', Step m (.finish result) m' → result = 0 ∧ m'.calls = m.calls.tail) ∧
    (∀ errcode env s, Throws m errcode env s → ∃ c after m', m.calls.head? = some c ∧
      Reaches fetch ⟨s, jump⟩ after ∧ context after = c.context ∧ after.state.reg .eax = 1 ∧
      Step m (.throw errcode errcode.toNat) m' ∧ m'.state = after.state) ∧
    ∀ errcode result m', Step m (.throw errcode result) m' →
      result = errcode.toNat ∧ m'.calls = m.calls.tail := by
  have hchain := chain_run h
  refine ⟨?_, fun result m' hstep => ?_, fun errcode env s ht => ?_,
    fun errcode result m' hstep => ?_⟩
  · cases hm : m.calls with
    | nil =>
      rw [hm] at hchain
      exact iff_of_true hchain rfl
    | cons c calls =>
      rw [hm] at hchain
      obtain ⟨hlj, -, -, ⟨hesp, hlow, -⟩, -⟩ := hchain
      exact iff_of_false (by omega) (List.cons_ne_nil _ _)
  · cases hstep with
    | finish hm =>
      rw [hm] at hchain ⊢
      exact ⟨hchain.2.1, rfl⟩
  · obtain ⟨back, ws, hstack⟩ := ht.stack
    cases hm : m.calls with
    | nil =>
      rw [hm] at hchain
      exact absurd hchain ht.handled
    | cons c calls =>
      obtain ⟨henv, -, hbuf, -⟩ := chain_throws hchain ht hm
      have hin := hchain
      rw [hm] at hin
      obtain ⟨-, -, -, ⟨hesp, -, hfits⟩, -⟩ := hin
      obtain ⟨after, hrun, hresumes⟩ := longjmp_resumes hjump hstack (by omega) (by
        rw [henv, hbuf]
        exact hesp)
      obtain ⟨hcontext, hstatus, -⟩ := throw_innermost hchain ht hm hresumes
      refine ⟨c, after, ⟨after.state, previous after.state.mem c.lj, calls⟩, rfl, hrun, hcontext,
        hresumes.eax, ?_, rfl⟩
      have hfirst : m.calls = [] ++ c :: calls := hm
      rw [← hstatus]
      exact .throw ht hresumes hfirst hcontext
  · cases hstep with
    | throw ht hresumes hm hcontext =>
      have hcalls := throw_calls hchain ht hresumes hm hcontext
      rw [hcalls]
      exact ⟨(throw_innermost hchain ht hcalls hresumes).2.1, rfl⟩

theorem error_caught : ∃ m s c after m', Run Step ⟨calling, 0, []⟩ [.protect 0x2FFC] m ∧
    m.calls.head? = some c ∧ Reaches (byteImage jmpImage) ⟨s, 11⟩ after ∧
    context after = c.context ∧ after.state.reg .eax = 1 ∧ Step m (.throw 2 2) m' ∧
    m'.state = after.state := by
  have hset : Code (byteImage jmpImage) 0 (setjmp.map .op ++ [.ret]) _ :=
    byteImage_code 0 (List.prefix_append _ _) (by decide)
  have hjump : Code (byteImage jmpImage) 11 (longjmp.map .op ++ [.ret]) _ :=
    byteImage_code 11 List.prefix_rfl (by decide)
  obtain ⟨s', -, hsaves⟩ := setjmp_saves hset calling_stack (by decide) (.inr (by decide))
  have hprotects : Protects ⟨calling, 0, []⟩ 0x2FFC 0x500 0x3000 calling :=
    ⟨fun c hc => absurd hc List.not_mem_nil, rfl, rfl, ⟨[], calling_stack⟩, rfl, by decide,
      fun c hc => absurd hc List.not_mem_nil, by decide⟩
  have hrun : Run Step _ _ _ := .cons (.protect hprotects hsaves) (.nil _)
  -- the arguments of `longjmp` lie further down the stack
  obtain ⟨t, ht⟩ : ∃ t : State, t =
    { calling with reg := fun _ => 0x1000, mem := store32 s'.mem 0x3018 2 } := ⟨_, rfl⟩
  have hpushed : Pushed t [9, 0x3000, 1] (t.pushAll [1, 0x3000, 9]) :=
    (Pushed.nil t).pushAll [1, 0x3000, 9] (by rw [ht]; exact (by decide : 12 ≤ 0x1000))
  have hthrows : Throws ⟨s', 0x2FFC, [⟨0x2FFC, context ⟨s', 0x500⟩⟩]⟩ 2 0x3000
      (t.pushAll [1, 0x3000, 9]) := by
    refine ⟨Nat.succ_ne_zero _, fun c hc x hx hx' => ?_, ⟨9, [], hpushed.stack⟩, rfl⟩
    obtain rfl := List.mem_singleton.mp hc
    have hlow : (t.reg .esp).toNat ≤ x := by
      rw [ht]
      exact le_trans (by decide : 0x1000 ≤ 0x2FFC) hx
    rw [hpushed.frame x (.inr hlow), ht]
    rfl
  obtain ⟨c, after, m', hhead, hreaches, hcontext, heax, hstep, hstate⟩ :=
    (error_ends_innermost hjump hrun).2.2.1 2 0x3000 _ hthrows
  exact ⟨_, _, c, after, m', hrun, hhead, hreaches, hcontext, heax, hstep, hstate⟩

end Jiauliyan.ProtectedCalls
