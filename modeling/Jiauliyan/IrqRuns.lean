import Mathlib.Data.Finset.Card
import Mathlib.Data.Finset.Range
import Jiauliyan.Execution
import Jiauliyan.Pic

namespace Jiauliyan.IrqRuns

open Jiauliyan.Execution Jiauliyan.Pic

def irqRemap : List (ℕ × UInt8) :=
  [(0x20, 0x11), (0xA0, 0x11), (0x21, 0x20), (0xA1, 0x28), (0x21, 0x04), (0xA1, 0x02),
    (0x21, 0x01), (0xA1, 0x01), (0x21, 0x0), (0xA1, 0x0)]

inductive Action (ρ : Type)
  | routine (r : ρ)
  | out (port : ℕ) (v : UInt8)

section Machine

variable {ρ : Type}

/-- What `irq_handler` does. -/
def irqHandler (irq_routines : ℕ → Option ρ) (int_no : ℕ) : List (Action ρ) :=
  ((irq_routines (int_no - 32)).map .routine).toList ++
    ((if 40 ≤ int_no then [.out 0xA0 0x20] else []) ++ [.out 0x20 0x20])

/-- A call of `irq_handler` that has not returned: what it has still to do, and whether interrupts
were enabled where it came in. -/
structure Frame (ρ : Type) where
  int_no : ℕ
  todo : List (Action ρ)
  enabled : Bool

/-- The frames are those on the stack, the innermost first. -/
structure Machine (ρ : Type) where
  irq_routines : ℕ → Option ρ
  pics : Pair
  enabled : Bool
  frames : List (Frame ρ)

/-- `install` is `irq_install_handler`, and without a handler `irq_uninstall_handler`. -/
inductive Event (ρ : Type)
  | request (n : ℕ)
  | accept
  | flag (enabled : Bool)
  | install (irq : ℕ) (handler : Option ρ)
  | act
  | iret

def Machine.free (m : Machine ρ) : Bool :=
  match m.frames with
  | [] => true
  | f :: _ =>
    match f.todo with
    | .routine _ :: _ => true
    | _ => false

/-- Lines are requested at any time. The routines of devices may enable interrupts, disable them
and install other routines, and so may the code outside all handlers. -/
def step (m : Machine ρ) : Event ρ → Option (Machine ρ)
  | .request n => if n < 16 ∧ n ≠ 2 then some { m with pics := m.pics.request n } else none
  | .accept =>
    if m.enabled then
      m.pics.acknowledge.map fun a =>
        { m with
          pics := a.2
          enabled := false
          frames := ⟨a.1, irqHandler m.irq_routines a.1, true⟩ :: m.frames }
    else none
  | .flag enabled => if m.free then some { m with enabled := enabled } else none
  | .install irq handler =>
    if m.free ∧ irq < 16 then
      some { m with irq_routines := Function.update m.irq_routines irq handler }
    else none
  | .act =>
    match m.frames with
    | [] => none
    | f :: frames =>
      match f.todo with
      | [] => none
      | .routine _ :: todo => some { m with frames := { f with todo := todo } :: frames }
      | .out port v :: todo =>
        some { m with pics := m.pics.out port v, frames := { f with todo := todo } :: frames }
  | .iret =>
    match m.frames with
    | [] => none
    | f :: frames =>
      if f.todo.isEmpty then some { m with enabled := f.enabled, frames := frames } else none

/-- The level of the first controller. -/
def Frame.level (f : Frame ρ) : ℕ := if f.int_no < 40 then f.int_no - 32 else 2

/-- The first controller waits for the end of the interrupt. -/
def Frame.unended (f : Frame ρ) : Bool := !f.todo.isEmpty

/-- The second controller waits for it. -/
def Frame.slaveUnended (f : Frame ρ) : Bool := decide (40 ≤ f.int_no) && decide (2 ≤ f.todo.length)

structure Ready (c : Chip) (base : ℕ) : Prop where
  base : c.base = base
  auto : c.auto = false
  imr : c.imr = 0
  expects : c.expects = .mask

def IsVector (int_no : ℕ) : Prop := 32 ≤ int_no ∧ int_no < 48 ∧ int_no ≠ 34

/-- The levels in service are those of the calls that have not ended their interrupts, and what is
on top of the stack comes first. -/
structure Inv (m : Machine ρ) : Prop where
  master : Ready m.pics.master 0x20
  slave : Ready m.pics.slave 0x28
  frames : ∀ f ∈ m.frames, IsVector f.int_no ∧
    ∃ irq_routines, f.todo <:+ irqHandler irq_routines f.int_no
  order : ((m.frames.filter Frame.unended).map Frame.level).Pairwise (· < ·)
  inService : ∀ i, m.pics.master.isr i = true ↔
    ∃ f ∈ m.frames, f.unended = true ∧ f.level = i
  slaveInService : ∀ j, m.pics.slave.isr j = true ↔
    ∃ f ∈ m.frames, f.slaveUnended = true ∧ f.int_no = 40 + j

variable {m m' : Machine ρ}

theorem acknowledge_cases {p p' : Pair} {v : ℕ} (hm : Ready p.master 0x20)
    (hs : Ready p.slave 0x28) (h : p.acknowledge = some (v, p')) :
    (∃ i, i < 8 ∧ i ≠ 2 ∧ v = 0x20 + i ∧ p.master.irr i = true ∧
      (∀ k ≤ i, p.master.isr k = false) ∧ p' = { p with master := p.master.serve i }) ∨
    ∃ j, j < 8 ∧ v = 0x28 + j ∧ p.slave.irr j = true ∧ (∀ k ≤ 2, p.master.isr k = false) ∧
      (∀ k ≤ j, p.slave.isr k = false) ∧ p' = ⟨p.requested.serve 2, p.slave.serve j⟩ := by
  rw [Pair.acknowledge] at h
  cases hpending : p.requested.pending with
  | none =>
    rw [hpending] at h
    cases h
  | some i =>
    rw [hpending] at h
    obtain ⟨hi, hirr, hisr⟩ := Chip.pending_some hpending
    by_cases h2 : i = 2
    · subst h2
      simp only [if_true] at h
      obtain ⟨j, hj, heq⟩ := Option.map_eq_some_iff.mp h
      obtain ⟨hj8, hjirr, hjisr⟩ := Chip.pending_some hj
      cases heq
      exact .inr ⟨j, hj8, by rw [hs.base], hjirr, hisr, hjisr, rfl⟩
    · simp only [if_neg h2] at h
      cases h
      have hown : p.requested.irr i = p.master.irr i := Function.update_of_ne h2 _ _
      rw [hown] at hirr
      exact .inl ⟨i, hi, h2, by rw [hm.base], hirr, hisr, rfl⟩

theorem handler_suffix {irq_routines : ℕ → Option ρ} {int_no : ℕ} {todo : List (Action ρ)}
    (h : todo <:+ irqHandler irq_routines int_no) :
    todo = [] ∨ todo = [.out 0x20 0x20] ∨ 40 ≤ int_no ∧ todo = [.out 0xA0 0x20, .out 0x20 0x20] ∨
      ∃ r, todo = .routine r ::
        ((if 40 ≤ int_no then [.out 0xA0 0x20] else []) ++ [.out 0x20 0x20]) := by
  have hends : ∀ todo : List (Action ρ),
      todo <:+ (if 40 ≤ int_no then [.out 0xA0 0x20] else []) ++ [.out 0x20 0x20] →
      todo = [] ∨ todo = [.out 0x20 0x20] ∨
        40 ≤ int_no ∧ todo = [.out 0xA0 0x20, .out 0x20 0x20] := by
    intro todo htodo
    split_ifs at htodo with hslave
    · simp only [List.singleton_append, List.suffix_cons_iff, List.suffix_nil] at htodo
      obtain rfl | rfl | rfl := htodo
      · exact .inr (.inr ⟨hslave, rfl⟩)
      · exact .inr (.inl rfl)
      · exact .inl rfl
    · simp only [List.nil_append, List.suffix_cons_iff, List.suffix_nil] at htodo
      obtain rfl | rfl := htodo
      · exact .inr (.inl rfl)
      · exact .inl rfl
  rw [irqHandler] at h
  cases hroutine : irq_routines (int_no - 32) with
  | none =>
    rw [hroutine] at h
    obtain rfl | rfl | hslave := hends todo h
    · exact .inl rfl
    · exact .inr (.inl rfl)
    · exact .inr (.inr (.inl hslave))
  | some r =>
    rw [hroutine] at h
    obtain rfl | htail := List.suffix_cons_iff.mp h
    · exact .inr (.inr (.inr ⟨r, rfl⟩))
    · obtain rfl | rfl | hslave := hends todo htail
      · exact .inl rfl
      · exact .inr (.inl rfl)
      · exact .inr (.inr (.inl hslave))

theorem inv_request (h : Inv m) (n : ℕ) :
    Inv { m with pics := m.pics.request n } := by
  unfold Pair.request
  split_ifs
  · exact ⟨⟨h.master.base, h.master.auto, h.master.imr, h.master.expects⟩, h.slave, h.frames,
      h.order, h.inService, h.slaveInService⟩
  · exact ⟨h.master, ⟨h.slave.base, h.slave.auto, h.slave.imr, h.slave.expects⟩, h.frames,
      h.order, h.inService, h.slaveInService⟩

theorem level_first (h : Inv m) {l : ℕ}
    (hfree : ∀ k ≤ l, m.pics.master.isr k = false) :
    ∀ g ∈ m.frames, g.unended = true → l < g.level := by
  intro g hg hun
  by_contra hle
  have hserved := (h.inService g.level).mpr ⟨g, hg, hun, rfl⟩
  rw [hfree g.level (Nat.not_lt.mp hle)] at hserved
  cases hserved

theorem handler_unended (irq_routines : ℕ → Option ρ) (int_no : ℕ) :
    (irqHandler irq_routines int_no).isEmpty = false ∧
      (40 ≤ int_no → 2 ≤ (irqHandler irq_routines int_no).length) := by
  rw [irqHandler]
  refine ⟨by simp, fun h => ?_⟩
  rw [if_pos h]
  simp

theorem update_true {isr : ℕ → Bool} {l i : ℕ} :
    Function.update isr l true i = true ↔ i = l ∨ isr i = true := by
  by_cases h : i = l
  · simp [h]
  · simp [h]

theorem update_false {isr : ℕ → Bool} {l i : ℕ} :
    Function.update isr l false i = true ↔ i ≠ l ∧ isr i = true := by
  by_cases h : i = l
  · simp [h]
  · simp [h]

theorem inv_accept (h : Inv m) {v : ℕ} {pics : Pair} (hack : m.pics.acknowledge = some (v, pics)) :
    Inv { m with
      pics := pics
      enabled := false
      frames := ⟨v, irqHandler m.irq_routines v, true⟩ :: m.frames } := by
  obtain ⟨f, hf⟩ : ∃ f : Frame ρ, f = ⟨v, irqHandler m.irq_routines v, true⟩ := ⟨_, rfl⟩
  have hint : f.int_no = v := by rw [hf]
  obtain ⟨hempty, hlong⟩ := handler_unended m.irq_routines v
  have hun : f.unended = true := by
    rw [hf]
    simp [Frame.unended, hempty]
  have hframes (hv : IsVector v) : ∀ f' ∈ f :: m.frames, IsVector f'.int_no ∧
      ∃ irq_routines, f'.todo <:+ irqHandler irq_routines f'.int_no := by
    refine List.forall_mem_cons.mpr ⟨⟨hint ▸ hv, m.irq_routines, ?_⟩, h.frames⟩
    rw [hf]
  have horder {l : ℕ} (hlevel : f.level = l) (hfree : ∀ k ≤ l, m.pics.master.isr k = false) :
      (((f :: m.frames).filter Frame.unended).map Frame.level).Pairwise (· < ·) := by
    rw [List.filter_cons_of_pos hun, List.map_cons, List.pairwise_cons]
    refine ⟨fun a ha => ?_, h.order⟩
    obtain ⟨g, hg, rfl⟩ := List.mem_map.mp ha
    obtain ⟨hgm, hgun⟩ := List.mem_filter.mp hg
    rw [hlevel]
    exact level_first h hfree g hgm hgun
  rw [← hf]
  obtain ⟨i, hi, h2, rfl, -, hfree, rfl⟩ | ⟨j, hj, rfl, -, hfree, -, rfl⟩ :=
    acknowledge_cases h.master h.slave hack
  · have hlevel : f.level = i := by
      rw [Frame.level, hint, if_pos (by omega : 0x20 + i < 40), Nat.add_sub_cancel_left]
    refine ⟨⟨h.master.base, h.master.auto, h.master.imr, h.master.expects⟩, h.slave,
      hframes ⟨by omega, by omega, by omega⟩, horder hlevel hfree, fun k => ?_, fun k => ?_⟩
    · have hserve : (m.pics.master.serve i).isr = Function.update m.pics.master.isr i true := by
        simp only [Chip.serve, h.master.auto, Bool.false_eq_true, if_false]
      rw [hserve, update_true, h.inService k, List.exists_mem_cons_iff, hlevel]
      simp only [hun, true_and, eq_comm]
    · have hno : f.slaveUnended = false := by
        have hlow : ¬40 ≤ f.int_no := by omega
        simp [Frame.slaveUnended, hlow]
      rw [h.slaveInService k, List.exists_mem_cons_iff, hno]
      simp
  · have hlevel : f.level = 2 := by
      rw [Frame.level, hint, if_neg (by omega : ¬0x28 + j < 40)]
    refine ⟨⟨h.master.base, h.master.auto, h.master.imr, h.master.expects⟩,
      ⟨h.slave.base, h.slave.auto, h.slave.imr, h.slave.expects⟩,
      hframes ⟨by omega, by omega, by omega⟩, horder hlevel hfree, fun k => ?_, fun k => ?_⟩
    · have hserve : (m.pics.requested.serve 2).isr = Function.update m.pics.master.isr 2 true := by
        have hauto : m.pics.requested.auto = false := h.master.auto
        simp only [Chip.serve, hauto, Bool.false_eq_true, if_false]
        rfl
      rw [hserve, update_true, h.inService k, List.exists_mem_cons_iff, hlevel]
      simp only [hun, true_and, eq_comm]
    · have hserve : (m.pics.slave.serve j).isr = Function.update m.pics.slave.isr j true := by
        simp only [Chip.serve, h.slave.auto, Bool.false_eq_true, if_false]
      have hyes : f.slaveUnended = true := by
        have hhigh : 40 ≤ f.int_no := by omega
        have htodo : 2 ≤ f.todo.length := by
          rw [hf]
          exact hlong (hint ▸ hhigh)
        simp [Frame.slaveUnended, hhigh, htodo]
      rw [hserve, update_true, h.slaveInService k, List.exists_mem_cons_iff, hyes, hint]
      have hsame : (0x28 + j = 40 + k) ↔ k = j := by omega
      simp only [hsame, true_and]

section Top

variable {f : Frame ρ} {todo : List (Action ρ)} {frames : List (Frame ρ)}

/-- The call on top of the stack goes on, and the first controller still waits for it if it has
done so before. -/
theorem master_goes_on (h : Inv m) (hm : m.frames = f :: frames)
    (hun : Frame.unended { f with todo := todo } = f.unended) :
    ((({ f with todo := todo } :: frames : List (Frame ρ)).filter Frame.unended).map
      Frame.level).Pairwise (· < ·) ∧
    ∀ i, m.pics.master.isr i = true ↔ ∃ g ∈ ({ f with todo := todo } :: frames : List (Frame ρ)),
      g.unended = true ∧ g.level = i := by
  constructor
  · have horder := h.order
    rw [hm] at horder
    simp only [List.filter_cons, hun] at horder ⊢
    split_ifs at horder ⊢ <;> exact horder
  · intro i
    rw [h.inService i, hm, List.exists_mem_cons_iff, List.exists_mem_cons_iff, hun]
    rfl

theorem inv_goes_on (h : Inv m) (hm : m.frames = f :: frames) (htodo : todo <:+ f.todo)
    (hun : Frame.unended { f with todo := todo } = f.unended)
    (hslave : Frame.slaveUnended { f with todo := todo } = f.slaveUnended) :
    Inv { m with frames := { f with todo := todo } :: frames } := by
  obtain ⟨⟨hv, irq_routines, hsuffix⟩, hrest⟩ := List.forall_mem_cons.mp (hm ▸ h.frames)
  obtain ⟨horder, hservice⟩ := master_goes_on h hm hun
  refine ⟨h.master, h.slave,
    List.forall_mem_cons.mpr ⟨⟨hv, irq_routines, htodo.trans hsuffix⟩, hrest⟩, horder, hservice,
    fun j => ?_⟩
  rw [h.slaveInService j, hm, List.exists_mem_cons_iff, List.exists_mem_cons_iff, hslave]

theorem below_later (h : Inv m) (hm : m.frames = f :: frames) (hun : f.unended = true) :
    ∀ g ∈ frames, g.unended = true → f.level < g.level := by
  intro g hg hgun
  have horder := h.order
  rw [hm, List.filter_cons_of_pos hun, List.map_cons, List.pairwise_cons] at horder
  exact horder.1 _ (List.mem_map_of_mem (List.mem_filter.mpr ⟨hg, hgun⟩))

theorem master_ends (h : Inv m) (hm : m.frames = f :: frames) (hun : f.unended = true) :
    m.pics.master.command 0x20 =
      { m.pics.master with isr := Function.update m.pics.master.isr f.level false } := by
  have hv := (h.frames f (hm ▸ List.mem_cons_self)).1
  have hlevel : f.level < 8 := by
    obtain ⟨hlow, hhigh, -⟩ := hv
    rw [Frame.level]
    split_ifs <;> omega
  have hown := (h.inService f.level).mpr ⟨f, hm ▸ List.mem_cons_self, hun, rfl⟩
  refine Chip.endOfInterrupt_first hlevel hown fun k hk => ?_
  by_contra hserved
  obtain ⟨g, hg, hgun, rfl⟩ := (h.inService k).mp (Bool.of_not_eq_false hserved)
  rw [hm] at hg
  obtain rfl | hg := List.mem_cons.mp hg
  · omega
  · have hlater := below_later h hm hun g hg hgun
    omega

theorem slaveUnended_iff {g : Frame ρ} :
    g.slaveUnended = true ↔ 40 ≤ g.int_no ∧ 2 ≤ g.todo.length := by
  rw [Frame.slaveUnended, Bool.and_eq_true, decide_eq_true_iff, decide_eq_true_iff]

theorem slaveUnended_level {g : Frame ρ} (h : g.slaveUnended = true) :
    g.unended = true ∧ g.level = 2 := by
  obtain ⟨hint, hlen⟩ := slaveUnended_iff.mp h
  constructor
  · cases htodo : g.todo with
    | nil =>
      rw [htodo] at hlen
      cases hlen
    | cons a todo => rw [Frame.unended, htodo, List.isEmpty_cons, Bool.not_false]
  · rw [Frame.level, if_neg (Nat.not_lt.mpr hint)]

theorem slave_only (h : Inv m) (hm : m.frames = f :: frames) (hun : f.slaveUnended = true) :
    ∀ g ∈ frames, g.slaveUnended = false := by
  intro g hg
  by_contra hgun
  obtain ⟨hfirst, hlevel⟩ := slaveUnended_level hun
  obtain ⟨hgfirst, hglevel⟩ := slaveUnended_level (Bool.of_not_eq_false hgun)
  have hlater := below_later h hm hfirst g hg hgfirst
  omega

theorem slave_ends (h : Inv m) (hm : m.frames = f :: frames) (hun : f.slaveUnended = true) :
    m.pics.slave.command 0x20 =
      { m.pics.slave with isr := Function.update m.pics.slave.isr (f.int_no - 40) false } := by
  obtain ⟨hlow, hhigh, -⟩ := (h.frames f (hm ▸ List.mem_cons_self)).1
  have hint := (slaveUnended_iff.mp hun).1
  have hown := (h.slaveInService (f.int_no - 40)).mpr
    ⟨f, hm ▸ List.mem_cons_self, hun, by omega⟩
  refine Chip.endOfInterrupt_first (by omega) hown fun k hk => ?_
  by_contra hserved
  obtain ⟨g, hg, hgun, hgint⟩ := (h.slaveInService k).mp (Bool.of_not_eq_false hserved)
  rw [hm] at hg
  obtain rfl | hg := List.mem_cons.mp hg
  · omega
  · rw [slave_only h hm hun g hg] at hgun
    cases hgun

theorem inv_master_out (h : Inv m) (hm : m.frames = f :: frames)
    (htodo : f.todo = [.out 0x20 0x20]) :
    Inv { m with
      pics := m.pics.out 0x20 0x20
      frames := { f with todo := [] } :: frames } := by
  have hun : f.unended = true := by rw [Frame.unended, htodo, List.isEmpty_cons, Bool.not_false]
  have hslave : f.slaveUnended = false := by
    simp [Frame.slaveUnended, htodo]
  have hends := master_ends h hm hun
  obtain ⟨⟨hv, irq_routines, hsuffix⟩, hrest⟩ := List.forall_mem_cons.mp (hm ▸ h.frames)
  have hout : m.pics.out 0x20 0x20 = { m.pics with master := { m.pics.master with
      isr := Function.update m.pics.master.isr f.level false } } := by
    rw [← hends]
    rfl
  rw [hout]
  refine ⟨⟨h.master.base, h.master.auto, h.master.imr, h.master.expects⟩, h.slave,
    List.forall_mem_cons.mpr ⟨⟨hv, irq_routines, List.nil_suffix⟩, hrest⟩, ?_,
    fun i => ?_, fun j => ?_⟩
  · have horder := h.order
    rw [hm, List.filter_cons_of_pos hun, List.map_cons, List.pairwise_cons] at horder
    rw [List.filter_cons_of_neg (by simp [Frame.unended])]
    exact horder.2
  · rw [update_false, h.inService i, hm, List.exists_mem_cons_iff, List.exists_mem_cons_iff]
    constructor
    · rintro ⟨hne, ⟨-, rfl⟩ | hbelow⟩
      · exact absurd rfl hne
      · exact .inr hbelow
    · rintro (⟨hnone, -⟩ | ⟨g, hg, hgun, rfl⟩)
      · cases hnone
      · exact ⟨(below_later h hm hun g hg hgun).ne', .inr ⟨g, hg, hgun, rfl⟩⟩
  · rw [h.slaveInService j, hm, List.exists_mem_cons_iff, List.exists_mem_cons_iff, hslave]
    simp [Frame.slaveUnended]

theorem inv_slave_out (h : Inv m) (hm : m.frames = f :: frames) (hint : 40 ≤ f.int_no)
    (htodo : f.todo = [.out 0xA0 0x20, .out 0x20 0x20]) :
    Inv { m with
      pics := m.pics.out 0xA0 0x20
      frames := { f with todo := [.out 0x20 0x20] } :: frames } := by
  have hun : f.unended = true := by rw [Frame.unended, htodo, List.isEmpty_cons, Bool.not_false]
  have hslave : f.slaveUnended = true := by
    rw [slaveUnended_iff, htodo]
    exact ⟨hint, le_rfl⟩
  have hends := slave_ends h hm hslave
  have honly := slave_only h hm hslave
  obtain ⟨⟨hv, irq_routines, hsuffix⟩, hrest⟩ := List.forall_mem_cons.mp (hm ▸ h.frames)
  have hstays : ({ f with todo := [.out 0x20 0x20] } : Frame ρ).unended = f.unended := by
    rw [hun, Frame.unended, List.isEmpty_cons, Bool.not_false]
  obtain ⟨horder, hservice⟩ := master_goes_on h hm hstays
  have hout : m.pics.out 0xA0 0x20 = { m.pics with slave := { m.pics.slave with
      isr := Function.update m.pics.slave.isr (f.int_no - 40) false } } := by
    rw [← hends]
    rfl
  have htail : ([.out 0x20 0x20] : List (Action ρ)) <:+ f.todo := htodo ▸ List.suffix_cons _ _
  rw [hout]
  refine ⟨h.master, ⟨h.slave.base, h.slave.auto, h.slave.imr, h.slave.expects⟩,
    List.forall_mem_cons.mpr ⟨⟨hv, irq_routines, htail.trans hsuffix⟩, hrest⟩, horder, hservice,
    fun j => ?_⟩
  rw [update_false, h.slaveInService j, hm, List.exists_mem_cons_iff, List.exists_mem_cons_iff]
  constructor
  · rintro ⟨hne, ⟨-, hj⟩ | hbelow⟩
    · omega
    · exact .inr hbelow
  · rintro (⟨hnone, -⟩ | ⟨g, hg, hgun, -⟩)
    · simp [Frame.slaveUnended] at hnone
    · rw [honly g hg] at hgun
      cases hgun

theorem inv_iret (h : Inv m) (hm : m.frames = f :: frames) (htodo : f.todo = []) (enabled : Bool) :
    Inv { m with enabled := enabled, frames := frames } := by
  have hun : f.unended = false := by rw [Frame.unended, htodo, List.isEmpty_nil, Bool.not_true]
  have hslave : f.slaveUnended = false := by simp [Frame.slaveUnended, htodo]
  refine ⟨h.master, h.slave, (List.forall_mem_cons.mp (hm ▸ h.frames)).2, ?_, fun i => ?_,
    fun j => ?_⟩
  · have horder := h.order
    rwa [hm, List.filter_cons_of_neg (by rw [hun]; exact Bool.false_ne_true)] at horder
  · rw [h.inService i, hm, List.exists_mem_cons_iff, hun]
    simp
  · rw [h.slaveInService j, hm, List.exists_mem_cons_iff, hslave]
    simp

end Top

theorem inv_act (h : Inv m) (hstep : step m .act = some m') : Inv m' := by
  cases hm : m.frames with
  | nil =>
    simp only [step, hm] at hstep
    cases hstep
  | cons f frames =>
    obtain ⟨hv, irq_routines, hsuffix⟩ := h.frames f (hm ▸ List.mem_cons_self)
    simp only [step, hm] at hstep
    obtain htodo | htodo | ⟨hint, htodo⟩ | ⟨r, htodo⟩ := handler_suffix hsuffix
    · rw [htodo] at hstep
      cases hstep
    · rw [htodo] at hstep
      cases hstep
      exact inv_master_out h hm htodo
    · rw [htodo] at hstep
      cases hstep
      exact inv_slave_out h hm hint htodo
    · rw [htodo] at hstep
      cases hstep
      refine inv_goes_on h hm (htodo ▸ List.suffix_cons _ _) ?_ ?_
      · simp [Frame.unended, htodo]
      · simp only [Frame.slaveUnended, htodo]
        by_cases hint : 40 ≤ f.int_no
        · simp [hint]
        · simp [hint]

theorem inv_step {e : Event ρ} (h : Inv m) (hstep : step m e = some m') : Inv m' := by
  cases e with
  | request n =>
    simp only [step] at hstep
    split_ifs at hstep
    cases hstep
    exact inv_request h n
  | accept =>
    simp only [step] at hstep
    split_ifs at hstep
    obtain ⟨⟨v, pics⟩, hack, rfl⟩ := Option.map_eq_some_iff.mp hstep
    exact inv_accept h hack
  | flag enabled =>
    simp only [step] at hstep
    split_ifs at hstep
    cases hstep
    exact ⟨h.master, h.slave, h.frames, h.order, h.inService, h.slaveInService⟩
  | install irq handler =>
    simp only [step] at hstep
    split_ifs at hstep
    cases hstep
    exact ⟨h.master, h.slave, h.frames, h.order, h.inService, h.slaveInService⟩
  | act => exact inv_act h hstep
  | iret =>
    cases hm : m.frames with
    | nil =>
      simp only [step, hm] at hstep
      cases hstep
    | cons f frames =>
      simp only [step, hm] at hstep
      split_ifs at hstep with htodo
      cases hstep
      exact inv_iret h hm (List.isEmpty_iff.mp htodo) _

/-- The machine after `irq_install`, in whatever state the controllers were. -/
def remapped (irq_routines : ℕ → Option ρ) (pics : Pair) (enabled : Bool) : Machine ρ :=
  ⟨irq_routines, irqRemap.foldl (fun p b => p.out b.1 b.2) pics, enabled, []⟩

theorem remap_chips (p : Pair) : irqRemap.foldl (fun p b => p.out b.1 b.2) p =
    ⟨⟨fun _ => false, fun _ => false, 0, 0x20, false, .mask⟩,
      ⟨fun _ => false, fun _ => false, 0, 0x28, false, .mask⟩⟩ := rfl

theorem inv_remapped (irq_routines : ℕ → Option ρ) (pics : Pair) (enabled : Bool) :
    Inv (remapped irq_routines pics enabled) := by
  rw [remapped, remap_chips]
  refine ⟨⟨rfl, rfl, rfl, rfl⟩, ⟨rfl, rfl, rfl, rfl⟩, fun f hf => absurd hf List.not_mem_nil,
    List.Pairwise.nil, fun i => ?_, fun j => ?_⟩
  · simp
  · simp

theorem level_lt {f : Frame ρ} (h : IsVector f.int_no) : f.level < 8 := by
  obtain ⟨hlow, hhigh, -⟩ := h
  rw [Frame.level]
  split_ifs <;> omega

theorem unended_bounded (h : Inv m) : (m.frames.filter Frame.unended).length ≤ 8 := by
  have hnodup : ((m.frames.filter Frame.unended).map Frame.level).Nodup :=
    h.order.imp Nat.ne_of_lt
  have hrange : ((m.frames.filter Frame.unended).map Frame.level).toFinset ⊆ Finset.range 8 := by
    intro l hl
    obtain ⟨f, hf, rfl⟩ := List.mem_map.mp (List.mem_toFinset.mp hl)
    exact Finset.mem_range.mpr (level_lt (h.frames f (List.mem_filter.mp hf).1).1)
  have hcard := Finset.card_le_card hrange
  rwa [List.toFinset_card_of_nodup hnodup, List.length_map, Finset.card_range] at hcard

theorem idle_accepts (h : Inv m) (hm : m.frames = []) (henabled : m.enabled = true) {n : ℕ}
    (hn : n < 16) (h2 : n ≠ 2) (hreq : m.pics.requests n = true) :
    ∃ m', step m .accept = some m' := by
  have hmaster : ∀ i, m.pics.master.isr i = false := by
    intro i
    by_contra hserved
    obtain ⟨f, hf, -⟩ := (h.inService i).mp (Bool.of_not_eq_false hserved)
    rw [hm] at hf
    cases hf
  have hslave : ∀ j, m.pics.slave.isr j = false := by
    intro j
    by_contra hserved
    obtain ⟨f, hf, -⟩ := (h.slaveInService j).mp (Bool.of_not_eq_false hserved)
    rw [hm] at hf
    cases hf
  obtain ⟨a, ha⟩ := Pair.acknowledge_of_requests hn h2 hreq h.master.imr h.slave.imr hmaster hslave
  rw [step, if_pos henabled, ha]
  exact ⟨_, rfl⟩

theorem requests_request {p : Pair} {n : ℕ} (k : ℕ) (h : p.requests n = true) :
    (p.request k).requests n = true := by
  rw [Pair.requests] at h ⊢
  unfold Pair.request
  by_cases hn : n < 8
  · rw [if_pos hn] at h ⊢
    split_ifs
    · exact update_true.mpr (.inr h)
    · exact h
  · rw [if_neg hn] at h ⊢
    split_ifs
    · exact h
    · exact update_true.mpr (.inr h)

theorem requests_act (h : Inv m) (hstep : step m .act = some m') (n : ℕ) :
    m'.pics.requests n = m.pics.requests n := by
  cases hm : m.frames with
  | nil =>
    simp only [step, hm] at hstep
    cases hstep
  | cons f frames =>
    obtain ⟨-, irq_routines, hsuffix⟩ := h.frames f (hm ▸ List.mem_cons_self)
    simp only [step, hm] at hstep
    obtain htodo | htodo | ⟨-, htodo⟩ | ⟨r, htodo⟩ := handler_suffix hsuffix
    · rw [htodo] at hstep
      cases hstep
    · rw [htodo] at hstep
      cases hstep
      exact congrArg (fun irr => if n < 8 then irr n else m.pics.slave.irr (n - 8))
        m.pics.master.endOfInterrupt_irr
    · rw [htodo] at hstep
      cases hstep
      exact congrArg (fun irr => if n < 8 then m.pics.master.irr n else irr (n - 8))
        m.pics.slave.endOfInterrupt_irr
    · rw [htodo] at hstep
      cases hstep
      rfl

theorem requests_acknowledge (h : Inv m) {v n : ℕ} {pics : Pair}
    (hack : m.pics.acknowledge = some (v, pics)) (hn : n < 16) (h2 : n ≠ 2)
    (hreq : m.pics.requests n = true) : pics.requests n = true ∨ v = 32 + n := by
  rw [Pair.requests] at hreq
  obtain ⟨i, hi, hi2, rfl, -, -, rfl⟩ | ⟨j, hj, rfl, -, -, -, rfl⟩ :=
    acknowledge_cases h.master h.slave hack
  · by_cases heq : n = i
    · exact .inr (by rw [heq])
    · refine .inl ?_
      rw [Pair.requests]
      split_ifs at hreq ⊢ with h8
      · exact (Function.update_of_ne heq _ _).trans hreq
      · exact hreq
  · by_cases heq : n = 8 + j
    · exact .inr (by omega)
    · refine .inl ?_
      rw [Pair.requests]
      split_ifs at hreq ⊢ with h8
      · exact (Function.update_of_ne h2 _ _).trans ((Function.update_of_ne h2 _ _).trans hreq)
      · exact (Function.update_of_ne (by omega) _ _).trans hreq

theorem requests_step (h : Inv m) {e : Event ρ} (hstep : step m e = some m') {n : ℕ}
    (hn : n < 16) (h2 : n ≠ 2) (hreq : m.pics.requests n = true) :
    m'.pics.requests n = true ∨ e = .accept ∧
      m'.frames = ⟨32 + n, irqHandler m.irq_routines (32 + n), true⟩ :: m.frames := by
  cases e with
  | request k =>
    simp only [step] at hstep
    split_ifs at hstep
    cases hstep
    exact .inl (requests_request k hreq)
  | accept =>
    simp only [step] at hstep
    split_ifs at hstep
    obtain ⟨⟨v, pics⟩, hack, rfl⟩ := Option.map_eq_some_iff.mp hstep
    refine (requests_acknowledge h hack hn h2 hreq).imp id ?_
    rintro rfl
    exact ⟨rfl, rfl⟩
  | flag enabled =>
    simp only [step] at hstep
    split_ifs at hstep
    cases hstep
    exact .inl hreq
  | install irq handler =>
    simp only [step] at hstep
    split_ifs at hstep
    cases hstep
    exact .inl hreq
  | act => exact .inl ((requests_act h hstep n).trans hreq)
  | iret =>
    cases hm : m.frames with
    | nil =>
      simp only [step, hm] at hstep
      cases hstep
    | cons f frames =>
      simp only [step, hm] at hstep
      split_ifs at hstep with htodo
      cases hstep
      exact .inl hreq

/-- Runs of the machine after `irq_install`. -/
abbrev Steps (m : Machine ρ) (es : List (Event ρ)) (m' : Machine ρ) : Prop :=
  Run (fun m e m' => step m e = some m') m es m'

variable {irq_routines : ℕ → Option ρ} {pics : Pair} {enabled : Bool} {es es' : List (Event ρ)}

theorem inv_steps (h : Steps (remapped irq_routines pics enabled) es m) : Inv m :=
  h.invariant (fun _ _ _ hinv hstep => inv_step hinv hstep) (inv_remapped irq_routines pics enabled)

/-- In every run the levels in service are those of the calls of `irq_handler` that have not ended
their interrupts. Each of these comes before those that it has interrupted, at most eight are there
at once, and where all have returned any request is accepted. -/
theorem service_tracks_handlers (h : Steps (remapped irq_routines pics enabled) es m) :
    (∀ i, m.pics.master.isr i = true ↔ ∃ f ∈ m.frames, f.unended = true ∧ f.level = i) ∧
    (∀ j, m.pics.slave.isr j = true ↔
      ∃ f ∈ m.frames, f.slaveUnended = true ∧ f.int_no = 40 + j) ∧
    ((m.frames.filter Frame.unended).map Frame.level).Pairwise (· < ·) ∧
    (m.frames.filter Frame.unended).length ≤ 8 ∧
    (m.frames = [] → m.enabled = true → ∀ n < 16, n ≠ 2 → m.pics.requests n = true →
      ∃ m', step m .accept = some m') := by
  have hinv := inv_steps h
  exact ⟨hinv.inService, hinv.slaveInService, hinv.order, unended_bounded hinv,
    fun hm henabled n hn h2 hreq => idle_accepts hinv hm henabled hn h2 hreq⟩

def deviceRoutines (n : ℕ) : Option Unit := if n = 0 ∨ n = 1 ∨ n = 4 then some () else none

def booted : Machine Unit :=
  let chip : Chip := ⟨fun _ => false, fun _ => false, 0xFF, 8, false, .mask⟩
  remapped deviceRoutines ⟨chip, chip⟩ true

theorem keyboard_interrupts_serial :
    ∃ m, Steps booted [.request 4, .accept, .flag true, .request 12, .accept, .act, .act, .iret,
        .request 1, .accept] m ∧
      m.frames.map Frame.int_no = [33, 36] ∧ m.pics.master.isr 1 = true ∧
      m.pics.master.isr 4 = true ∧ m.pics.slave.isr 4 = false := by
  have hrun : Steps booted [.request 4, .accept, .flag true, .request 12, .accept, .act, .act,
      .iret, .request 1, .accept] _ :=
    .cons rfl (.cons rfl (.cons rfl (.cons rfl (.cons rfl (.cons rfl (.cons rfl (.cons rfl
      (.cons rfl (.cons rfl (.nil _))))))))))
  obtain ⟨hmaster, hslave, -⟩ := service_tracks_handlers hrun
  refine ⟨_, hrun, rfl, (hmaster 1).mpr ?_, (hmaster 4).mpr ?_, ?_⟩
  · exact ⟨_, .head _, rfl, rfl⟩
  · exact ⟨_, .tail _ (.head _), rfl, rfl⟩
  · refine Bool.of_not_eq_true fun h => ?_
    obtain ⟨f, hf, hun, -⟩ := (hslave 4).mp h
    obtain rfl | hf := List.mem_cons.mp hf
    · cases hun
    obtain rfl | hf := List.mem_cons.mp hf
    · cases hun
    · cases hf

/-- No request is lost: from where it is made, a run keeps it up to the step that enters
`irq_handler` for it. -/
theorem request_kept (h : Steps (remapped irq_routines pics enabled) es m) {n : ℕ} (hn : n < 16)
    (h2 : n ≠ 2) (hreq : m.pics.requests n = true) (h' : Steps m es' m') :
    m'.pics.requests n = true ∨ ∃ before after k k', es' = before ++ .accept :: after ∧
      Steps m before k ∧ step k .accept = some k' ∧ Steps k' after m' ∧
      k'.frames = ⟨32 + n, irqHandler k.irq_routines (32 + n), true⟩ :: k.frames := by
  have hinv := inv_steps h
  clear h
  induction h' with
  | nil m => exact .inl hreq
  | @cons m k m' e es' hstep hrest ih =>
    obtain hkept | ⟨rfl, hframes⟩ := requests_step hinv hstep hn h2 hreq
    · obtain hlast | ⟨before, after, l, l', rfl, hbefore, hl, hafter, hframes⟩ :=
        ih hkept (inv_step hinv hstep)
      · exact .inl hlast
      · exact .inr ⟨e :: before, after, l, l', rfl, .cons hstep hbefore, hl, hafter, hframes⟩
    · exact .inr ⟨[], es', m, k, rfl, .nil m, hstep, hrest, hframes⟩

theorem keyboard_waits_for_serial :
    ∃ m m', Steps booted [.request 4, .accept, .request 1] m ∧
      Steps m [.act, .act, .iret, .accept] m' ∧
      ∃ before after k k', [.act, .act, .iret, .accept] = before ++ .accept :: after ∧
        Steps m before k ∧ step k .accept = some k' ∧ Steps k' after m' ∧
        k'.frames = ⟨33, irqHandler k.irq_routines 33, true⟩ :: k.frames := by
  have hrun : Steps booted [.request 4, .accept, .request 1] _ :=
    .cons rfl (.cons rfl (.cons rfl (.nil _)))
  refine ⟨_, _, hrun, .cons rfl (.cons rfl (.cons rfl (.cons rfl (.nil _)))), ?_⟩
  refine (request_kept hrun (by decide : 1 < 16) (by decide) rfl
    (.cons rfl (.cons rfl (.cons rfl (.cons rfl (.nil _)))))).resolve_left ?_
  intro h
  cases h

end Machine

end Jiauliyan.IrqRuns
