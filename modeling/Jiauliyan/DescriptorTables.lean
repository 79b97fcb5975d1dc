import Jiauliyan.CString
import Jiauliyan.InterruptStubs

namespace Jiauliyan.DescriptorTables

open Jiauliyan.Memory Jiauliyan.CString Jiauliyan.X86 Jiauliyan.InterruptStubs

structure Descriptor where
  base : ℕ
  limit : ℕ
  access : ℕ
  flags : ℕ

def descriptorAt (m : Mem) (a : ℕ) : Descriptor where
  base := load16 m (a + 2) + 65536 * (m (a + 4)).toNat + 16777216 * (m (a + 7)).toNat
  limit := load16 m a + 65536 * ((m (a + 6)).toNat % 16)
  access := (m (a + 5)).toNat
  flags := (m (a + 6)).toNat / 16

/-- The highest offset in a segment; a flag says whether the limit counts pages. -/
def Descriptor.last (d : Descriptor) : ℕ :=
  if d.flags / 8 % 2 = 1 then d.limit * 4096 + 4095 else d.limit

def gdtSetGate (gdt num base limit : ℕ) (access gran : UInt8) (m : Mem) : Mem :=
  let e := gdt + 8 * num
  let m := store16 m (e + 2) (base % 65536)
  let m := Function.update m (e + 4) (UInt8.ofNat (base / 65536 % 256))
  let m := Function.update m (e + 7) (UInt8.ofNat (base / 16777216 % 256))
  let m := store16 m e (limit % 65536)
  let m := Function.update m (e + 6) (UInt8.ofNat (limit / 65536 % 16))
  let m := Function.update m (e + 6) (m (e + 6) ||| (gran &&& 0xF0))
  Function.update m (e + 5) access

/-- `gdt_install`, up to the call of `gdt_flush`. -/
def gdtInstall (gp gdt : ℕ) (m : Mem) : Mem :=
  let m := store16 m gp (8 * 3 - 1)
  let m := store32 m (gp + 2) gdt
  let m := gdtSetGate gdt 0 0 0 0 0 m
  let m := gdtSetGate gdt 1 0 0xFFFFFFFF 0x9A 0xCF m
  gdtSetGate gdt 2 0 0xFFFFFFFF 0x92 0xCF m

def gdtFlush (gp : ℕ) (flush2 : UInt32) : List Instr :=
  ([.lgdt gp, .movAx 0x10, .movSeg .ds, .movSeg .es, .movSeg .fs, .movSeg .gs,
    .movSeg .ss] : List Op).map .op ++ [.farJmp 0x08 flush2]

def idtSetGate (idt num base sel : ℕ) (flags : UInt8) (m : Mem) : Mem :=
  let e := idt + 8 * num
  let m := store16 m e (base % 65536)
  let m := store16 m (e + 6) (base / 65536 % 65536)
  let m := store16 m (e + 2) sel
  let m := Function.update m (e + 4) 0
  Function.update m (e + 5) flags

def idtInstall (idtp idt : ℕ) (m : Mem) : Mem :=
  let m := store16 m idtp (8 * 256 - 1)
  let m := store32 m (idtp + 2) idt
  memset m idt 0 (8 * 256)

def setGates (idt first : ℕ) (routine : ℕ → UInt32) (n : ℕ) (m : Mem) : Mem :=
  (List.range n).foldl (fun m i => idtSetGate idt (first + i) (routine i).toNat 0x08 0x8E m) m

def isrsInstall (idt : ℕ) (isr : ℕ → UInt32) (m : Mem) : Mem := setGates idt 0 isr 32 m

def irqInstall (idt : ℕ) (irq : ℕ → UInt32) (m : Mem) : Mem := setGates idt 32 irq 16 m

variable {m : Mem} {a x v : ℕ}

theorem store16_frame (hx : x < a ∨ a + 2 ≤ x) : store16 m a v x = m x := by
  rw [store16, Function.update_of_ne (by omega), Function.update_of_ne (by omega)]

theorem store16_low : store16 m a v a = UInt8.ofNat v := by
  rw [store16, Function.update_of_ne (by omega), Function.update_self]

theorem store16_high : store16 m a v (a + 1) = UInt8.ofNat (v / 256) := by
  rw [store16, Function.update_self]

theorem load16_congr {m' : Mem} (h : ∀ x, a ≤ x → x < a + 2 → m' x = m x) :
    load16 m' a = load16 m a := by
  rw [load16, load16, h a (by omega) (by omega), h (a + 1) (by omega) (by omega)]

theorem load16_store16 : load16 (store16 m a v) a = v % 65536 := by
  rw [load16, store16_low, store16_high, UInt8.toNat_ofNat', UInt8.toNat_ofNat']
  omega

theorem idtSetGate_frame {idt num base sel : ℕ} {flags : UInt8}
    (hx : x < idt + 8 * num ∨ idt + 8 * num + 8 ≤ x) :
    idtSetGate idt num base sel flags m x = m x := by
  rw [idtSetGate, Function.update_of_ne (by omega), Function.update_of_ne (by omega),
    store16_frame (by omega), store16_frame (by omega), store16_frame (by omega)]

theorem gateAt_congr {m' : Mem} (h : ∀ x, a ≤ x → x < a + 8 → m' x = m x) :
    gateAt m' a = gateAt m a := by
  rw [gateAt, gateAt, load16_congr fun x _ _ => h x (by omega) (by omega),
    load16_congr (a := a + 6) fun x _ _ => h x (by omega) (by omega),
    load16_congr (a := a + 2) fun x _ _ => h x (by omega) (by omega),
    h (a + 5) (by omega) (by omega)]

theorem gateAt_set (idt num : ℕ) {base sel : ℕ} (flags : UInt8) (hbase : base < 4294967296)
    (hsel : sel < 65536) :
    gateAt (idtSetGate idt num base sel flags m) (idt + 8 * num) = ⟨base, sel, flags.toNat⟩ := by
  have hbytes : gateAt (idtSetGate idt num base sel flags m) (idt + 8 * num) =
      ⟨base % 256 + 256 * (base / 256 % 256) + 65536 *
        (base / 65536 % 256 + 256 * (base / 16777216 % 256)), sel % 256 + 256 * (sel / 256 % 256),
          flags.toNat⟩ := by
    unfold idtSetGate
    generalize idt + 8 * num = e
    simp [gateAt, load16, store16, Nat.add_assoc]
    omega
  rw [hbytes]
  congr 1 <;> omega

theorem gateAt_other (idt : ℕ) {num num' base sel : ℕ} (flags : UInt8) (h : num' ≠ num) :
    gateAt (idtSetGate idt num base sel flags m) (idt + 8 * num') = gateAt m (idt + 8 * num') :=
  gateAt_congr fun x _ _ => idtSetGate_frame (by omega)

theorem gateAt_setGates (idt first : ℕ) (routine : ℕ → UInt32) (n k : ℕ) :
    gateAt (setGates idt first routine n m) (idt + 8 * k) =
      if first ≤ k ∧ k < first + n then ⟨(routine (k - first)).toNat, 0x08, 0x8E⟩
      else gateAt m (idt + 8 * k) := by
  induction n with
  | zero => rw [if_neg (by omega)]; rfl
  | succ n ih =>
    rw [setGates, List.range_succ, List.foldl_append, List.foldl_cons, List.foldl_nil, ← setGates]
    by_cases hk : k = first + n
    · rw [hk, gateAt_set idt (first + n) 0x8E (routine n).toNat_lt (by decide),
        if_pos (by omega), Nat.add_sub_cancel_left]
      rfl
    · rw [gateAt_other idt _ hk, ih]
      by_cases hin : first ≤ k ∧ k < first + n
      · rw [if_pos hin, if_pos (by omega)]
      · rw [if_neg hin, if_neg (by omega)]

theorem setGates_frame {idt first n : ℕ} (routine : ℕ → UInt32)
    (hx : x < idt + 8 * first ∨ idt + 8 * (first + n) ≤ x) :
    setGates idt first routine n m x = m x := by
  induction n with
  | zero => rfl
  | succ n ih =>
    rw [setGates, List.range_succ, List.foldl_append, List.foldl_cons, List.foldl_nil, ← setGates,
      idtSetGate_frame (by omega), ih (by omega)]

def interruptTables (idtp idt : ℕ) (isr irq : ℕ → UInt32) (m : Mem) : Mem :=
  irqInstall idt irq (isrsInstall idt isr (idtInstall idtp idt m))

theorem memset_zero {dest : ℕ} (count : ℤ) (hfit : dest + count.toNat ≤ 4294967296)
    (hx : dest ≤ x ∧ x < dest + count.toNat) : memset m dest 0 count x = 0 := by
  unfold memset
  generalize count.toNat = n at hfit hx
  induction n with
  | zero => omega
  | succ n ih =>
    have haddr : u32 (dest + n) = dest + n := u32_eq (by omega)
    show Function.update _ (u32 (dest + n)) 0 x = 0
    rw [haddr]
    by_cases he : x = dest + n
    · rw [he, Function.update_self]
    · rw [Function.update_of_ne he]
      exact ih (by omega) (by omega)

section Installed

variable {idtp idt : ℕ} {isr irq : ℕ → UInt32}

theorem installed_gates (hidt : idt + 2048 ≤ 4294967296) {n : ℕ} (hn : n < 256) :
    gateAt (interruptTables idtp idt isr irq m) (idt + 8 * n) =
      if n < 32 then ⟨(isr n).toNat, 0x08, 0x8E⟩
      else if n < 48 then ⟨(irq (n - 32)).toNat, 0x08, 0x8E⟩ else ⟨0, 0, 0⟩ := by
  have hempty : gateAt (idtInstall idtp idt m) (idt + 8 * n) = ⟨0, 0, 0⟩ := by
    have hsize : (8 * 256 : ℤ).toNat = 2048 := rfl
    have hzero : ∀ x, idt ≤ x → x < idt + 2048 → idtInstall idtp idt m x = 0 := by
      intro x hx hx'
      rw [idtInstall, memset_zero (8 * 256) (by rwa [hsize]) (by rw [hsize]; exact ⟨hx, hx'⟩)]
    rw [gateAt_congr (m := fun _ => 0) fun x _ _ => hzero x (by omega) (by omega)]
    rfl
  rw [interruptTables, irqInstall, gateAt_setGates, isrsInstall, gateAt_setGates, hempty]
  by_cases h32 : n < 32
  · rw [if_neg (by omega), if_pos (by omega), if_pos h32, Nat.sub_zero]
  · rw [if_neg h32]
    by_cases h48 : n < 48
    · rw [if_pos (by omega), if_pos h48]
    · rw [if_neg (by omega), if_neg (by omega), if_neg h48]

theorem installed_idtr (hdisjoint : idtp + 6 ≤ idt ∨ idt + 2048 ≤ idtp)
    (hidt : idt + 2048 ≤ 4294967296) :
    tableAt (interruptTables idtp idt isr irq m) idtp = ⟨2047, idt⟩ := by
  have hkept : ∀ x, idtp ≤ x → x < idtp + 6 → interruptTables idtp idt isr irq m x =
      store32 (store16 m idtp 2047) (idtp + 2) idt x := by
    intro x hx hx'
    rw [interruptTables, irqInstall, setGates_frame irq (by omega), isrsInstall,
      setGates_frame isr (by omega), idtInstall]
    refine memset_frame fun i hi => ?_
    have hi' : i < 2048 := hi
    rw [u32_eq (by omega)]
    omega
  rw [tableAt, load16_congr (m := store32 (store16 m idtp 2047) (idtp + 2) idt)
      fun x hx hx' => hkept x (by omega) (by omega),
    load32_congr (m := store32 (store16 m idtp 2047) (idtp + 2) idt)
      fun x hx hx' => hkept x (by omega) (by omega), load32_store32, u32_eq (by omega),
    load16_congr (m := store16 m idtp 2047) fun x hx hx' => store32_frame _ _ (by omega),
    load16_store16]

end Installed

theorem granularity : ∀ l < 16, ∀ g : Fin 256,
    (UInt8.ofNat l ||| (UInt8.ofNat g.val &&& 0xF0)).toNat % 16 = l ∧
      (UInt8.ofNat l ||| (UInt8.ofNat g.val &&& 0xF0)).toNat / 16 = g.val / 16 := by
  decide +kernel

theorem gdtSetGate_frame {gdt num base limit : ℕ} {access gran : UInt8}
    (hx : x < gdt + 8 * num ∨ gdt + 8 * num + 8 ≤ x) :
    gdtSetGate gdt num base limit access gran m x = m x := by
  rw [gdtSetGate, Function.update_of_ne (by omega), Function.update_of_ne (by omega),
    Function.update_of_ne (by omega), store16_frame (by omega), Function.update_of_ne (by omega),
    Function.update_of_ne (by omega), store16_frame (by omega)]

theorem descriptorAt_set (gdt num : ℕ) {base limit : ℕ} (access gran : UInt8)
    (hbase : base < 4294967296) :
    descriptorAt (gdtSetGate gdt num base limit access gran m) (gdt + 8 * num) =
      ⟨base, limit % 1048576, access.toNat, gran.toNat / 16⟩ := by
  have hlow : limit / 65536 % 16 < 16 := Nat.mod_lt _ (by decide)
  have hgran := granularity _ hlow ⟨gran.toNat, gran.toNat_lt⟩
  rw [UInt8.ofNat_toNat] at hgran
  have hbytes : descriptorAt (gdtSetGate gdt num base limit access gran m) (gdt + 8 * num) =
      ⟨base % 256 + 256 * (base / 256 % 256) + 65536 * (base / 65536 % 256) +
        16777216 * (base / 16777216 % 256), limit % 256 + 256 * (limit / 256 % 256) +
          65536 * (limit / 65536 % 16), access.toNat, gran.toNat / 16⟩ := by
    unfold gdtSetGate
    generalize gdt + 8 * num = e
    simp only [Function.update_self]
    generalize UInt8.ofNat (limit / 65536 % 16) ||| (gran &&& 0xF0) = b at hgran
    simp [descriptorAt, load16, store16, Nat.add_assoc, hgran]
    omega
  rw [hbytes]
  congr 1 <;> omega

theorem descriptorAt_congr {m' : Mem} (h : ∀ x, a ≤ x → x < a + 8 → m' x = m x) :
    descriptorAt m' a = descriptorAt m a := by
  rw [descriptorAt, descriptorAt, load16_congr (a := a + 2) fun x _ _ => h x (by omega) (by omega),
    load16_congr fun x _ _ => h x (by omega) (by omega), h (a + 4) (by omega) (by omega),
    h (a + 5) (by omega) (by omega), h (a + 6) (by omega) (by omega),
    h (a + 7) (by omega) (by omega)]

theorem installed_segments (gp gdt : ℕ) :
    descriptorAt (gdtInstall gp gdt m) (gdt + 8 * 1) = ⟨0, 0xFFFFF, 0x9A, 0xC⟩ ∧
      descriptorAt (gdtInstall gp gdt m) (gdt + 8 * 2) = ⟨0, 0xFFFFF, 0x92, 0xC⟩ := by
  refine ⟨?_, descriptorAt_set gdt 2 0x92 0xCF (by decide)⟩
  rw [gdtInstall, descriptorAt_congr fun x _ _ => gdtSetGate_frame (by omega),
    descriptorAt_set gdt 1 0x9A 0xCF (by decide)]
  rfl

theorem installed_gdtr {gp gdt : ℕ} (hdisjoint : gp + 6 ≤ gdt ∨ gdt + 24 ≤ gp)
    (hgdt : gdt < 4294967296) : tableAt (gdtInstall gp gdt m) gp = ⟨23, gdt⟩ := by
  have hkept : ∀ x, gp ≤ x → x < gp + 6 → gdtInstall gp gdt m x =
      store32 (store16 m gp 23) (gp + 2) gdt x := by
    intro x hx hx'
    rw [gdtInstall, gdtSetGate_frame (by omega), gdtSetGate_frame (by omega),
      gdtSetGate_frame (by omega)]
  rw [tableAt, load16_congr (m := store32 (store16 m gp 23) (gp + 2) gdt)
      fun x hx hx' => hkept x (by omega) (by omega),
    load32_congr (m := store32 (store16 m gp 23) (gp + 2) gdt)
      fun x hx hx' => hkept x (by omega) (by omega), load32_store32, u32_eq hgdt,
    load16_congr (m := store16 m gp 23) fun x hx hx' => store32_frame _ _ (by omega),
    load16_store16]

/-- `gdt_flush` returns with segments of which each is the whole of the memory. -/
theorem gdtFlush_flat {fetch : Fetch} {start flush2 ret b b' : UInt32} {ws : List UInt32}
    {s : State} {gp gdt : ℕ} (hcode : Code fetch start (gdtFlush gp flush2) b)
    (hret : Code fetch flush2 [.ret] b') (hs : s.Stack (ret :: ws))
    (hmem : s.mem = gdtInstall gp gdt m) (hdisjoint : gp + 6 ≤ gdt ∨ gdt + 24 ≤ gp)
    (hgdt : gdt < 4294967296) :
    ∃ s', Reaches fetch ⟨s, start⟩ ⟨s', ret⟩ ∧ s'.mem = s.mem ∧ s'.Stack ws ∧
      ∀ r, s'.seg r = (if r = .cs then 0x08 else 0x10) ∧
        (descriptorAt s'.mem (s'.gdtr.base + 8 * ((s'.seg r).toNat / 8))).base = 0 ∧
        (descriptorAt s'.mem (s'.gdtr.base + 8 * ((s'.seg r).toNat / 8))).last = 0xFFFFFFFF := by
  obtain ⟨jump, hjump, hrun⟩ := hcode.ops (s := s)
  cases hjump with
  | cons hjumpfetch _ =>
  cases hret with
  | @cons _ next _ _ _ hretfetch _ =>
  obtain ⟨hcs, hds⟩ := installed_segments (m := m) gp gdt
  have hgdtr := installed_gdtr (m := m) hdisjoint hgdt
  -- the segments are loaded and the stack is as before
  obtain ⟨t, ht⟩ : ∃ t, t = ([.lgdt gp, .movAx 0x10, .movSeg .ds, .movSeg .es, .movSeg .fs,
      .movSeg .gs, .movSeg .ss] : List Op).foldl Op.run s := ⟨_, rfl⟩
  rw [← ht] at hrun
  have htmem : t.mem = s.mem := by rw [ht]; rfl
  have htgdtr : t.gdtr = ⟨23, gdt⟩ := by
    rw [← hgdtr, ← hmem, ht]
    rfl
  have htseg : ∀ r, r ≠ .cs → t.seg r = 0x10 := by
    intro r hr
    rw [ht]
    cases r with
    | cs => exact absurd rfl hr
    | _ => exact low_half _
  have htstack : (t.setSeg .cs 0x08).Stack (ret :: ws) := by
    refine hs.congr ?_ htmem
    rw [ht]
    rfl
  refine ⟨(t.setSeg .cs 0x08).drop 4, hrun.trans (.first hjumpfetch (.first hretfetch
    (.refl' ?_))), htmem, htstack.drop, fun r => ?_⟩
  · rw [exec, htstack.top]
  · have hseg : ((t.setSeg .cs 0x08).drop 4).seg r = if r = .cs then 0x08 else 0x10 := by
      rw [State.drop_seg, State.setSeg_seg]
      split_ifs with hr
      · rfl
      · exact htseg r hr
    have hbase : ((t.setSeg .cs 0x08).drop 4).gdtr = ⟨23, gdt⟩ := htgdtr
    have hkept : ((t.setSeg .cs 0x08).drop 4).mem = gdtInstall gp gdt m := htmem.trans hmem
    refine ⟨hseg, ?_⟩
    rw [hseg, hbase, hkept]
    split_ifs
    · rw [show 8 * ((0x08 : UInt16).toNat / 8) = 8 * 1 from rfl, hcs]
      exact ⟨rfl, rfl⟩
    · rw [show 8 * ((0x10 : UInt16).toNat / 8) = 8 * 2 from rfl, hds]
      exact ⟨rfl, rfl⟩

def flushImage : List Instr := gdtFlush 0x100 8 ++ [.ret]

theorem boot_flat : ∃ s', Reaches (byteImage flushImage)
      ⟨⟨fun _ => 0x20000, fun _ => 0, 0, ⟨0, 0⟩, ⟨0, 0⟩, gdtInstall 0x100 0x200 fun _ => 0⟩, 0⟩
      ⟨s', 0⟩ ∧
    s'.mem = gdtInstall 0x100 0x200 (fun _ => 0) ∧ s'.Stack [] ∧
      ∀ r, s'.seg r = (if r = .cs then 0x08 else 0x10) ∧
        (descriptorAt s'.mem (s'.gdtr.base + 8 * ((s'.seg r).toNat / 8))).base = 0 ∧
        (descriptorAt s'.mem (s'.gdtr.base + 8 * ((s'.seg r).toNat / 8))).last = 0xFFFFFFFF := by
  have hflush : Code (byteImage flushImage) 0 (gdtFlush 0x100 8) _ :=
    byteImage_code 0 (List.prefix_append _ _) (by decide)
  have hret : Code (byteImage flushImage) 8 [.ret] _ :=
    byteImage_code 8 List.prefix_rfl (by decide)
  refine gdtFlush_flat hflush hret ⟨fun i hi => ?_, by decide⟩ rfl (.inl (by decide)) (by decide)
  obtain rfl := Nat.lt_one_iff.mp hi
  rfl

end Jiauliyan.DescriptorTables
