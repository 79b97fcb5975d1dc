import Jiauliyan.MemoryInit

namespace Jiauliyan.MemoryRegion

open Jiauliyan.Execution Jiauliyan.Memory Jiauliyan.MemoryInit

/-- A memory map that lies in the 32-bit address space, up to its end. -/
structure BootMap where
  mem : Mem
  mmapAddr : ℕ
  mmapLength : ℕ
  entries : List Entry
  laid : Laid mem mmapAddr entries (mmapAddr + mmapLength)
  addr_lt : mmapAddr < 4294967296
  length_lt : mmapLength < 4294967296
  fits : mmapAddr + mmapLength ≤ 4294967296

def span (a n : ℕ) : List ℕ := (List.range n).map (a + ·)

/-- The bytes that one round reads: `size` of the entry that it leaves, `len` of the one
that it comes to, and `addr` of that one where it is taken. -/
def roundReads (m : Mem) (mmap mmap' : ℕ) (r : Region) : List ℕ :=
  span mmap 4 ++ span (mmap' + 12) 8 ++
    if r.size < (entryAt m mmap').len then span (mmap' + 4) 8 else []

/-- The loop of `memory_init` with the addresses read so far. An address beyond the
address space counts as it is, and is no byte of the map. -/
def tracedBody (m : Mem) (mmapAddr mmapLength : ℕ) :
    (ℕ × Region) × List ℕ → ((ℕ × Region) × List ℕ) ⊕ (Region × List ℕ)
  | ((mmap, r), reads) =>
    match memoryInitBody m mmapAddr mmapLength (mmap, r) with
    | .inl (mmap', r') => .inl ((mmap', r'), reads ++ roundReads m mmap mmap' r)
    | .inr r => .inr (r, reads)

/-- The entry that `memory_init` is there to find, or none. -/
def Chosen (es : List Entry) (r : Region) : Prop :=
  (∃ e ∈ es, e.type = MULTIBOOT_MEMORY_AVAILABLE ∧
    (∀ x ∈ es, x.type = MULTIBOOT_MEMORY_AVAILABLE → x.len ≤ e.len) ∧ r = ⟨e.addr, e.len⟩) ∨
  ((∀ x ∈ es, x.type ≠ MULTIBOOT_MEMORY_AVAILABLE) ∧ r = unset)

/-- `memory_init` ends, reads the map only and finds the right region. -/
def ChoosesRight (t : BootMap) : Prop :=
  ∃ r reads, Exits (tracedBody t.mem t.mmapAddr t.mmapLength) ((t.mmapAddr, unset), []) (r, reads) ∧
    (∀ x ∈ reads, t.mmapAddr ≤ x ∧ x < t.mmapAddr + t.mmapLength) ∧ Chosen t.entries r

/-- Every available entry is empty, and if there are any then one is at address 0. -/
def NothingAvailable (es : List Entry) : Prop :=
  (∀ x ∈ es, x.type = MULTIBOOT_MEMORY_AVAILABLE → x.len = 0) ∧
    ((∃ x ∈ es, x.type = MULTIBOOT_MEMORY_AVAILABLE) →
      ∃ x ∈ es, x.type = MULTIBOOT_MEMORY_AVAILABLE ∧ x.addr = 0)

variable {m : Mem} {a z mmapAddr mmapLength : ℕ} {es : List Entry}

theorem traced_exits {mmap : ℕ} {r r' : Region} {reads reads' : List ℕ}
    (h : Exits (tracedBody m mmapAddr mmapLength) ((mmap, r), reads) (r', reads')) :
    Exits (memoryInitBody m mmapAddr mmapLength) (mmap, r) r' := by
  obtain ⟨n, hn⟩ := h
  induction n generalizing mmap r reads with
  | zero => cases hn
  | succ n ih =>
    rw [loop, tracedBody] at hn
    cases hb : memoryInitBody m mmapAddr mmapLength (mmap, r) with
    | inl s =>
      simp only [hb] at hn
      exact exits_of_inl hb (ih hn)
    | inr q =>
      simp only [hb, Option.some.injEq, Prod.mk.injEq] at hn
      exact hn.1 ▸ exits_of_inr hb

theorem laid_traced (h : Laid m a es z) (hz : u32 (mmapAddr + mmapLength) = z) (r : Region)
    (reads : List ℕ) :
    ∃ r' reads', Exits (tracedBody m mmapAddr mmapLength) ((a, r), reads) (r', reads') ∧
      (∀ x ∈ reads, x ∈ reads') ∧ (es ≠ [] → z + 12 ∈ reads') := by
  have hlt : z < 4294967296 := by
    rw [← hz]
    exact Nat.mod_lt _ (by decide)
  induction h generalizing r reads with
  | nil a =>
    have hbody : memoryInitBody m mmapAddr mmapLength (a, r) = .inr r := by
      rw [memoryInitBody, if_neg (by omega)]
    refine ⟨r, reads, exits_of_inr ?_, fun _ hx => hx, fun hne => absurd rfl hne⟩
    rw [tracedBody, hbody]
  | @cons a z es hsize hrest ih =>
    have hle := hrest.le
    have hnext : u32 (a + (entryAt m a).size + 4) = a + (entryAt m a).size + 4 := u32_eq (by omega)
    have hbody : memoryInitBody m mmapAddr mmapLength (a, r) =
        .inl (a + (entryAt m a).size + 4, pick r (entryAt m (a + (entryAt m a).size + 4))) := by
      rw [memoryInitBody, if_pos (by omega), hnext]
    have hstep : tracedBody m mmapAddr mmapLength ((a, r), reads) =
        .inl ((a + (entryAt m a).size + 4, pick r (entryAt m (a + (entryAt m a).size + 4))),
          reads ++ roundReads m a (a + (entryAt m a).size + 4) r) := by
      rw [tracedBody, hbody]
    obtain ⟨r', reads', hexits, hkeep, hlast⟩ := ih hz
      (pick r (entryAt m (a + (entryAt m a).size + 4)))
      (reads ++ roundReads m a (a + (entryAt m a).size + 4) r) hlt
    refine ⟨r', reads', exits_of_inl hstep hexits,
      fun x hx => hkeep x (List.mem_append_left _ hx), fun _ => ?_⟩
    cases hrest with
    | nil =>
      refine hkeep _ (List.mem_append_right _ ?_)
      rw [roundReads, List.mem_append, List.mem_append]
      exact .inl (.inr (List.mem_map.mpr ⟨0, by decide, rfl⟩))
    | cons _ _ => exact hlast (List.cons_ne_nil _ _)

theorem chosen_unset_iff (es : List Entry) : Chosen es unset ↔ NothingAvailable es := by
  constructor
  · rintro (⟨e, he, htype, hmax, hr⟩ | ⟨hnone, -⟩)
    · have haddr : 0 = e.addr := congrArg Region.ptr hr
      have hlen : 0 = e.len := congrArg Region.size hr
      exact ⟨fun x hx hav => Nat.le_zero.mp (hlen ▸ hmax x hx hav),
        fun _ => ⟨e, he, htype, haddr.symm⟩⟩
    · exact ⟨fun x hx hav => absurd hav (hnone x hx),
        fun ⟨x, hx, hav⟩ => absurd hav (hnone x hx)⟩
  · rintro ⟨hzero, hfirst⟩
    by_cases h : ∃ x ∈ es, x.type = MULTIBOOT_MEMORY_AVAILABLE
    · obtain ⟨e, he, htype, haddr⟩ := hfirst h
      refine .inl ⟨e, he, htype, fun x hx hav => ?_, ?_⟩
      · rw [hzero x hx hav]
        exact Nat.zero_le _
      · rw [haddr, hzero e he htype]
        rfl
    · exact .inr ⟨fun x hx hav => h ⟨x, hx, hav⟩, rfl⟩

theorem traced_wrapped (h : u32 (mmapAddr + mmapLength) ≤ mmapAddr) (r : Region) :
    Exits (tracedBody m mmapAddr mmapLength) ((mmapAddr, r), []) (r, []) := by
  have hbody : memoryInitBody m mmapAddr mmapLength (mmapAddr, r) = .inr r := by
    rw [memoryInitBody, if_neg (by omega)]
  refine exits_of_inr ?_
  rw [tracedBody, hbody]

theorem reads_behind (t : BootMap) (hne : t.entries ≠ [])
    (hlt : t.mmapAddr + t.mmapLength < 4294967296) : ¬ChoosesRight t := by
  rintro ⟨r, reads, hexits, hin, -⟩
  obtain ⟨r', reads', hexits', -, hlast⟩ := laid_traced t.laid (u32_eq hlt) unset []
  have he : reads = reads' := congrArg Prod.snd (hexits.unique hexits')
  have hbound := hin _ (he ▸ hlast hne)
  omega

/-- `memory_init` is right on the empty map alone, and on a map up to the end of the address
space where there is nothing to find. -/
theorem chooses_right_iff (t : BootMap) :
    ChoosesRight t ↔
      t.entries = [] ∨ t.mmapAddr + t.mmapLength = 4294967296 ∧ NothingAvailable t.entries := by
  have haddr := t.addr_lt
  have hfits := t.fits
  have hleft : u32 (t.mmapAddr + t.mmapLength) ≤ t.mmapAddr → Chosen t.entries unset →
      ChoosesRight t := fun h hc =>
    ⟨unset, [], traced_wrapped h unset, fun x hx => absurd hx List.not_mem_nil, hc⟩
  refine ⟨fun h => ?_, ?_⟩
  · by_contra hcon
    rw [not_or] at hcon
    obtain hlt | htop := Nat.lt_or_eq_of_le hfits
    · exact reads_behind t hcon.1 hlt h
    · obtain ⟨r, reads, hexits, -, hchosen⟩ := h
      have hwrap : u32 (t.mmapAddr + t.mmapLength) ≤ t.mmapAddr := by
        rw [htop]
        exact Nat.zero_le _
      have he := hexits.unique (traced_wrapped hwrap unset)
      have hr : r = unset := congrArg Prod.fst he
      exact hcon.2 ⟨htop, (chosen_unset_iff _).mp (hr ▸ hchosen)⟩
  · rintro (hnil | ⟨htop, hnothing⟩)
    · have hlaid := t.laid
      rw [hnil] at hlaid
      have hz : t.mmapAddr + t.mmapLength = t.mmapAddr := by
        generalize t.mmapAddr + t.mmapLength = z at hlaid
        cases hlaid
        rfl
      refine hleft (by rw [hz, u32_eq haddr]) ?_
      rw [hnil]
      exact .inr ⟨fun x hx => absurd hx List.not_mem_nil, rfl⟩
    · refine hleft ?_ ((chosen_unset_iff _).mpr hnothing)
      rw [htop]
      exact Nat.zero_le _

def pageMem : Mem := fun x =>
  if x = 0x9000 then 20
  else if x = 0x9006 then 0x10
  else if x = 0x900D then 0x10
  else if x = 0x9014 then 1
  else 0

theorem pageMem_entry : entryAt pageMem 0x9000 = ⟨20, 0x100000, 0x1000, 1⟩ := by decide

def pageMap : BootMap where
  mem := pageMem
  mmapAddr := 0x9000
  mmapLength := 24
  entries := [entryAt pageMem 0x9000]
  laid := by
    have hsize : (entryAt pageMem 0x9000).size = 20 := by rw [pageMem_entry]
    refine .cons (by rw [hsize]) ?_
    rw [hsize]
    exact .nil _
  addr_lt := by decide
  length_lt := by decide
  fits := by decide

theorem page_map_misread : ∃ t, ¬ChoosesRight t :=
  ⟨pageMap, reads_behind pageMap (List.cons_ne_nil _ _) (by decide)⟩

end Jiauliyan.MemoryRegion
