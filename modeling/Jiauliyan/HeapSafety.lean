import Jiauliyan.FreeList

namespace Jiauliyan.HeapSafety

open Jiauliyan.Execution Jiauliyan.Memory Jiauliyan.Malloc Jiauliyan.Malloc.HeaderMemory

/-- A live result: the pointer handed out and the bytes asked for, with the
Header and the size malloc stored for it on record. -/
structure Block where
  ptr : ℕ
  nbytes : ℕ
  header : ℕ
  units : ℕ
  deriving DecidableEq

structure State where
  heap : Heap Mem
  live : List Block

inductive Op where
  | malloc (nbytes : ℕ)
  | free (ptr : ℕ)
  | realloc (ptr nbytes : ℕ)
  | write (ptr i : ℕ) (v : UInt8)

def record (h : Heap Mem) (nbytes : ℕ) (r : Option ℕ) : List Block :=
  (r.map fun b => ⟨blockPtr b, nbytes, b, size h.mem b⟩).toList

/-- One call of the public interface, or one byte written by the owner of a
live block. A realloc that finds no room leaves its block to the caller. -/
inductive Step (A : Arena) : State → Op → State → Prop
  | malloc {s : State} {nbytes fuel : ℕ} {r : Option ℕ} {h' : Heap Mem} :
      mallocBlock A fuel s.heap nbytes = some (r, h') →
      Step A s (.malloc nbytes) ⟨h', record h' nbytes r ++ s.live⟩
  | free {s : State} {b : Block} {fuel : ℕ} {h' : Heap Mem} :
      b ∈ s.live → free fuel s.heap b.ptr = some h' →
      Step A s (.free b.ptr) ⟨h', s.live.erase b⟩
  | realloc_null {s : State} {nbytes fuel q : ℕ} {r : Option ℕ} {h₁ h' : Heap Mem} :
      mallocBlock A fuel s.heap nbytes = some (r, h₁) →
      realloc A fuel s.heap 0 nbytes = some (q, h') →
      Step A s (.realloc 0 nbytes) ⟨h', record h₁ nbytes r ++ s.live⟩
  | realloc {s : State} {b : Block} {nbytes fuel q : ℕ} {r : Option ℕ} {h₁ h' : Heap Mem} :
      b ∈ s.live → mallocBlock A fuel s.heap nbytes = some (r, h₁) →
      realloc A fuel s.heap b.ptr nbytes = some (q, h') →
      Step A s (.realloc b.ptr nbytes)
        ⟨h', record h₁ nbytes r ++ if r = none ∧ nbytes ≠ 0 then s.live else s.live.erase b⟩
  | write {s : State} {b : Block} {i : ℕ} {v : UInt8} :
      b ∈ s.live → i < b.nbytes →
      Step A s (.write b.ptr i v)
        ⟨⟨Function.update s.heap.mem (u32 (b.ptr + i)) v, s.heap.freep⟩, s.live⟩

/-- Before the first call: no free list yet, any contents of memory. -/
def start (m : Mem) : State := ⟨⟨m, 0⟩, []⟩

def OnFreeList (h : Heap Mem) (p : ℕ) : Prop := h.freep ≠ 0 ∧ ∃ k, p = (next h.mem)^[k] h.freep

def Misses (b : Block) (p : ℕ) : Prop := b.ptr + b.nbytes ≤ p ∨ p + blocksiz ≤ b.ptr

/-- Live results are disjoint parts of the arena that miss every Header, and
PTR_BLOCK leads back to the Header and the size malloc stored. -/
structure HeapSafe (A : Arena) (s : State) : Prop where
  inside : ∀ b ∈ s.live, A.memloc ≤ b.ptr ∧ b.ptr + b.nbytes ≤ A.fin
  disjoint : s.live.Pairwise fun b c => b.ptr + b.nbytes ≤ c.ptr ∨ c.ptr + c.nbytes ≤ b.ptr
  freeHeaders : ∀ b ∈ s.live, ∀ p, OnFreeList s.heap p → Misses b p
  liveHeaders : ∀ b ∈ s.live, ∀ c ∈ s.live, Misses b c.header
  reached : ∀ b ∈ s.live, ptrBlock b.ptr = b.header ∧ size s.heap.mem (ptrBlock b.ptr) = b.units

/-- The words of the arena are 32-bit ones, and `base` does not overlap the first Header. -/
structure Arena.Apart (A : Arena) : Prop where
  memloc_lt : A.memloc < 4294967296
  allocsiz_lt : A.allocsiz < 4294967296
  base_lt : A.base < 4294967296
  base_ne : A.base ≠ 0
  apart : A.base + blocksiz ≤ A.memloc ∨ A.memloc + blocksiz ≤ A.base

structure Arena.Separate (A : Arena) : Prop extends Arena.Apart A where
  fits : A.fin ≤ 4294967296

/-- The bytes asked for by the calls of a sequence. -/
def requests (os : List Op) : List ℕ :=
  os.filterMap fun
    | .malloc n => some n
    | .realloc _ n => some n
    | _ => none

/-- A request that no block of the arena can serve. -/
def Refused (A : Arena) (nbytes : ℕ) : Prop := nbytes = 0 ∨ A.allocsiz < blockAlign nbytes

/-- The free list holds `base` and the whole arena as one block. -/
structure Whole (A : Arena) (h : Heap Mem) : Prop where
  freep : h.freep = A.base
  nextBase : next h.mem A.base = A.memloc
  sizeBase : size h.mem A.base = 0
  nextArena : next h.mem A.memloc = A.base
  sizeArena : size h.mem A.memloc = A.allocsiz

def Unused (A : Arena) (s : State) : Prop :=
  s.live = [] ∧ (s.heap.freep = 0 ∨ Whole A s.heap)

variable {A : Arena}

theorem whole_init (hA : Arena.Apart A) (h : Heap Mem) : Whole A (mallocInit A h) := by
  obtain ⟨hnextBase, hsizeBase, hnextArena, hsizeArena⟩ :=
    mem_words.mallocInit_fields h hA.base_lt hA.memloc_lt hA.apart.symm
  exact ⟨rfl, hnextBase, hsizeBase, hnextArena, hsizeArena.trans (u32_eq hA.allocsiz_lt)⟩

theorem whole_ready (hA : Arena.Apart A) {h : Heap Mem} (hw : h.freep = 0 ∨ Whole A h) :
    Whole A (if h.freep = 0 then mallocInit A h else h) := by
  by_cases h0 : h.freep = 0
  · rw [if_pos h0]
    exact whole_init hA h
  · rw [if_neg h0]
    exact hw.resolve_left h0

theorem Whole.exits (hA : Arena.Apart A) {h : Heap Mem} (hw : Whole A h) (n : ℕ)
    (hn : 0 < n) :
    Exits (searchBody h n) (h.freep, next h.mem h.freep)
      (if n ≤ A.allocsiz then some (A.base, A.memloc) else none) := by
  have hne : A.memloc ≠ A.base := by
    have hap := hA.apart
    simp only [blocksiz] at hap
    omega
  rw [hw.freep, hw.nextBase]
  by_cases hs : n ≤ A.allocsiz
  · rw [if_pos hs]
    exact exits_of_inr (by simp [searchBody, hw.sizeArena, hs])
  · rw [if_neg hs]
    refine exits_of_inl (t := (A.memloc, A.base)) ?_ (exits_of_inr ?_)
    · simp [searchBody, hw.sizeArena, hs, hw.freep, hne, hw.nextArena]
    · simp [searchBody, hw.sizeBase, hw.freep, hn.ne']

theorem carve_lt (h : Heap Mem) (n p : ℕ) {a : ℕ} (ha : a < 4294967296) :
    (carve h n p a).1 < 4294967296 := by
  unfold carve
  by_cases hx : size h.mem a = n
  · rw [if_pos hx]
    exact ha
  · rw [if_neg hx]
    exact Nat.mod_lt _ (by decide)

theorem mallocBlock_unused (hA : Arena.Apart A) {h h' : Heap Mem} {nbytes fuel : ℕ}
    {r : Option ℕ} (hw : h.freep = 0 ∨ Whole A h)
    (hm : mallocBlock A fuel h nbytes = some (r, h')) :
    (Refused A nbytes ∧ r = none ∧ (h'.freep = 0 ∨ Whole A h')) ∨
    ∃ b, ¬Refused A nbytes ∧ r = some b ∧ b < 4294967296 := by
  unfold mallocBlock at hm
  by_cases h0 : nbytes = 0
  · rw [if_pos h0] at hm
    obtain ⟨rfl, rfl⟩ := Prod.mk.inj (Option.some.inj hm)
    exact .inl ⟨.inl h0, rfl, hw⟩
  · rw [if_neg h0] at hm
    have hwr := whole_ready hA hw
    have hs := FreeList.search_of_exits (hwr.exits hA _ (blockAlign_pos nbytes))
    obtain ⟨hr, hh⟩ := FreeList.Search.unique ⟨fuel, hm⟩ hs
    by_cases hfit : blockAlign nbytes ≤ A.allocsiz
    · rw [if_pos hfit] at hr
      refine .inr ⟨_, ?_, hr, ?_⟩
      · rintro (hz | hlt)
        · exact h0 hz
        · omega
      · exact carve_lt _ _ _ hA.memloc_lt
    · rw [if_neg hfit] at hr hh
      exact .inl ⟨.inr (by omega), hr, .inr (hh ▸ hwr)⟩

theorem ptrBlock_blockPtr_ne {b : ℕ} (hb : b < 4294967296) : ptrBlock (blockPtr b) ≠ b := by
  simp only [ptrBlock, blockPtr, u32, blocksiz]
  omega

theorem not_safe_of_recorded {s : State} {h : Heap Mem} {nbytes b : ℕ} {l : List Block}
    (hl : s.live = record h nbytes (some b) ++ l) (hb : b < 4294967296) : ¬HeapSafe A s := by
  intro hs
  have hm : (⟨blockPtr b, nbytes, b, size h.mem b⟩ : Block) ∈ s.live := by
    rw [hl]
    simp [record]
  exact ptrBlock_blockPtr_ne hb (hs.reached _ hm).1

theorem unused_safe {s : State} (hs : Unused A s) : HeapSafe A s := by
  obtain ⟨hl, _⟩ := hs
  constructor <;> simp [hl]

theorem requests_cons (o : Op) (os : List Op) :
    requests (o :: os) = requests [o] ++ requests os := by
  simp only [requests]
  rw [← List.filterMap_append, List.singleton_append]

theorem unused_request (hA : Arena.Apart A) {s : State} {o : Op} {nbytes fuel : ℕ}
    {r : Option ℕ} {h' : Heap Mem} (hs : Unused A s) (ho : requests [o] = [nbytes])
    (hm : mallocBlock A fuel s.heap nbytes = some (r, h')) :
    ((∀ n ∈ requests [o], Refused A n) ∧ Unused A ⟨h', record h' nbytes r ++ s.live⟩) ∨
    ((∃ n ∈ requests [o], ¬Refused A n) ∧ ¬HeapSafe A ⟨h', record h' nbytes r ++ s.live⟩) := by
  obtain ⟨hl, hw⟩ := hs
  rw [ho]
  obtain ⟨hr, rfl, hw'⟩ | ⟨b, hr, rfl, hb⟩ := mallocBlock_unused hA hw hm
  · exact .inl ⟨by simpa using hr, by simp [record, hl], hw'⟩
  · exact .inr ⟨⟨nbytes, by simp, hr⟩, not_safe_of_recorded rfl hb⟩

/-- One step from an unused state: a refused request leaves it unused, any
other call ends in a state that is not safe. -/
theorem unused_step (hA : Arena.Apart A) {s t : State} {o : Op} (hs : Unused A s)
    (h : Step A s o t) :
    ((∀ n ∈ requests [o], Refused A n) ∧ Unused A t) ∨
    ((∃ n ∈ requests [o], ¬Refused A n) ∧ ¬HeapSafe A t) := by
  have hl := hs.1
  cases h with
  | malloc hm => exact unused_request hA hs rfl hm
  | free hb _ =>
    rw [hl] at hb
    simp at hb
  | @realloc_null nbytes fuel q r h₁ h' hm hr₀ =>
    have hre : realloc A fuel s.heap 0 nbytes = some (r.elim 0 blockPtr, h₁) := by
      simp [realloc, malloc, hm]
    rw [hre] at hr₀
    obtain ⟨_, rfl⟩ := Prod.mk.inj (Option.some.inj hr₀)
    exact unused_request hA hs rfl hm
  | realloc hb _ _ =>
    rw [hl] at hb
    simp at hb
  | write hb _ =>
    rw [hl] at hb
    simp at hb

/-- Every state of the run is safe. -/
def AlwaysSafe (A : Arena) (s : State) (os : List Op) : Prop :=
  ∀ pre t, pre <+: os → Run (Step A) s pre t → HeapSafe A t

theorem unused_run (hA : Arena.Apart A) {s u : State} {os : List Op} (hs : Unused A s)
    (h : Run (Step A) s os u) : AlwaysSafe A s os ↔ ∀ n ∈ requests os, Refused A n := by
  constructor
  · intro hsafe
    induction h with
    | nil s => simp [requests]
    | @cons s t u o os hst hr ih =>
      obtain ⟨hreq, ht⟩ | ⟨_, hbad⟩ := unused_step hA hs hst
      · rw [requests_cons]
        have hrest := ih ht fun pre v hp hv =>
          hsafe (o :: pre) v ((List.prefix_cons_inj o).mpr hp) (Run.cons hst hv)
        intro n hn
        exact (List.mem_append.mp hn).elim (hreq n) (hrest n)
      · exact absurd (hsafe [o] t ⟨os, rfl⟩ (Run.cons hst (Run.nil t))) hbad
  · intro hreq pre t hp hr
    obtain ⟨post, rfl⟩ := hp
    have hreq' : ∀ n ∈ requests pre, Refused A n := by
      intro n hn
      refine hreq n ?_
      rw [requests, List.filterMap_append]
      exact List.mem_append_left _ hn
    have hun : Unused A t := by
      clear h hreq
      induction hr with
      | nil s => exact hs
      | @cons s t u o os hst hr ih =>
        rw [requests_cons] at hreq'
        obtain ⟨_, ht⟩ | ⟨⟨n, hn, hbad⟩, _⟩ := unused_step hA hs hst
        · exact ih ht fun n hn => hreq' n (List.mem_append_right _ hn)
        · exact absurd (hreq' n (List.mem_append_left _ hn)) hbad
    exact unused_safe hun

def sampleArena : Arena := ⟨4096, 65536, 16⟩

theorem sampleArena_separate : Arena.Separate sampleArena :=
  ⟨⟨by decide, by decide, by decide, by decide, by decide⟩, by decide⟩

/-- The heap is safe throughout a run exactly when every request of the run is
refused: for no bytes, or for more units (as BLOCK_ALIGN counts them) than the arena has. -/
theorem heap_safe_iff (hA : Arena.Apart A) {m : Mem} {os : List Op} {s : State}
    (h : Run (Step A) (start m) os s) :
    AlwaysSafe A (start m) os ↔ ∀ n ∈ requests os, Refused A n :=
  unused_run hA ⟨rfl, .inl rfl⟩ h

/-- The first successful call: the pointer handed out is one byte above the
Header, and PTR_BLOCK takes it to seven bytes below. -/
theorem heap_unsafe_malloc : ¬AlwaysSafe sampleArena (start fun _ => 0) [.malloc 8] := by
  intro h
  have hrun : ∃ h', Run (Step sampleArena) (start fun _ => 0) [.malloc 8]
      ⟨h', [⟨65649, 8, 65648, 2⟩]⟩ :=
    ⟨_, .cons (.malloc (show mallocBlock sampleArena 3 _ 8 = some (some 65648, _) from rfl))
      (.nil _)⟩
  obtain ⟨h', hr⟩ := hrun
  have hs := h _ _ List.prefix_rfl hr
  exact absurd (hs.reached _ List.mem_cons_self).1 (by decide)

theorem heap_safe_iff_refused :
    AlwaysSafe sampleArena (start fun _ => 0) [.malloc 0, .malloc 128] ↔
      ∀ n ∈ requests [.malloc 0, .malloc 128], Refused sampleArena n := by
  have h : ∃ s, Run (Step sampleArena) (start fun _ => 0) [.malloc 0, .malloc 128] s :=
    ⟨_, .cons (.malloc (show mallocBlock sampleArena 3 _ 0 = some (none, _) from rfl))
      (.cons (.malloc (show mallocBlock sampleArena 3 _ 128 = some (none, _) from rfl)) (.nil _))⟩
  obtain ⟨s, hs⟩ := h
  exact heap_safe_iff sampleArena_separate.toApart hs

end Jiauliyan.HeapSafety
