import Mathlib.Data.List.Perm.Subperm
import Jiauliyan.FileRefinement

namespace Jiauliyan.FileIsolation

open Jiauliyan.StringCompare Jiauliyan.Stdio Jiauliyan.FileMap Jiauliyan.FileRefinement

variable {created : List Chars} {fs : Filesystem} {contents : Contents}

section Runs

variable {s : Store} {names : List Chars}

theorem afterOpen_nodup (h : created.Nodup) (name mode : Chars) :
    (afterOpen created name mode).Nodup := by
  unfold afterOpen
  split_ifs with hold
  · exact h
  · rw [List.nodup_append]
    refine ⟨h, List.nodup_singleton name, fun a ha b hb heq => ?_⟩
    rw [List.mem_singleton] at hb
    exact hold (Or.inl (hb ▸ heq ▸ ha))

theorem afterOpen_subset {name : Chars} (h : created ⊆ names) (hname : name ∈ names)
    (mode : Chars) : afterOpen created name mode ⊆ names := by
  unfold afterOpen
  split_ifs
  · exact h
  · intro n hn
    obtain hn | hn := List.mem_append.mp hn
    · exact h hn
    · rw [List.mem_singleton] at hn
      exact hn ▸ hname

theorem clear_admits {op : Op} {ops : List Op} (hc : Clear created (op :: ops))
    (hnodup : created.Nodup) (hsub : created ⊆ names) (hlen : names.length ≤ 256)
    (hop : ∀ name mode, op = .fopen name mode → name.chars ∈ names) :
    Admits created op ∧ after created op ⊆ names ∧ Clear (after created op) ops := by
  cases op with
  | fopen name mode =>
    have hsub' := afterOpen_subset hsub (hop name mode rfl) mode
    have hperm := List.subperm_of_subset (afterOpen_nodup hnodup name.chars mode) hsub'
    exact ⟨⟨hc.1, hperm.length_le.trans hlen⟩, hsub', hc.2⟩
  | fputc | fwrite | fgetc | fread | fclose => exact ⟨trivial, hsub, hc⟩

theorem calls_refines (A : Allocator) (hlen : names.length ≤ 256) (ops : List Op)
    (hr : Refines created fs s) (hsub : created ⊆ names) (hc : Clear created ops)
    (hops : ∀ name mode, .fopen name mode ∈ ops → name.chars ∈ names) :
    (calls A ops fs = none ∧ performs ops s = none) ∨
      ∃ rs fs' s' created', calls A ops fs = some (rs, fs') ∧ performs ops s = some (rs, s') ∧
        Refines created' fs' s' := by
  induction ops generalizing created fs s with
  | nil => exact Or.inr ⟨[], fs, s, created, rfl, rfl, hr⟩
  | cons op ops ih =>
    obtain ⟨hop, hsub', hc'⟩ := clear_admits hc hr.stored.nodup hsub hlen
      fun name mode heq => hops name mode (heq ▸ List.mem_cons_self)
    obtain ⟨hcall, hperf⟩ | ⟨r, fs', s', hcall, hperf, hr'⟩ := call_refines A hr op hop
    · exact Or.inl ⟨by rw [calls, hcall], by rw [performs, hperf]⟩
    · obtain ⟨hcalls, hperfs⟩ | ⟨rs, fs'', s'', created'', hcalls, hperfs, hr''⟩ :=
        ih hr' hsub' hc' fun name mode hm => hops name mode (List.mem_cons_of_mem op hm)
      · refine Or.inl ⟨?_, ?_⟩
        · simp only [calls, hcall, hcalls, Option.map_none]
        · simp only [performs, hperf, hperfs, Option.map_none]
      · refine Or.inr ⟨r :: rs, fs'', s'', created'', ?_, ?_, hr''⟩
        · simp only [calls, hcall, hcalls, Option.map_some]
        · simp only [performs, hperf, hperfs, Option.map_some]

theorem boot_refines : Refines [] boot empty := by
  refine ⟨⟨rfl, fun i => rfl, List.nodup_nil, ?_, ?_, fun _ _ => rfl⟩, rfl, fun i f h hf => ?_⟩
  · exact fun i hi => absurd hi (Nat.not_lt_zero i)
  · exact fun i hi => absurd hi (Nat.not_lt_zero i)
  · cases hf

/-- What an operation on a handle of one name leaves alone. -/
def Apart (name : Chars) (contents : Contents) (x : Contents × Handle) : Prop :=
  x.2.name = name ∧ ∀ n, n ≠ name → x.1 n = contents n

theorem writeByte_apart {name : Chars} (c : ℤ) {x : Contents × Handle}
    (h : Apart name contents x) : Apart name contents (writeByte c x).2 := by
  obtain ⟨contents', k⟩ := x
  obtain ⟨hname, hrest⟩ := h
  subst hname
  simp only [writeByte]
  split_ifs
  · exact ⟨rfl, hrest⟩
  · refine ⟨rfl, fun n hn => ?_⟩
    simp only [Function.update_of_ne hn]
    exact hrest n hn

theorem fwrite_apart {name : Chars} (p : ℕ → UInt8) (size i n : ℕ) (b : ℤ)
    {x : Contents × Handle} (h : Apart name contents x) :
    Apart name contents (fwrite writeByte p size i n b x).2 := by
  have hput : ∀ c (x y : Contents × Handle), x = y ∧ Apart name contents x →
      (writeByte c x).1 = (writeByte c y).1 ∧
        (writeByte c x).2 = (writeByte c y).2 ∧ Apart name contents (writeByte c x).2 := by
    rintro c x _ ⟨rfl, hx⟩
    exact ⟨rfl, rfl, writeByte_apart c hx⟩
  exact (fwrite_sim hput p size i n b ⟨rfl, h⟩).2.2

def handle : Op → Option ℕ
  | .fopen _ _ => none
  | .fputc _ i | .fwrite _ _ _ _ i | .fgetc i | .fread _ _ _ i | .fclose i => some i

theorem perform_apart {op : Op} {i : ℕ} {h : Handle} {r : Result} {s' : Store}
    (hop : handle op = some i) (hi : s.handles[i]? = some h) (hp : perform s op = some (r, s')) :
    (∀ n, n ≠ h.name → s'.contents n = s.contents n) ∧
      ∀ j, j ≠ i → s'.handles[j]? = s.handles[j]? := by
  have hself : Apart h.name s.contents (s.contents, h) := ⟨rfl, fun _ _ => rfl⟩
  cases op with
  | fopen name mode => cases hop
  | fputc c i' =>
    cases hop
    rw [perform, hi, Option.map_some, Option.some.injEq] at hp
    cases hp
    exact ⟨(writeByte_apart c hself).2, fun j hj => List.getElem?_set_ne hj.symm⟩
  | fwrite p size nmemb b i' =>
    cases hop
    rw [perform, hi, Option.map_some, Option.some.injEq] at hp
    cases hp
    exact ⟨(fwrite_apart p size 0 nmemb b hself).2, fun j hj => List.getElem?_set_ne hj.symm⟩
  | fgetc i' | fread size nmemb b i' | fclose i' =>
    cases hop
    rw [perform, hi, Option.map_some, Option.some.injEq] at hp
    cases hp
    exact ⟨fun _ _ => rfl, fun j hj => List.getElem?_set_ne hj.symm⟩

theorem fread_congr {contents' : Contents} {k : Handle}
    (hsame : contents' k.name = contents k.name) (size n : ℕ) (b : ℤ) :
    (fread (readByte contents') size n b k).1 = (fread (readByte contents) size n b k).1 ∧
      (fread (readByte contents') size n b k).2.1 =
        (fread (readByte contents) size n b k).2.1 := by
  have hget : ∀ x y : Handle, x = y ∧ x.name = k.name →
      (readByte contents' x).1 = (readByte contents y).1 ∧
        (readByte contents' x).2 = (readByte contents y).2 ∧
          (readByte contents' x).2.name = k.name := by
    rintro x _ ⟨rfl, hx⟩
    have heq : readByte contents' x = readByte contents x := by
      rw [readByte, readByte, hx, hsame]
    refine ⟨by rw [heq], by rw [heq], ?_⟩
    unfold readByte
    split_ifs
    · exact hx
    · split
      · exact hx
      · exact hx
  obtain ⟨hn, hp, -⟩ := fread_sim hget size n b ⟨rfl, rfl⟩
  exact ⟨hn, hp⟩

/-- What holds between the handles after a run: those of one name are on one entry,
and those of another name are not affected by their operations. -/
structure Isolated (A : Allocator) (fs : Filesystem) (s : Store) : Prop where
  shared : ∀ (i j : ℕ) f g h k st st', fs.files[i]? = some f → fs.files[j]? = some g →
    s.handles[i]? = some h → s.handles[j]? = some k → f.stream = some st → g.stream = some st' →
    (st.entry = st'.entry ↔ h.name = k.name)
  apart : ∀ (i j : ℕ) h k op r fs', s.handles[i]? = some h → s.handles[j]? = some k →
    h.name ≠ k.name → handle op = some i → call A fs op = some (r, fs') → ∀ size n b,
    (call A fs' (.fread size n b j)).map Prod.fst = (call A fs (.fread size n b j)).map Prod.fst

theorem isolated (A : Allocator) (hr : Refines created fs s) : Isolated A fs s := by
  constructor
  · intro i j f g h k st st' hf hg hh hk hst hst'
    have hl := ((hr.linked i f h hf hh).opened st hst).1
    have hm := ((hr.linked j g k hg hk).opened st' hst').1
    constructor
    · intro heq
      rw [heq, hm] at hl
      exact (Option.some.inj hl).symm
    · intro heq
      rw [← heq, ← hl] at hm
      have hi := (List.getElem?_eq_some_iff.mp hl).1
      exact (List.getElem?_inj hi hr.stored.nodup).mp hm.symm
  · intro i j h k op r fs' hh hk hne hop hcall size n b
    have hadmits : Admits created op := by
      cases op with
      | fopen => cases hop
      | fputc | fwrite | fgetc | fread | fclose => trivial
    obtain ⟨hnone, -⟩ | ⟨r', fs'', s', hcall', hperf, hr'⟩ := call_refines A hr op hadmits
    · rw [hnone] at hcall
      cases hcall
    · rw [hcall] at hcall'
      cases hcall'
      obtain ⟨hcontents, hhandles⟩ := perform_apart hop hh hperf
      have hji : j ≠ i := by
        rintro rfl
        rw [hh] at hk
        cases hk
        exact hne rfl
      have hk' : s'.handles[j]? = some k := (hhandles j hji).trans hk
      obtain ⟨hn, hp⟩ := fread_congr (hcontents k.name hne.symm) size n b
      obtain ⟨-, hno⟩ | ⟨v, _, _, hv, hv', -⟩ :=
        call_refines A hr (.fread size n b j) trivial
      · simp only [perform, hk, Option.map_some, reduceCtorEq] at hno
      · obtain ⟨-, hno⟩ | ⟨u, _, _, hu, hu', -⟩ :=
          call_refines A hr' (.fread size n b j) trivial
        · simp only [perform, hk', Option.map_some, reduceCtorEq] at hno
        · rw [perform, hk, Option.map_some, Option.some.injEq] at hv'
          rw [perform, hk', Option.map_some, Option.some.injEq] at hu'
          rw [hu, hv, Option.map_some, Option.map_some, ← congrArg Prod.fst hv',
            ← congrArg Prod.fst hu']
          simp only [hn, hp]

/-- On every sequence of calls without a shadowed `fopen`, the table answers as the
map does, and its handles are isolated. -/
theorem files_isolated (A : Allocator) (ops : List Op) (names : List Chars)
    (hlen : names.length ≤ 256)
    (hops : ∀ name mode, .fopen name mode ∈ ops → name.chars ∈ names) (hc : Clear [] ops) :
    (calls A ops boot).map Prod.fst = (performs ops empty).map Prod.fst ∧
      ∀ rs fs rs' s, calls A ops boot = some (rs, fs) → performs ops empty = some (rs', s) →
        Isolated A fs s := by
  obtain ⟨hn, hn'⟩ | ⟨rs, fs, s, created, hcalls, hperfs, hr⟩ :=
    calls_refines A hlen ops boot_refines (List.nil_subset names) hc hops
  · refine ⟨by rw [hn, hn']; rfl, fun rs fs rs' s hcalls _ => ?_⟩
    rw [hn] at hcalls
    cases hcalls
  · refine ⟨by rw [hcalls, hperfs]; rfl, fun rs' fs' rs'' s' hcalls' hperfs' => ?_⟩
    rw [hcalls] at hcalls'
    rw [hperfs] at hperfs'
    cases hcalls'
    cases hperfs'
    exact isolated A hr

end Runs

section Shadowed

def keepAll : Allocator := ⟨⟨fun data _ _ i => data i⟩, fun _ _ _ _ _ _ => rfl⟩

def nameA : Name := ⟨[0x61], by decide, by decide⟩

def nameAB : Name := ⟨[0x61, 0x62], by decide, by decide⟩

def clearOps : List Op :=
  [.fopen nameA [0x77], .fputc 7 0, .fopen nameAB [0x77], .fgetc 1, .fopen nameA [0x72], .fgetc 2]

theorem files_isolated_sample :
    (calls keepAll clearOps boot).map Prod.fst =
      some [.file (some 0), .int 1, .file (some 1), .int EOF, .file (some 2), .int 7] := by
  have hclear : Clear [] clearOps := by
    refine ⟨?_, ?_, ?_, trivial⟩ <;> decide
  have hnames : ∀ name mode, Op.fopen name mode ∈ clearOps →
      name.chars ∈ [nameA.chars, nameAB.chars] := by
    intro name mode hm
    simp only [clearOps, List.mem_cons, List.not_mem_nil, Op.fopen.injEq, reduceCtorEq, or_false,
      false_or] at hm
    obtain ⟨rfl, -⟩ | ⟨rfl, -⟩ | ⟨rfl, -⟩ := hm <;> simp
  rw [(files_isolated keepAll _ [nameA.chars, nameAB.chars] (by decide) hnames hclear).1]
  rfl

def shadowedOps : List Op := [.fopen nameAB [0x77], .fopen nameA [0x72]]

variable {s : Store} {i : ℕ}

theorem fopen_shadowed (hr : Refines created fs s) (hlen : created.length ≤ 256) (n : Name)
    (mode : Chars) (hi : i < created.length) (hpre : n.chars <+: created[i]) :
    ∃ fs', fopen n.ptr (mode ++ [0]) 257 fs = some (some fs.files.length, fs') := by
  cases hf : findEntry fs n.ptr with
  | none => exact absurd hpre (findEntry_none hr.stored n.no_nul hlen hf hi)
  | some p =>
    have hp := (List.find?_range_eq_some.mp hf).1
    obtain ⟨hpl, -⟩ := (matches_iff hr.stored n.no_nul).mp hp
    have hroot : fs.root p = some p := by rw [hr.stored.root p, if_pos hpl]
    exact ⟨_, by simp only [fopen, hf, hroot]; rfl⟩

theorem absent_file_opened :
    (calls keepAll shadowedOps boot).map Prod.fst = some [.file (some 0), .file (some 1)] ∧
      (performs shadowedOps empty).map Prod.fst = some [.file (some 0), .file none] := by
  refine ⟨?_, rfl⟩
  obtain ⟨fs, hopen, hr⟩ := fopen_refines boot_refines nameAB [0x77] (by decide) (by decide)
  have hcount : fs.files.length = 1 := hr.count
  have hpre : nameA.chars <+: [nameAB.chars][0] := by decide
  obtain ⟨fs', hopen'⟩ := fopen_shadowed hr (by decide) nameA [0x72] Nat.zero_lt_one hpre
  simp only [shadowedOps, calls, call, hopen, hopen', hcount, Option.map_some]
  rfl

end Shadowed

end Jiauliyan.FileIsolation
