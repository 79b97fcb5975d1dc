import Mathlib.Data.List.Infix

namespace Jiauliyan.Execution

section Runs

variable {S A : Type*}

/-- A finite run of a labelled step relation, with its labels in order. -/
inductive Run (step : S → A → S → Prop) : S → List A → S → Prop
  | nil (s : S) : Run step s [] s
  | cons {s t u : S} {a : A} {as : List A} :
      step s a t → Run step t as u → Run step s (a :: as) u

variable {step : S → A → S → Prop}

theorem Run.append {s t u : S} {as bs : List A}
    (h : Run step s as t) (h' : Run step t bs u) : Run step s (as ++ bs) u := by
  induction h with
  | nil s => exact h'
  | cons hs _ ih => exact Run.cons hs (ih h')

theorem Run.snoc {s t u : S} {as : List A} {a : A}
    (h : Run step s as t) (hs : step t a u) : Run step s (as ++ [a]) u :=
  h.append (Run.cons hs (Run.nil u))

theorem Run.invariant {P : S → Prop} {s t : S} {as : List A}
    (hstep : ∀ s a t, P s → step s a t → P t) (h : Run step s as t) (hs : P s) : P t := by
  induction h with
  | nil s => exact hs
  | cons hst _ ih => exact ih (hstep _ _ _ hs hst)

/-- Two step relations that agree wherever an invariant of both holds have the
same runs from there. -/
theorem Run.congr {step' : S → A → S → Prop} {P : S → Prop} {s t : S} {as : List A}
    (hkeep : ∀ s a t, P s → step s a t → P t)
    (hiff : ∀ s a t, P s → (step s a t ↔ step' s a t)) (hs : P s) :
    Run step s as t ↔ Run step' s as t := by
  constructor
  · intro h
    induction h with
    | nil s => exact Run.nil s
    | cons hst _ ih => exact Run.cons ((hiff _ _ _ hs).mp hst) (ih (hkeep _ _ _ hs hst))
  · intro h
    induction h with
    | nil s => exact Run.nil s
    | cons hst _ ih =>
      have hst' := (hiff _ _ _ hs).mpr hst
      exact Run.cons hst' (ih (hkeep _ _ _ hs hst'))

theorem Run.map {T : Type*} {step' : T → A → T → Prop} {s t : S} {as : List A} (f : S → T)
    (hsim : ∀ s a t, step s a t → step' (f s) a (f t)) (h : Run step s as t) :
    Run step' (f s) as (f t) := by
  induction h with
  | nil s => exact Run.nil (f s)
  | cons hst _ ih => exact Run.cons (hsim _ _ _ hst) ih

/-- A property of every step that a sequence of actions takes, up to one that
does not return. -/
def Along (next : S → A → Option S) (P : S → A → Prop) : S → List A → Prop
  | _, [] => True
  | s, a :: as => P s a ∧ ∀ t, next s a = some t → Along next P t as

theorem Along.congr {next : S → A → Option S} {P Q : S → A → Prop} (h : ∀ s a, P s a ↔ Q s a)
    (s : S) (as : List A) : Along next P s as ↔ Along next Q s as := by
  induction as generalizing s with
  | nil => exact Iff.rfl
  | cons a as ih => exact and_congr (h s a) (forall_congr' fun t => imp_congr_right fun _ => ih t)

theorem Along.iff_of_kept {next : S → A → Option S} {P Q : S → A → Prop} {I : S → Prop}
    (hiff : ∀ s a, I s → (P s a ↔ Q s a))
    (hkeep : ∀ s a t, I s → Q s a → next s a = some t → I t) {s : S} (hs : I s) (as : List A) :
    Along next P s as ↔ Along next Q s as := by
  induction as generalizing s with
  | nil => exact Iff.rfl
  | cons a as ih =>
    constructor
    · rintro ⟨hp, hrest⟩
      have hq := (hiff s a hs).mp hp
      exact ⟨hq, fun t ht => (ih (hkeep s a t hs hq ht)).mp (hrest t ht)⟩
    · rintro ⟨hq, hrest⟩
      have hp := (hiff s a hs).mpr hq
      exact ⟨hp, fun t ht => (ih (hkeep s a t hs hq ht)).mpr (hrest t ht)⟩

end Runs

section Loops

variable {σ ρ : Type*}

/-- A loop whose body either moves to a new state or leaves with a result.
It yields nothing when the fuel runs out. -/
def loop (body : σ → σ ⊕ ρ) : ℕ → σ → Option ρ
  | 0, _ => none
  | n + 1, s =>
    match body s with
    | .inl t => loop body n t
    | .inr r => some r

/-- The loop entered at `s` terminates with result `r`. -/
def Exits (body : σ → σ ⊕ ρ) (s : σ) (r : ρ) : Prop := ∃ n, loop body n s = some r

variable {body : σ → σ ⊕ ρ} {s t : σ} {r r' : ρ}

theorem loop_add {n : ℕ} (k : ℕ) (h : loop body n s = some r) : loop body (n + k) s = some r := by
  induction n generalizing s with
  | zero => simp [loop] at h
  | succ n ih =>
    rw [Nat.succ_add]
    simp only [loop] at h ⊢
    cases hb : body s with
    | inl t =>
      rw [hb] at h
      exact ih h
    | inr q =>
      rw [hb] at h
      exact h

theorem Exits.unique (h : Exits body s r) (h' : Exits body s r') : r = r' := by
  obtain ⟨n, hn⟩ := h
  obtain ⟨m, hm⟩ := h'
  have hnm := loop_add m hn
  have hmn := loop_add n hm
  rw [Nat.add_comm m n, hnm] at hmn
  exact Option.some.inj hmn

theorem exits_of_inr (h : body s = .inr r) : Exits body s r := ⟨1, by simp [loop, h]⟩

theorem exits_of_inl (h : body s = .inl t) (ht : Exits body t r) : Exits body s r := by
  obtain ⟨n, hn⟩ := ht
  exact ⟨n + 1, by simpa [loop, h] using hn⟩

theorem exits_inr_iff (h : body s = .inr r') : Exits body s r ↔ r = r' := by
  constructor
  · intro he
    exact he.unique (exits_of_inr h)
  · rintro rfl
    exact exits_of_inr h

theorem exits_inl_iff (h : body s = .inl t) : Exits body s r ↔ Exits body t r := by
  constructor
  · rintro ⟨n, hn⟩
    cases n with
    | zero => cases hn
    | succ n => exact ⟨n, by simpa [loop, h] using hn⟩
  · exact exits_of_inl h

theorem loop_map_unique {τ : Type*} {f : ρ → τ} {k l : ℕ} {a b : τ}
    (hk : (loop body k s).map f = some a) (hl : (loop body l s).map f = some b) : a = b := by
  obtain ⟨p, hp, rfl⟩ := Option.map_eq_some_iff.mp hk
  obtain ⟨q, hq, rfl⟩ := Option.map_eq_some_iff.mp hl
  rw [Exits.unique ⟨k, hp⟩ ⟨l, hq⟩]

theorem not_exits_of_kept {P : σ → Prop} (hkeep : ∀ s, P s → ∃ t, body s = .inl t ∧ P t)
    (hs : P s) : ¬Exits body s r := by
  rintro ⟨n, hn⟩
  induction n generalizing s with
  | zero => cases hn
  | succ n ih =>
    obtain ⟨t, ht, hp⟩ := hkeep s hs
    rw [loop, ht] at hn
    exact ih hp hn

theorem not_exits_of_self (h : body s = .inl s) : ¬Exits body s r := by
  have hkeep : ∀ t, t = s → ∃ u, body t = .inl u ∧ u = s := by
    rintro t rfl
    exact ⟨t, h, rfl⟩
  exact not_exits_of_kept hkeep rfl

end Loops

end Jiauliyan.Execution
