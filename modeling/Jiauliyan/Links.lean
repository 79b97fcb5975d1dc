import Mathlib.Data.Finset.Card
import Mathlib.Data.List.Nodup
import Mathlib.Logic.Function.Basic
import Mathlib.Logic.Relation

namespace Jiauliyan.Links

variable {α : Type} {next : α → Option α}

structure Linked (next : α → Option α) : Prop where
  inj : ∀ {i i' j}, next i = some j → next i' = some j → i = i'
  wf : WellFounded fun j i => next i = some j

def Reaches (next : α → Option α) : α → α → Prop :=
  Relation.ReflTransGen fun i j => next i = some j

inductive Path (next : α → Option α) : α → List α → Prop
  | last {i : α} : next i = none → Path next i [i]
  | link {i j : α} {l : List α} : next i = some j → Path next j l → Path next i (i :: l)

theorem Linked.path (h : Linked next) (i : α) : ∃ l, Path next i l := by
  induction i using h.wf.induction with
  | _ i ih =>
    cases hi : next i with
    | none => exact ⟨[i], .last hi⟩
    | some j =>
      obtain ⟨l, hl⟩ := ih j hi
      exact ⟨i :: l, .link hi hl⟩

theorem Linked.no_circle (h : Linked next) {i j : α} (hi : next i = some j)
    (hj : Reaches next j i) : False := by
  have hback : Relation.TransGen (fun i j => next i = some j) i i := .head' hi hj
  have hcircle : Relation.TransGen (fun j i => next i = some j) i i :=
    Relation.transGen_swap.mp hback
  exact h.wf.transGen.induction (C := fun i => ¬Relation.TransGen (fun j i => next i = some j) i i)
    i (fun i ih hi => ih i hi hi) hcircle

theorem Path.mem_iff {i x : α} {l : List α} (h : Path next i l) : x ∈ l ↔ Reaches next i x := by
  induction h with
  | @last i hi =>
    rw [List.mem_singleton]
    constructor
    · rintro rfl
      exact .refl
    · intro hx
      obtain heq | ⟨j, hj, -⟩ := hx.cases_head
      · exact heq.symm
      · rw [hi] at hj
        cases hj
  | @link i j l hi _ ih =>
    rw [List.mem_cons, ih]
    constructor
    · rintro (rfl | hx)
      · exact .refl
      · exact .head hi hx
    · intro hx
      obtain heq | ⟨k, hk, hx⟩ := hx.cases_head
      · exact .inl heq.symm
      · rw [hi] at hk
        cases hk
        exact .inr hx

theorem Path.nodup {i : α} {l : List α} (hl : Linked next) (h : Path next i l) : l.Nodup := by
  induction h with
  | last hi => exact List.nodup_singleton _
  | @link i j l hi hj ih =>
    refine List.nodup_cons.mpr ⟨fun hmem => ?_, ih⟩
    exact hl.no_circle hi (hj.mem_iff.mp hmem)

theorem Path.length_le {i : α} {l : List α} [DecidableEq α] (hl : Linked next) (h : Path next i l)
    {s : Finset α} (hs : ∀ x, Reaches next i x → x ∈ s) : l.length ≤ s.card := by
  rw [← List.toFinset_card_of_nodup (h.nodup hl)]
  exact Finset.card_le_card fun x hx => hs x (h.mem_iff.mp (List.mem_toFinset.mp hx))

structure Free (next : α → Option α) (n : α) : Prop where
  out : next n = none
  into : ∀ i, next i ≠ some n

theorem Linked.replace_ne {q p n : α} (h : Linked next) (hn : Free next n)
    (hq : next q = some p) : q ≠ p ∧ q ≠ n ∧ n ≠ p := by
  refine ⟨?_, ?_, ?_⟩
  · rintro rfl
    exact h.no_circle hq .refl
  · rintro rfl
    rw [hn.out] at hq
    cases hq
  · rintro rfl
    exact hn.into _ hq

def search (next : α → Option α) (p : α → Bool) : ℕ → α → Option (Option α)
  | 0, _ => none
  | n + 1, i =>
    if p i then some (some i)
    else match next i with
      | none => some none
      | some j => search next p n j

theorem search_path {p : α → Bool} {i : α} {l : List α} (h : Path next i l) {n : ℕ}
    (hn : l.length ≤ n) : search next p n i = some (l.find? p) := by
  induction h generalizing n with
  | @last i hi =>
    cases n with
    | zero => exact absurd hn (Nat.not_succ_le_zero _)
    | succ n =>
      rw [search, hi]
      cases hp : p i <;> simp [hp]
  | @link i j l hi hj ih =>
    cases n with
    | zero => exact absurd hn (Nat.not_succ_le_zero _)
    | succ n =>
      rw [search, hi]
      cases hp : p i with
      | true => simp [hp]
      | false =>
        have hrest := ih (Nat.le_of_succ_le_succ hn)
        simp [hp, hrest]

variable [DecidableEq α]

theorem Linked.search_spec (h : Linked next) {i : α} {s : Finset α}
    (hs : ∀ x, Reaches next i x → x ∈ s) (p : α → Bool) :
    ∃ r, search next p s.card i = some r ∧
      (∀ x, r = some x → p x = true ∧ Reaches next i x) ∧
      (r = none → ∀ x, Reaches next i x → p x = false) := by
  obtain ⟨l, hl⟩ := h.path i
  refine ⟨l.find? p, search_path hl (hl.length_le h hs), fun x hx => ?_, fun hnone x hx => ?_⟩
  · exact ⟨List.find?_some hx, hl.mem_iff.mp (List.mem_of_find?_eq_some hx)⟩
  · exact Bool.of_not_eq_true (List.find?_eq_none.mp hnone x (hl.mem_iff.mpr hx))

def insertAfter (next : α → Option α) (p n : α) : α → Option α :=
  Function.update (Function.update next n (next p)) p (some n)

def replace (next : α → Option α) (q p n : α) : α → Option α :=
  Function.update (Function.update (Function.update next q (some n)) n (next p)) p none

section Insert

variable {p n : α}

theorem insert_self (p n : α) : insertAfter next p n p = some n := Function.update_self ..

theorem insert_new (hne : n ≠ p) : insertAfter next p n n = next p := by
  rw [insertAfter, Function.update_of_ne hne, Function.update_self]

theorem insert_of_ne {i : α} (hp : i ≠ p) (hn : i ≠ n) : insertAfter next p n i = next i := by
  rw [insertAfter, Function.update_of_ne hp, Function.update_of_ne hn]

theorem insert_reaches (hn : Free next n) (hne : n ≠ p) {i j : α} (h : Reaches next i j) :
    Reaches (insertAfter next p n) i j := by
  induction h using Relation.ReflTransGen.head_induction_on with
  | refl => exact .refl
  | @head i k hi _ ih =>
    by_cases hip : i = p
    · subst hip
      exact .head (insert_self i n) (.head ((insert_new hne).trans hi) ih)
    · have hin : i ≠ n := by
        rintro rfl
        rw [hn.out] at hi
        cases hi
      exact .head ((insert_of_ne hip hin).trans hi) ih

theorem insert_cases {i j : α} (h : insertAfter next p n i = some j) :
    i = p ∧ j = n ∨ i = n ∧ next p = some j ∨ i ≠ p ∧ next i = some j := by
  by_cases hip : i = p
  · subst hip
    rw [insert_self] at h
    exact .inl ⟨rfl, (Option.some.inj h).symm⟩
  · by_cases hin : i = n
    · subst hin
      rw [insert_new hip] at h
      exact .inr (.inl ⟨rfl, h⟩)
    · rw [insert_of_ne hip hin] at h
      exact .inr (.inr ⟨hip, h⟩)

theorem Linked.insert (h : Linked next) (hn : Free next n) (hne : n ≠ p) :
    Linked (insertAfter next p n) := by
  refine ⟨fun {i i' j} hi hi' => ?_, ?_⟩
  · obtain ⟨rfl, rfl⟩ | ⟨rfl, hj⟩ | ⟨hip, hj⟩ := insert_cases hi <;>
      obtain ⟨rfl, hj'⟩ | ⟨rfl, hj'⟩ | ⟨hip', hj'⟩ := insert_cases hi'
    · rfl
    · exact absurd hj' (hn.into _)
    · exact absurd hj' (hn.into _)
    · exact absurd (hj' ▸ hj) (hn.into _)
    · rfl
    · exact absurd (h.inj hj hj').symm hip'
    · exact absurd (hj' ▸ hj) (hn.into _)
    · exact absurd (h.inj hj hj') hip
    · exact h.inj hj hj'
  · have hnew : (∀ k, next p = some k → Acc (fun j i => Links.insertAfter next p n i = some j) k) →
        Acc (fun j i => Links.insertAfter next p n i = some j) n := by
      intro hacc
      refine ⟨_, fun k hk => ?_⟩
      obtain ⟨hnp, -⟩ | ⟨-, hk⟩ | ⟨-, hk⟩ := insert_cases hk
      · exact absurd hnp hne
      · exact hacc k hk
      · rw [hn.out] at hk
        cases hk
    have hold : ∀ i, i ≠ n → Acc (fun j i => Links.insertAfter next p n i = some j) i := by
      intro i
      induction i using h.wf.induction with
      | _ i ih =>
        intro hin
        have hafter : ∀ k, next i = some k →
            Acc (fun j i => Links.insertAfter next p n i = some j) k :=
          fun k hk => ih k hk fun hkn => hn.into _ (hkn ▸ hk)
        refine ⟨_, fun j hj => ?_⟩
        obtain ⟨rfl, rfl⟩ | ⟨rfl, -⟩ | ⟨-, hj⟩ := insert_cases hj
        · exact hnew hafter
        · exact absurd rfl hin
        · exact hafter j hj
    refine ⟨fun i => ?_⟩
    by_cases hin : i = n
    · subst hin
      exact hnew fun k hk => hold k fun hkn => hn.into _ (hkn ▸ hk)
    · exact hold i hin

end Insert

section Replace

variable {q p n : α}

theorem replace_cases {i j : α} (h : replace next q p n i = some j) :
    i ≠ p ∧ (i = n ∧ next p = some j ∨ i = q ∧ j = n ∨ i ≠ n ∧ i ≠ q ∧ next i = some j) := by
  by_cases hip : i = p
  · subst hip
    rw [replace, Function.update_self] at h
    cases h
  refine ⟨hip, ?_⟩
  rw [replace, Function.update_of_ne hip] at h
  by_cases hin : i = n
  · subst hin
    rw [Function.update_self] at h
    exact .inl ⟨rfl, h⟩
  rw [Function.update_of_ne hin] at h
  by_cases hiq : i = q
  · subst hiq
    rw [Function.update_self] at h
    exact .inr (.inl ⟨rfl, (Option.some.inj h).symm⟩)
  · rw [Function.update_of_ne hiq] at h
    exact .inr (.inr ⟨hin, hiq, h⟩)

theorem replace_new (hne : n ≠ p) : replace next q p n n = next p := by
  rw [replace, Function.update_of_ne hne, Function.update_self]

theorem replace_before (hqp : q ≠ p) (hqn : q ≠ n) : replace next q p n q = some n := by
  rw [replace, Function.update_of_ne hqp, Function.update_of_ne hqn, Function.update_self]

theorem replace_of_ne {i : α} (hp : i ≠ p) (hn : i ≠ n) (hq : i ≠ q) :
    replace next q p n i = next i := by
  rw [replace, Function.update_of_ne hp, Function.update_of_ne hn, Function.update_of_ne hq]

theorem Linked.replace_reaches (h : Linked next) (hn : Free next n) (hq : next q = some p)
    {i j : α} (hij : Reaches next i j) (hj : j ≠ p) :
    (i ≠ p → Reaches (replace next q p n) i j) ∧ (i = p → Reaches (replace next q p n) n j) := by
  obtain ⟨hqp, hqn, hnp⟩ := h.replace_ne hn hq
  induction hij using Relation.ReflTransGen.head_induction_on with
  | refl => exact ⟨fun _ => .refl, fun hjp => absurd hjp hj⟩
  | @head i k hi hkj ih =>
    constructor
    · intro hip
      by_cases hiq : i = q
      · subst hiq
        rw [hq] at hi
        cases hi
        exact .head (replace_before hqp hqn) (ih.2 rfl)
      · have hin : i ≠ n := by
          rintro rfl
          rw [hn.out] at hi
          cases hi
        have hkp : k ≠ p := by
          rintro rfl
          exact hiq (h.inj hi hq)
        exact .head ((replace_of_ne hip hin hiq).trans hi) (ih.1 hkp)
    · rintro rfl
      have hkp : k ≠ i := by
        rintro rfl
        exact h.no_circle hi .refl
      exact .head ((replace_new hnp).trans hi) (ih.1 hkp)

theorem Linked.replace_reaches_new (h : Linked next) (hn : Free next n) (hq : next q = some p)
    {i : α} (hi : Reaches next i p) (hip : i ≠ p) : Reaches (replace next q p n) i n := by
  obtain ⟨hqp, hqn, -⟩ := h.replace_ne hn hq
  induction hi using Relation.ReflTransGen.head_induction_on with
  | refl => exact absurd rfl hip
  | @head i k hik hkp ih =>
    by_cases hk : k = p
    · subst hk
      obtain rfl := h.inj hik hq
      exact .head (replace_before hqp hqn) .refl
    · have hin : i ≠ n := by
        rintro rfl
        rw [hn.out] at hik
        cases hik
      have hiq : i ≠ q := by
        rintro rfl
        rw [hq] at hik
        exact hk (Option.some.inj hik).symm
      exact .head ((replace_of_ne hip hin hiq).trans hik) (ih hk)

theorem Linked.replace (h : Linked next) (hn : Free next n) (hq : next q = some p) :
    Linked (replace next q p n) := by
  refine ⟨fun {i i' j} hi hi' => ?_, ?_⟩
  · obtain ⟨hip, ⟨rfl, hj⟩ | ⟨rfl, rfl⟩ | ⟨hin, hiq, hj⟩⟩ := replace_cases hi <;>
      obtain ⟨hip', ⟨rfl, hj'⟩ | ⟨rfl, hj'⟩ | ⟨hin', hiq', hj'⟩⟩ := replace_cases hi'
    · rfl
    · exact absurd (hj' ▸ hj) (hn.into _)
    · exact absurd (h.inj hj hj').symm hip'
    · exact absurd hj' (hn.into _)
    · rfl
    · exact absurd hj' (hn.into _)
    · exact absurd (h.inj hj hj') hip
    · exact absurd (hj' ▸ hj) (hn.into _)
    · exact h.inj hj hj'
  · have hnew : (∀ k, next p = some k → Acc (fun j i => Links.replace next q p n i = some j) k) →
        Acc (fun j i => Links.replace next q p n i = some j) n := by
      intro hacc
      refine ⟨_, fun k hk => ?_⟩
      obtain ⟨-, ⟨-, hk⟩ | ⟨rfl, -⟩ | ⟨hnn, -⟩⟩ := replace_cases hk
      · exact hacc k hk
      · exact absurd rfl (h.replace_ne hn hq).2.1
      · exact absurd rfl hnn
    have hold : ∀ i, i ≠ n → Acc (fun j i => Links.replace next q p n i = some j) i := by
      intro i
      induction i using h.wf.transGen.induction with
      | _ i ih =>
        intro hin
        refine ⟨_, fun j hj => ?_⟩
        obtain ⟨-, ⟨rfl, -⟩ | ⟨rfl, rfl⟩ | ⟨-, -, hj⟩⟩ := replace_cases hj
        · exact absurd rfl hin
        · exact hnew fun k hk => ih k (.head hk (.single hq)) fun hkn => hn.into _ (hkn ▸ hk)
        · exact ih j (.single hj) fun hjn => hn.into _ (hjn ▸ hj)
    refine ⟨fun i => ?_⟩
    by_cases hin : i = n
    · subst hin
      exact hnew fun k hk => hold k fun hkn => hn.into _ (hkn ▸ hk)
    · exact hold i hin

end Replace

end Jiauliyan.Links
