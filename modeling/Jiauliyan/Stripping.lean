import Mathlib.Data.List.DropRight

namespace Jiauliyan.Stripping

variable {α : Type} {p : α → Bool} {s t w w₁ w₂ : List α}

/-- All of the elements may be stripped. -/
def Blank (p : α → Bool) (w : List α) : Prop := ∀ c ∈ w, p c = true

/-- What is left of a list between its first and its last element that stays. -/
structure Stripped (p : α → Bool) (s t : List α) : Prop where
  split : ∃ w₁ w₂, s = w₁ ++ t ++ w₂ ∧ Blank p w₁ ∧ Blank p w₂
  first : ∀ c ∈ t.head?, p c = false
  last : ∀ c ∈ t.getLast?, p c = false

def strip (p : α → Bool) (s : List α) : List α := (s.dropWhile p).rdropWhile p

theorem Blank.nil : Blank p [] := by
  intro c hc
  cases hc

theorem Blank.append (h₁ : Blank p w₁) (h₂ : Blank p w₂) : Blank p (w₁ ++ w₂) := by
  intro c hc
  obtain h | h := List.mem_append.mp hc
  · exact h₁ c h
  · exact h₂ c h

theorem Stripped.pad (h : Stripped p s t) (h₁ : Blank p w₁) (h₂ : Blank p w₂) :
    Stripped p (w₁ ++ s ++ w₂) t where
  split := by
    obtain ⟨v₁, v₂, rfl, hv₁, hv₂⟩ := h.split
    exact ⟨w₁ ++ v₁, v₂ ++ w₂, by simp only [List.append_assoc], h₁.append hv₁, hv₂.append h₂⟩
  first := h.first
  last := h.last

theorem Stripped.self (h : Stripped p s t) : Stripped p t t where
  split := ⟨[], [], by rw [List.nil_append, List.append_nil], Blank.nil, Blank.nil⟩
  first := h.first
  last := h.last

theorem Stripped.of_forall (h : ∀ c ∈ s, p c = false) : Stripped p s s where
  split := ⟨[], [], by rw [List.nil_append, List.append_nil], Blank.nil, Blank.nil⟩
  first c hc := h c (List.mem_of_mem_head? hc)
  last c hc := h c (List.mem_of_mem_getLast? hc)

theorem Stripped.length_le (h : Stripped p s t) : t.length ≤ s.length := by
  obtain ⟨w₁, w₂, rfl, -, -⟩ := h.split
  simp only [List.length_append]
  omega

theorem dropWhile_blank (hw : Blank p w) (s : List α) : (w ++ s).dropWhile p = s.dropWhile p :=
  List.dropWhile_append_of_pos hw

theorem rdropWhile_blank (hw : Blank p w) (s : List α) :
    (s ++ w).rdropWhile p = s.rdropWhile p := by
  have hrev : Blank p w.reverse := fun c hc => hw c (List.mem_reverse.mp hc)
  rw [List.rdropWhile, List.reverse_append, dropWhile_blank hrev, List.rdropWhile]

theorem Stripped.eq_strip (h : Stripped p s t) : t = strip p s := by
  obtain ⟨w₁, w₂, rfl, h₁, h₂⟩ := h.split
  rw [strip, List.append_assoc, dropWhile_blank h₁]
  cases t with
  | nil =>
    have hall : w₂.dropWhile p = [] := List.dropWhile_eq_nil_iff.mpr h₂
    rw [List.nil_append, hall]
    rfl
  | cons c t =>
    have hc : p c = false := h.first c rfl
    rw [List.cons_append, List.dropWhile_cons_of_neg (by simp [hc]), ← List.cons_append,
      rdropWhile_blank h₂]
    refine (List.rdropWhile_eq_self_iff.mpr fun hne => ?_).symm
    have hlast := h.last _ (List.getLast?_eq_some_getLast hne)
    simp [hlast]

theorem strip_stripped (p : α → Bool) (s : List α) : Stripped p s (strip p s) where
  split := by
    refine ⟨s.takeWhile p, (s.dropWhile p).rtakeWhile p, ?_, fun c hc => List.mem_takeWhile_imp hc,
      fun c hc => List.mem_rtakeWhile_imp hc⟩
    rw [strip, List.append_assoc, List.rdropWhile_append_rtakeWhile,
      List.takeWhile_append_dropWhile]
  first c hc := by
    obtain ⟨w, hw⟩ : strip p s <+: s.dropWhile p := List.rdropWhile_prefix p _
    have hhead : c ∈ (s.dropWhile p).head? := by
      rw [← hw]
      exact List.mem_head?_append_of_mem_head? hc
    have hnot := List.head?_dropWhile_not p s
    rw [Option.mem_def.mp hhead] at hnot
    exact hnot
  last c hc := by
    have hne : strip p s ≠ [] := by
      intro h
      rw [h] at hc
      cases hc
    have hlast : (strip p s).getLast hne = c :=
      Option.some.inj ((List.getLast?_eq_some_getLast hne).symm.trans hc)
    have hnot := List.rdropWhile_last_not p (s.dropWhile p) hne
    rw [← hlast]
    exact Bool.eq_false_iff.mpr hnot

end Jiauliyan.Stripping
