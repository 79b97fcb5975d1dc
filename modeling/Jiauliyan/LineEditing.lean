import Mathlib.Algebra.Group.Even
import Mathlib.Algebra.Ring.Parity
import Jiauliyan.Framing
import Jiauliyan.LuaPattern

namespace Jiauliyan.LineEditing

open Jiauliyan.Framing (Bytes)
open Jiauliyan.LuaPattern

/-- `".\b"`. -/
def beforeBackspace : Pattern UInt8 := ⟨fun _ => true, [fun c => c == 8]⟩

theorem matchAt_pair (a b : UInt8) (s : Bytes) :
    beforeBackspace.matchAt (a :: b :: s) = if b = 8 then some ([a, b], s) else none := by
  by_cases hb : b = 8
  · subst hb
    rfl
  · rw [if_neg hb]
    simp [Pattern.matchAt, matchClasses, beforeBackspace, hb]

theorem matchAt_eq {s m rest : Bytes} (h : beforeBackspace.matchAt s = some (m, rest)) :
    ∃ a, m = [a, 8] := by
  match s, h with
  | [a], h => cases h
  | a :: b :: s, h =>
    rw [matchAt_pair] at h
    split_ifs at h with hb
    obtain ⟨rfl, -⟩ := Prod.mk.inj (Option.some.inj h)
    exact ⟨a, by rw [hb]⟩

/-- What a substitution finds: the last character in front of the first backspace that is not at
the start, with that backspace. -/
theorem gsub_backspace (cmd : Bytes) :
    (gsub beforeBackspace (fun _ => []) (some 1) cmd = (cmd, 0) ∧ 8 ∉ cmd.tail) ∨
    ∃ pre a rest, cmd = pre ++ a :: 8 :: rest ∧ (a = 8 → pre = []) ∧
      gsub beforeBackspace (fun _ => []) (some 1) cmd = (pre ++ rest, 1) := by
  obtain ⟨hnone, hall⟩ | ⟨pre, m, rest, hsrc, hmatch, hone, hfirst⟩ :=
    gsub_once beforeBackspace (fun _ => []) cmd
  · refine .inl ⟨hnone, fun hmem => ?_⟩
    cases cmd with
    | nil => cases hmem
    | cons c cmd =>
      obtain ⟨t, t', rfl⟩ := List.append_of_mem hmem
      -- the character in front of the backspace
      obtain ⟨pre, a, ha⟩ : ∃ pre a, c :: t = pre ++ [a] :=
        ⟨_, _, (List.dropLast_append_getLast (List.cons_ne_nil c t)).symm⟩
      have hmatch := hall pre (a :: 8 :: t') (by
        rw [← List.cons_append, ha, List.append_assoc]
        rfl)
      rw [matchAt_pair, if_pos rfl] at hmatch
      cases hmatch
  · obtain ⟨a, rfl⟩ := matchAt_eq hmatch
    refine .inr ⟨pre, a, rest, hsrc, ?_, hone⟩
    rintro rfl
    by_contra hne
    obtain ⟨pre', b, rfl⟩ : ∃ pre' b, pre = pre' ++ [b] :=
      ⟨_, _, (List.dropLast_append_getLast hne).symm⟩
    have hnone := hfirst pre' (b :: 8 :: 8 :: rest) (by rw [hsrc]; simp) (by simp)
    rw [matchAt_pair, if_pos rfl] at hnone
    cases hnone

def removebackspace (cmd : Bytes) : Bytes :=
  match _h : gsub beforeBackspace (fun _ => []) (some 1) cmd with
  | (cmd', count) => if 0 < count then removebackspace cmd' else cmd'
termination_by cmd.length
decreasing_by
  obtain ⟨hnone, -⟩ | ⟨pre, a, rest, rfl, -, hone⟩ := gsub_backspace cmd
  · rw [hnone] at _h
    obtain ⟨rfl, rfl⟩ := Prod.mk.inj _h
    omega
  · rw [hone] at _h
    obtain ⟨rfl, -⟩ := Prod.mk.inj _h
    simp only [List.length_append, List.length_cons]
    omega

/-- A line that is typed, and the number of backspaces that have found nothing to delete. -/
structure Editor where
  line : Bytes
  ignored : ℕ

def Editor.type (e : Editor) (c : UInt8) : Editor :=
  if c = 8 then
    if e.line = [] then { e with ignored := e.ignored + 1 }
    else { e with line := e.line.dropLast }
  else { e with line := e.line ++ [c] }

def typed (cmd : Bytes) : Editor := cmd.foldl Editor.type ⟨[], 0⟩

/-- What `removebackspace` keeps of an editor: one of an odd number of ignored backspaces stays in
front of the line. -/
def Editor.left (e : Editor) : Bytes := (if Even e.ignored then [] else [8]) ++ e.line

section Typing

variable {e : Editor} {a : UInt8} {cmd pre rest t : Bytes}

theorem typed_append (pre rest : Bytes) :
    typed (pre ++ rest) = rest.foldl Editor.type (typed pre) := List.foldl_append

theorem type_pair (ha : a ≠ 8) : (e.type a).type 8 = e := by
  have htype : e.type a = { e with line := e.line ++ [a] } := if_neg ha
  rw [htype, Editor.type, if_pos rfl, if_neg (List.append_ne_nil_of_right_ne_nil _ (by simp)),
    List.dropLast_concat]

theorem type_text (h : 8 ∉ t) : t.foldl Editor.type e = { e with line := e.line ++ t } := by
  induction t generalizing e with
  | nil => rw [List.append_nil, List.foldl_nil]
  | cons c t ih =>
    obtain ⟨hc, ht⟩ := List.ne_and_not_mem_of_not_mem_cons h
    rw [List.foldl_cons, ih ht, Editor.type, if_neg hc.symm, List.append_assoc]
    rfl

theorem type_ignored (rest : Bytes) (k : ℕ) :
    rest.foldl Editor.type { e with ignored := e.ignored + k } =
      { rest.foldl Editor.type e with ignored := (rest.foldl Editor.type e).ignored + k } := by
  induction rest generalizing e with
  | nil => rfl
  | cons c rest ih =>
    have hstep : ({ e with ignored := e.ignored + k } : Editor).type c =
        { e.type c with ignored := (e.type c).ignored + k } := by
      simp only [Editor.type]
      split_ifs
      · rw [Nat.add_right_comm]
      · rfl
      · rfl
    rw [List.foldl_cons, hstep, ih, List.foldl_cons]

theorem typed_line (cmd : Bytes) : 8 ∉ (typed cmd).line := by
  induction cmd using List.reverseRecOn with
  | nil => exact List.not_mem_nil
  | append_singleton cmd c ih =>
    rw [typed_append, List.foldl_cons, List.foldl_nil, Editor.type]
    split_ifs with hc hl
    · exact ih
    · exact fun hmem => ih (List.dropLast_subset _ hmem)
    · rw [List.mem_append, List.mem_singleton]
      rintro (hmem | rfl)
      · exact ih hmem
      · exact hc rfl

theorem left_match (ha : a = 8 → pre = []) :
    (typed (pre ++ a :: 8 :: rest)).left = (typed (pre ++ rest)).left := by
  rw [typed_append, typed_append, List.foldl_cons, List.foldl_cons]
  by_cases h8 : a = 8
  · -- two backspaces at the start are both ignored
    obtain rfl := ha h8
    subst h8
    have hstart : ((typed []).type 8).type 8 =
        { typed [] with ignored := (typed []).ignored + 2 } := rfl
    rw [hstart, type_ignored rest 2, Editor.left, Editor.left]
    simp only [Nat.even_add, even_two, iff_true]
  · rw [type_pair h8]

theorem left_text (h : 8 ∉ cmd.tail) : (typed cmd).left = cmd := by
  cases cmd with
  | nil => rfl
  | cons c t =>
    rw [List.tail_cons] at h
    rw [typed, List.foldl_cons, type_text h]
    by_cases hc : c = 8
    · subst hc
      rfl
    · rw [Editor.type, if_neg hc]
      rfl

theorem left_tail (cmd : Bytes) : 8 ∉ (typed cmd).left.tail := by
  have hline := typed_line cmd
  rw [Editor.left]
  split_ifs
  · rw [List.nil_append]
    exact fun hmem => hline (List.mem_of_mem_tail hmem)
  · exact hline

end Typing

theorem removebackspace_eq (cmd : Bytes) : removebackspace cmd = (typed cmd).left := by
  induction cmd using removebackspace.induct with
  | case1 cmd cmd' count hsub hcount ih =>
    rw [removebackspace]
    simp only [hsub, if_pos hcount, ih]
    obtain ⟨hnone, -⟩ | ⟨pre, a, rest, rfl, ha, hone⟩ := gsub_backspace cmd
    · obtain ⟨-, rfl⟩ := Prod.mk.inj (hsub.symm.trans hnone)
      cases hcount
    · obtain ⟨rfl, -⟩ := Prod.mk.inj (hsub.symm.trans hone)
      exact (left_match ha).symm
  | case2 cmd cmd' count hsub hcount =>
    rw [removebackspace]
    simp only [hsub, if_neg hcount]
    obtain ⟨hnone, htail⟩ | ⟨pre, a, rest, rfl, ha, hone⟩ := gsub_backspace cmd
    · obtain ⟨rfl, -⟩ := Prod.mk.inj (hsub.symm.trans hnone)
      exact (left_text htail).symm
    · obtain ⟨-, rfl⟩ := Prod.mk.inj (hsub.symm.trans hone)
      exact absurd Nat.zero_lt_one hcount

theorem removebackspace_twice (cmd : Bytes) :
    removebackspace (removebackspace cmd) = removebackspace cmd := by
  rw [removebackspace_eq cmd, removebackspace_eq, left_text (left_tail cmd)]

/-- The line is as it has been edited, without backspaces. -/
structure Edits (cmd : Bytes) : Prop where
  line : removebackspace cmd = (typed cmd).line
  clean : 8 ∉ removebackspace cmd
  twice : removebackspace (removebackspace cmd) = removebackspace cmd

/-- The rewriting edits the line, but two backspaces that find nothing to delete cancel each other,
and a last one of them stays. -/
theorem removebackspace_iff (cmd : Bytes) : Edits cmd ↔ Even (typed cmd).ignored := by
  constructor
  · rintro ⟨-, hclean, -⟩
    by_contra hodd
    rw [removebackspace_eq, Editor.left, if_neg hodd] at hclean
    exact hclean List.mem_cons_self
  · intro heven
    have hline : removebackspace cmd = (typed cmd).line := by
      rw [removebackspace_eq, Editor.left, if_pos heven, List.nil_append]
    refine ⟨hline, ?_, removebackspace_twice cmd⟩
    rw [hline]
    exact typed_line cmd

theorem backspace_stays : ¬∀ cmd, Edits cmd := by
  intro h
  have hclean := (h [8, 0x6C, 0x73]).clean
  rw [removebackspace_eq] at hclean
  revert hclean
  decide

end Jiauliyan.LineEditing
