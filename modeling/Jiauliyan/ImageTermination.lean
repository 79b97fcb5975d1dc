import Mathlib.Logic.Relation
import Jiauliyan.ImageConvert

namespace Jiauliyan.ImageTermination

open Jiauliyan.Execution Jiauliyan.ImageConvert
open Jiauliyan.Stripping (strip_stripped)
open Jiauliyan.TerminalRefinement (Colours)

/-- What stands between the bracket and the letter of a colour sequence: numbers that `int`
reads. -/
structure Parameters where
  bytes : Bytes
  numbers : ∀ p ∈ bytes.splitOn 0x3B, (int p).isSome = true
  line : 0x0A ∉ bytes

inductive Piece
  | save
  | restore
  | colour (params : Parameters)
  | text (b : { b : UInt8 // b ≠ 0x1B })

def Piece.bytes : Piece → Bytes
  | .save => [0x1B, 0x5B, 0x73, 0x0A]
  | .restore => [0x1B, 0x5B, 0x75]
  | .colour params => 0x1B :: 0x5B :: (params.bytes ++ [0x6D])
  | .text b => [b]

def Piece.IsText : Piece → Prop
  | .text _ => True
  | _ => False

/-- The output is put together from complete sequences that `convert` knows, and from text, which
needs a second byte of the output that is no newline. -/
def Passes (output rest : Bytes) : Prop :=
  ∃ ps : List Piece, rest = ps.flatMap Piece.bytes ∧ ∀ p ∈ ps, p.IsText → Admits output

def start (output : Bytes) : Scan := ⟨output, ⟨0, 0⟩, [], 0⟩

def Reached (output : Bytes) : Scan → Prop :=
  Relation.ReflTransGen (fun s t => convertBody output s = .inl t) (start output)

/-- Every round of the loop moves on, without an exception, and the loop ends. -/
structure Advances (output : Bytes) : Prop where
  moves : ∀ s, Reached output s → s.rest ≠ [] →
    ∃ t, convertBody output s = .inl t ∧ t.rest.length < s.rest.length
  returns : ∃ d printed, Converts output d printed

section Numbers

variable {s : Bytes} {b : UInt8}

def numeric (b : UInt8) : Bool := isDigit b || isSpace b || b == 0x2B || b == 0x2D

theorem readDigits_numeric (h : (readDigits s).isSome = true) (hb : b ∈ s) : numeric b = true := by
  rw [readDigits] at h
  split_ifs at h with hs
  · have hd := List.all_eq_true.mp hs.2 b hb
    rw [numeric, hd]
    rfl
  · cases h

theorem int_numeric (h : (int s).isSome = true) (hb : b ∈ s) : numeric b = true := by
  obtain ⟨w₁, w₂, hs, h₁, h₂⟩ := (strip_stripped isSpace s).split
  have hspace : ∀ {b}, isSpace b = true → numeric b = true := by
    intro b hb
    rw [numeric, hb, Bool.or_true]
    rfl
  have hmiddle : ∀ b ∈ strip s, numeric b = true := by
    intro b hb
    rw [int] at h
    split at h
    · next t ht =>
      rw [ht, List.mem_cons] at hb
      obtain rfl | hb := hb
      · rfl
      · exact readDigits_numeric (by simpa using h) hb
    · next t ht =>
      rw [ht, List.mem_cons] at hb
      obtain rfl | hb := hb
      · rfl
      · exact readDigits_numeric h hb
    · exact readDigits_numeric h hb
  rw [hs, List.mem_append, List.mem_append] at hb
  obtain (hb | hb) | hb := hb
  · exact hspace (h₁ b hb)
  · exact hmiddle b hb
  · exact hspace (h₂ b hb)

theorem Parameters.numeric (q : Parameters) (hb : b ∈ q.bytes) :
    b = 0x3B ∨ ImageTermination.numeric b = true := by
  have hjoin : [0x3B].intercalate (q.bytes.splitOn 0x3B) = q.bytes := List.intercalate_splitOn 0x3B
  rw [← hjoin] at hb
  obtain rfl | ⟨p, hp, hb⟩ := mem_intercalate hb
  · exact .inl rfl
  · exact .inr (int_numeric (q.numbers p hp) hb)

theorem Parameters.letter (q : Parameters) (hb : 0x3B < b.toNat) : b ∉ q.bytes := by
  intro hmem
  obtain rfl | hnum := q.numeric hmem
  · exact absurd hb (by decide)
  · simp only [ImageTermination.numeric, isDigit, isSpace, Bool.or_eq_true, Bool.and_eq_true,
      decide_eq_true_eq, beq_iff_eq, UInt8.le_iff_toNat_le, ← UInt8.toNat_inj] at hnum
    simp only [UInt8.reduceToNat] at hnum
    omega

theorem setAll_isSome (c : Colours) (ss : List Bytes) :
    (setAll c ss).isSome = true ↔ ∀ s ∈ ss, (int s).isSome = true := by
  induction ss generalizing c with
  | nil => simp [setAll]
  | cons s ss ih =>
    rw [setAll, List.forall_mem_cons]
    cases int s with
    | none => simp
    | some p => simp [ih]

end Numbers

theorem sgrParams_some {rest params : Bytes} (h : sgrParams rest = some params) :
    ∃ rest', rest = 0x5B :: (params ++ 0x6D :: rest') ∧ 0x0A ∉ params := by
  unfold sgrParams at h
  split at h
  · next rest =>
    dsimp only at h
    split_ifs at h with hparams
    obtain rfl := Option.some.inj h
    obtain ⟨hline, hlen⟩ := hparams
    have hsplit := List.takeWhile_append_dropWhile (p := (· ≠ (0x6D : UInt8))) (l := rest)
    cases hdrop : rest.dropWhile (· ≠ 0x6D) with
    | nil =>
      rw [hdrop, List.append_nil] at hsplit
      rw [hsplit] at hlen
      exact absurd hlen (lt_irrefl _)
    | cons b rest' =>
      have hb := List.head?_dropWhile_not (· ≠ (0x6D : UInt8)) rest
      rw [hdrop] at hb
      obtain rfl : b = 0x6D := by simpa using hb
      rw [hdrop] at hsplit
      exact ⟨rest', by rw [hsplit], hline⟩
  · cases h

section Rounds

variable {output rest d : Bytes} {c : Colours} {n : ℕ} {s : Scan}

theorem Piece.bytes_pos (p : Piece) : 0 < p.bytes.length := by
  cases p with
  | save | restore | text b => exact Nat.zero_lt_succ _
  | colour params => exact Nat.zero_lt_succ _

theorem convertBody_piece (p : Piece) (hp : p.IsText → Admits output) :
    ∃ c' d' n', convertBody output ⟨p.bytes ++ rest, c, d, n⟩ = .inl ⟨rest, c', d', n'⟩ := by
  cases p with
  | save => exact ⟨_, _, _, convertBody_save⟩
  | restore => exact ⟨_, _, _, convertBody_restore⟩
  | colour q =>
    have hout : ∀ {b : UInt8}, 0x3B < b.toNat → b ∉ q.bytes.head? := fun hb hmem =>
      q.letter hb (List.mem_of_mem_head? hmem)
    obtain ⟨colours, hcolours⟩ := Option.isSome_iff_exists.mp ((setAll_isSome c _).mpr q.numbers)
    have hbody : convertBody output ⟨0x1B :: 0x5B :: (q.bytes ++ 0x6D :: rest), c, d, n⟩ = _ :=
      convertBody_params (q.letter (by decide)) q.line (hout (by decide)) (hout (by decide))
    rw [hcolours] at hbody
    refine ⟨colours, d, n, ?_⟩
    have hbytes : (Piece.colour q).bytes ++ rest = 0x1B :: 0x5B :: (q.bytes ++ 0x6D :: rest) := by
      simp [Piece.bytes]
    rw [hbytes]
    exact hbody
  | text b =>
    obtain ⟨b₁, h₁, hne⟩ := hp trivial
    exact ⟨_, _, _, convertBody_text b h₁ hne⟩

/-- A round ends the loop at the end of the output, passes a piece, stays where it is or raises an
exception. -/
theorem convertBody_cases (output : Bytes) (s : Scan) :
    s.rest = [] ∨
    (∃ p t, convertBody output s = .inl t ∧ s.rest = Piece.bytes p ++ t.rest ∧
      (p.IsText → Admits output)) ∨
    convertBody output s = .inl s ∨ convertBody output s = .inr none := by
  obtain ⟨rest, c, d, n⟩ := s
  cases rest with
  | nil => exact .inl rfl
  | cons b rest =>
    refine .inr ?_
    by_cases hb : b = 0x1B
    · subst hb
      by_cases hsave : [0x5B, 0x73, 0x0A] <+: rest
      · obtain ⟨rest, rfl⟩ := hsave
        exact .inl ⟨.save, _, convertBody_save, rfl, False.elim⟩
      · by_cases hrestore : [0x5B, 0x75] <+: rest
        · obtain ⟨rest, rfl⟩ := hrestore
          exact .inl ⟨.restore, _, convertBody_restore, rfl, False.elim⟩
        · rw [convertBody]
          simp only [if_true, if_neg hsave, if_neg hrestore]
          cases hparams : sgrParams rest with
          | none => exact .inr (.inl rfl)
          | some params =>
            cases hset : setAll c (params.splitOn 0x3B) with
            | none => exact .inr (.inr (by simp only [hset]))
            | some colours =>
              obtain ⟨rest', hrest, hline⟩ := sgrParams_some hparams
              have hnumbers := (setAll_isSome c _).mp (Option.isSome_of_eq_some hset)
              refine .inl ⟨.colour ⟨params, hnumbers, hline⟩, ⟨rest', colours, d, n⟩, ?_, ?_,
                False.elim⟩
              · simp only [hset, hrest]
                simp
              · rw [hrest, Piece.bytes]
                simp
    · cases h₁ : output[1]? with
      | none => exact .inr (.inr (convertBody_short ⟨b, hb⟩ h₁))
      | some b₁ =>
        by_cases hne : b₁ = 0x0A
        · rw [hne] at h₁
          exact .inr (.inl (convertBody_stuck ⟨b, hb⟩ h₁))
        · exact .inl ⟨.text ⟨b, hb⟩, _, convertBody_text ⟨b, hb⟩ h₁ hne, rfl, fun _ =>
            ⟨b₁, h₁, hne⟩⟩

theorem passes_of_loop {r : Bytes × ℕ} (h : loop (convertBody output) n s = some (some r)) :
    Passes output s.rest := by
  induction n generalizing s with
  | zero => cases h
  | succ n ih =>
    rw [loop] at h
    obtain hnil | ⟨p, t, hbody, hrest, hp⟩ | hbody | hbody := convertBody_cases output s
    · exact ⟨[], hnil, by simp⟩
    · rw [hbody] at h
      obtain ⟨ps, hps, htext⟩ := ih h
      exact ⟨p :: ps, by rw [hrest, hps, List.flatMap_cons], List.forall_mem_cons.mpr ⟨hp, htext⟩⟩
    · rw [hbody] at h
      exact ih h
    · rw [hbody] at h
      cases h

theorem passes_next (h : Passes output s.rest) (hne : s.rest ≠ []) :
    ∃ t, convertBody output s = .inl t ∧ t.rest.length < s.rest.length ∧ Passes output t.rest := by
  obtain ⟨rest, c, d, n⟩ := s
  obtain ⟨ps, rfl, htext⟩ := h
  cases ps with
  | nil => exact absurd rfl hne
  | cons p ps =>
    obtain ⟨hp, hps⟩ := List.forall_mem_cons.mp htext
    obtain ⟨c', d', n', hbody⟩ : ∃ c' d' n',
        convertBody output ⟨p.bytes ++ ps.flatMap Piece.bytes, c, d, n⟩ =
          .inl ⟨ps.flatMap Piece.bytes, c', d', n'⟩ := convertBody_piece p hp
    rw [← List.flatMap_cons] at hbody
    refine ⟨_, hbody, ?_, ps, rfl, hps⟩
    have hpos := p.bytes_pos
    simp only [List.flatMap_cons, List.length_append]
    omega

theorem passes_reached (h : Passes output output) (hs : Reached output s) :
    Passes output s.rest := by
  induction hs with
  | refl => exact h
  | tail _ hstep ih =>
    next s t _ =>
    by_cases hne : s.rest = []
    · obtain ⟨rest, c, d, n⟩ := s
      subst hne
      cases hstep
    · obtain ⟨t', hbody, -, ht⟩ := passes_next ih hne
      obtain rfl := Sum.inl.inj (hstep.symm.trans hbody)
      exact ht

theorem passes_exits (h : Passes output s.rest) :
    ∃ r, Exits (convertBody output) s (some r) := by
  obtain ⟨k, hk⟩ : ∃ k, s.rest.length = k := ⟨_, rfl⟩
  induction k using Nat.strong_induction_on generalizing s with
  | _ k ih =>
    by_cases hne : s.rest = []
    · obtain ⟨rest, c, d, n⟩ := s
      subst hne
      exact ⟨(d, n), exits_of_inr rfl⟩
    · obtain ⟨t, hbody, hlt, ht⟩ := passes_next h hne
      obtain ⟨r, hr⟩ := ih t.rest.length (hk ▸ hlt) ht rfl
      exact ⟨r, exits_of_inl hbody hr⟩

end Rounds

/-- `convert` moves on and returns exactly for the outputs of complete and known pieces. -/
theorem convert_advances_iff (output : Bytes) : Advances output ↔ Passes output output := by
  constructor
  · rintro ⟨-, d, printed, n, hn⟩
    exact passes_of_loop hn
  · intro h
    refine ⟨fun s hs hne => ?_, ?_⟩
    · obtain ⟨t, hbody, hlt, -⟩ := passes_next (passes_reached h hs) hne
      exact ⟨t, hbody, hlt⟩
    · obtain ⟨⟨d, printed⟩, hr⟩ := passes_exits (s := start output) h
      exact ⟨d, printed, hr⟩

theorem convert_hangs : ¬∀ output, Advances output := by
  intro h
  have hstuck : convertBody [0x41, 0x0A] (start [0x41, 0x0A]) = .inl (start [0x41, 0x0A]) := rfl
  obtain ⟨t, ht, hlt⟩ := (h [0x41, 0x0A]).moves _ Relation.ReflTransGen.refl (by decide)
  obtain rfl := Sum.inl.inj (hstuck.symm.trans ht)
  exact absurd hlt (lt_irrefl _)

end Jiauliyan.ImageTermination
