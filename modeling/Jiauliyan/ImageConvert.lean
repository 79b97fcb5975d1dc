import Mathlib.Data.List.Basic
import Jiauliyan.Execution
import Jiauliyan.Stripping
import Jiauliyan.TerminalRefinement

namespace Jiauliyan.ImageConvert

open Jiauliyan.Execution
open Jiauliyan.Stripping (Stripped)
open Jiauliyan.TerminalRefinement (Colours)

/-- The sixteen colours have literals. -/
scoped instance neZero_colours : NeZero 16 := ⟨by decide⟩

abbrev Bytes := List UInt8

def isSpace (c : UInt8) : Bool := c = 0x20 || (0x09 ≤ c && c ≤ 0x0D)

def isDigit (c : UInt8) : Bool := 0x30 ≤ c && c ≤ 0x39

def strip (s : Bytes) : Bytes := ((s.dropWhile isSpace).reverse.dropWhile isSpace).reverse

def readDigits (s : Bytes) : Option ℤ :=
  if s ≠ [] ∧ s.all isDigit then some (s.foldl (fun n c => 10 * n + (c.toNat - 0x30)) 0) else none

/-- `int`, which raises an error on other strings. -/
def int (s : Bytes) : Option ℤ :=
  match strip s with
  | 0x2D :: t => (readDigits t).map (-·)
  | 0x2B :: t => readDigits t
  | t => readDigits t

def getcolor (p : ℤ) : Option (Fin 16) :=
  if p = 0 then some 0
  else if p = 1 then some 4
  else if p = 2 then some 2
  else if p = 3 then some 6
  else if p = 4 then some 1
  else if p = 5 then some 5
  else if p = 6 then some 3
  else if p = 7 then some 7
  else none

def setFg (c : Colours) (fg : Option (Fin 16)) : Colours := { c with fg := fg.getD c.fg }

def setBg (c : Colours) (bg : Option (Fin 16)) : Colours := { c with bg := bg.getD c.bg }

def setColours (c : Colours) (p : ℤ) : Colours :=
  let c := if p = 0 then ⟨15, 0⟩ else c
  let c := setFg c (getcolor (p - 30))
  let c := setBg c (getcolor (p - 40))
  let c := setFg c ((getcolor (p - 90)).map (· + 8))
  setBg c ((getcolor (p - 100)).map (· + 8))

def setAll (c : Colours) : List Bytes → Option Colours
  | [] => some c
  | s :: ss => (int s).bind fun p => setAll (setColours c p) ss

def sgrParams : Bytes → Option Bytes
  | 0x5B :: rest =>
    let params := rest.takeWhile (· ≠ 0x6D)
    if 0x0A ∉ params ∧ params.length < rest.length then some params else none
  | _ => none

structure Scan where
  rest : Bytes
  colours : Colours
  d : Bytes
  printed : ℕ

def cell (c : Colours) (b : UInt8) : Bytes :=
  [UInt8.ofNat (0x61 + c.bg), UInt8.ofNat (0x61 + c.fg), b]

/-- The branch of other bytes tests the second byte of the whole output, and
moves on only inside. -/
def convertBody (output : Bytes) (s : Scan) : Scan ⊕ Option (Bytes × ℕ) :=
  match s.rest with
  | [] => .inr (some (s.d, s.printed))
  | b :: rest =>
    if b = 0x1B then
      if [0x5B, 0x73, 0x0A] <+: rest then
        .inl { s with rest := rest.drop 3, printed := s.printed + 1 }
      else if [0x5B, 0x75] <+: rest then .inl { s with rest := rest.drop 2 }
      else
        match sgrParams rest with
        | none => .inl s
        | some params =>
          match setAll s.colours (params.splitOn 0x3B) with
          | none => .inr none
          | some colours =>
            .inl { s with rest := rest.drop (params.length + 2), colours := colours }
    else
      match output[1]? with
      | none => .inr none
      | some b₁ =>
        if b₁ ≠ 0x0A then .inl { s with rest := rest, d := s.d ++ cell s.colours b } else .inl s

/-- `convert` on the output of img2txt returns `d`, after it has printed so
many empty lines. -/
def Converts (output : Bytes) (d : Bytes) (printed : ℕ) : Prop :=
  Exits (convertBody output) ⟨output, ⟨0, 0⟩, [], 0⟩ (some (d, printed))

/-- What stands behind the header and its blank line. -/
def Prints (output : Bytes) (body : Bytes) : Prop :=
  ∃ d printed, Converts output d printed ∧ body = List.replicate printed 0x0A ++ d ++ [0x0A]

abbrev Digits := List (Fin 10)

inductive Token
  | sgr (param : Digits) (params : List Digits)
  | save
  | restore
  | text (b : { b : UInt8 // b ≠ 0x1B })

def digitBytes (ds : Digits) : Bytes := ds.map fun d : Fin 10 => UInt8.ofNat (0x30 + d.val)

def joined (dss : List Digits) : Bytes := [0x3B].intercalate (dss.map digitBytes)

def Token.bytes : Token → Bytes
  | .sgr param params => 0x1B :: 0x5B :: (joined (param :: params) ++ [0x6D])
  | .save => [0x1B, 0x5B, 0x73, 0x0A]
  | .restore => [0x1B, 0x5B, 0x75]
  | .text b => [b]

def value (ds : Digits) : ℤ := ds.foldl (fun n (d : Fin 10) => 10 * n + d.val) 0

def Token.colours (c : Colours) : Token → Colours
  | .sgr param params => (param :: params).foldl (fun c ds => setColours c (value ds)) c
  | _ => c

/-- The text bytes with the colours in force for them. -/
def cells : Colours → List Token → List (UInt8 × Colours)
  | _, [] => []
  | c, .text b :: ts => (b, c) :: cells c ts
  | c, t :: ts => cells (t.colours c) ts

def saves (ts : List Token) : ℕ :=
  (ts.filter fun
    | .save => true
    | _ => false).length

/-- No parameter is empty. -/
def Token.Numbered : Token → Prop
  | .sgr param params => ∀ ds ∈ param :: params, ds ≠ []
  | _ => True

section Parameters

variable {ds : Digits} {c : Colours}

theorem digit_toNat (d : Fin 10) : (UInt8.ofNat (0x30 + d.val)).toNat = 0x30 + d.val := by
  have hd := d.isLt
  rw [UInt8.toNat_ofNat']
  omega

theorem mem_digitBytes {b : UInt8} (hb : b ∈ digitBytes ds) : 0x30 ≤ b.toNat ∧ b.toNat ≤ 0x39 := by
  obtain ⟨d, -, rfl⟩ := List.mem_map.mp hb
  have hd := d.isLt
  rw [digit_toNat]
  omega

theorem strip_digits (ds : Digits) : strip (digitBytes ds) = digitBytes ds := by
  have hspace : ∀ b ∈ digitBytes ds, isSpace b = false := by
    intro b hb
    have hrange := mem_digitBytes hb
    have h20 : b ≠ 0x20 := by
      rintro rfl
      revert hrange
      decide
    have h0d : ¬b ≤ 0x0D := by
      rw [UInt8.le_iff_toNat_le]
      have h13 : (0x0D : UInt8).toNat = 13 := rfl
      omega
    simp [isSpace, h20, h0d]
  exact (Stripped.of_forall hspace).eq_strip.symm

theorem readDigits_digits (h : ds ≠ []) : readDigits (digitBytes ds) = some (value ds) := by
  have hne : digitBytes ds ≠ [] := by simpa [digitBytes] using h
  have hall : (digitBytes ds).all isDigit := by
    rw [List.all_eq_true]
    intro b hb
    have hrange := mem_digitBytes hb
    have h30 : (0x30 : UInt8).toNat = 0x30 := rfl
    have h39 : (0x39 : UInt8).toNat = 0x39 := rfl
    simp only [isDigit, Bool.and_eq_true, decide_eq_true_eq, UInt8.le_iff_toNat_le]
    omega
  have hstep : ∀ (n : ℤ) (d : Fin 10),
      10 * n + ((UInt8.ofNat (0x30 + d.val)).toNat - 0x30) = 10 * n + d.val := by
    intro n d
    rw [digit_toNat]
    omega
  rw [readDigits, if_pos ⟨hne, hall⟩, value, digitBytes, List.foldl_map]
  simp only [hstep]

theorem int_digits (h : ds ≠ []) : int (digitBytes ds) = some (value ds) := by
  rw [int, strip_digits]
  split
  · next t he =>
    have hmem := mem_digitBytes (he ▸ List.mem_cons_self)
    exact absurd hmem (by decide)
  · next t he =>
    have hmem := mem_digitBytes (he ▸ List.mem_cons_self)
    exact absurd hmem (by decide)
  · exact readDigits_digits h

theorem int_nil : int [] = none := rfl

theorem setAll_digits (c : Colours) (dss : List Digits) :
    setAll c (dss.map digitBytes) =
      if ∀ ds ∈ dss, ds ≠ [] then
        some (dss.foldl (fun c ds => setColours c (value ds)) c) else none := by
  induction dss generalizing c with
  | nil => simp [setAll]
  | cons ds dss ih =>
    by_cases hds : ds = []
    · subst hds
      simp [setAll, digitBytes, int_nil]
    · simp [setAll, int_digits hds, ih, hds]

theorem mem_intercalate {sep b : UInt8} {parts : List Bytes} (hb : b ∈ [sep].intercalate parts) :
    b = sep ∨ ∃ part ∈ parts, b ∈ part := by
  induction parts with
  | nil => cases hb
  | cons part parts ih =>
    cases parts with
    | nil => exact .inr ⟨part, List.mem_singleton_self _, by simpa using hb⟩
    | cons part' parts =>
      rw [List.intercalate_cons_cons, List.append_assoc, List.mem_append, List.singleton_append,
        List.mem_cons] at hb
      obtain hmem | rfl | hmem := hb
      · exact .inr ⟨part, List.mem_cons_self, hmem⟩
      · exact .inl rfl
      · obtain rfl | ⟨part'', hpart, hmem⟩ := ih hmem
        · exact .inl rfl
        · exact .inr ⟨part'', List.mem_cons_of_mem _ hpart, hmem⟩

theorem mem_joined {dss : List Digits} {b : UInt8} (hb : b ∈ joined dss) :
    0x30 ≤ b.toNat ∧ b.toNat ≤ 0x3B := by
  obtain rfl | ⟨part, hpart, hmem⟩ := mem_intercalate hb
  · decide
  · obtain ⟨ds, -, rfl⟩ := List.mem_map.mp hpart
    have hrange := mem_digitBytes hmem
    omega

theorem not_mem_joined {dss : List Digits} {b : UInt8} (hb : 0x3B < b.toNat ∨ b.toNat < 0x30) :
    b ∉ joined dss := by
  intro hmem
  have hrange := mem_joined hmem
  omega

theorem joined_splitOn (ds : Digits) (dss : List Digits) :
    (joined (ds :: dss)).splitOn 0x3B = (ds :: dss).map digitBytes := by
  refine List.splitOn_intercalate _ ?_ (List.cons_ne_nil _ _)
  intro l hl hmem
  obtain ⟨ds', -, rfl⟩ := List.mem_map.mp hl
  exact absurd (mem_digitBytes hmem) (by decide)

theorem sgrParams_eq {params : Bytes} (hm : 0x6D ∉ params) (hline : 0x0A ∉ params) (rest : Bytes) :
    sgrParams (0x5B :: (params ++ 0x6D :: rest)) = some params := by
  have htake : (params ++ 0x6D :: rest).takeWhile (· ≠ 0x6D) = params := by
    rw [List.takeWhile_append_of_pos, List.takeWhile_cons_of_neg (by simp), List.append_nil]
    intro b hb
    have hne : b ≠ 0x6D := by
      rintro rfl
      exact hm hb
    simpa using hne
  have hlen : params.length < (params ++ 0x6D :: rest).length := by
    rw [List.length_append, List.length_cons]
    omega
  simp only [sgrParams, htake]
  rw [if_pos ⟨hline, hlen⟩]

end Parameters

section Steps

variable {output rest d : Bytes} {c : Colours} {n : ℕ}

theorem convertBody_params {params : Bytes} (hm : 0x6D ∉ params) (hline : 0x0A ∉ params)
    (hs : 0x73 ∉ params.head?) (hu : 0x75 ∉ params.head?) :
    convertBody output ⟨0x1B :: 0x5B :: (params ++ 0x6D :: rest), c, d, n⟩ =
      match setAll c (params.splitOn 0x3B) with
      | none => .inr none
      | some colours => .inl ⟨rest, colours, d, n⟩ := by
  obtain ⟨b, t, hbt, hbs, hbu⟩ : ∃ b t, params ++ 0x6D :: rest = b :: t ∧ b ≠ 0x73 ∧ b ≠ 0x75 := by
    cases params with
    | nil => exact ⟨0x6D, rest, rfl, by decide, by decide⟩
    | cons b t =>
      refine ⟨b, t ++ 0x6D :: rest, rfl, ?_, ?_⟩
      · rintro rfl
        exact hs rfl
      · rintro rfl
        exact hu rfl
  have hnots : ¬[0x5B, 0x73, 0x0A] <+: 0x5B :: (params ++ 0x6D :: rest) := by
    rw [hbt]
    simp [List.cons_prefix_cons, Ne.symm hbs]
  have hnotu : ¬[0x5B, 0x75] <+: 0x5B :: (params ++ 0x6D :: rest) := by
    rw [hbt]
    simp [List.cons_prefix_cons, Ne.symm hbu]
  have hdrop : (0x5B :: (params ++ 0x6D :: rest)).drop (params.length + 2) = rest := by
    simp
  simp only [convertBody, if_true, if_neg hnots, if_neg hnotu, sgrParams_eq hm hline, hdrop]

theorem convertBody_sgr (param : Digits) (params : List Digits) :
    convertBody output ⟨(Token.sgr param params).bytes ++ rest, c, d, n⟩ =
      if ∀ ds ∈ param :: params, ds ≠ [] then
        .inl ⟨rest, (Token.sgr param params).colours c, d, n⟩ else .inr none := by
  have hbytes : (Token.sgr param params).bytes ++ rest =
      0x1B :: 0x5B :: (joined (param :: params) ++ 0x6D :: rest) := by
    simp [Token.bytes]
  have hout : ∀ {b : UInt8}, 0x3B < b.toNat ∨ b.toNat < 0x30 →
      b ∉ (joined (param :: params)).head? := fun hb hmem =>
    not_mem_joined hb (List.mem_of_mem_head? hmem)
  rw [hbytes, convertBody_params (not_mem_joined (by decide)) (not_mem_joined (by decide))
    (hout (by decide)) (hout (by decide)), joined_splitOn, setAll_digits]
  by_cases hnum : ∀ ds ∈ param :: params, ds ≠ []
  · rw [if_pos hnum, if_pos hnum]
    rfl
  · rw [if_neg hnum, if_neg hnum]

theorem convertBody_save :
    convertBody output ⟨Token.save.bytes ++ rest, c, d, n⟩ = .inl ⟨rest, c, d, n + 1⟩ := by
  have hpre : [0x5B, 0x73, 0x0A] <+: (0x5B :: 0x73 :: 0x0A :: rest : Bytes) := ⟨rest, rfl⟩
  simp only [Token.bytes, List.cons_append, List.nil_append, convertBody, if_true, if_pos hpre,
    List.drop_succ_cons, List.drop_zero]

theorem convertBody_restore :
    convertBody output ⟨Token.restore.bytes ++ rest, c, d, n⟩ = .inl ⟨rest, c, d, n⟩ := by
  have hnots : ¬[0x5B, 0x73, 0x0A] <+: (0x5B :: 0x75 :: rest : Bytes) := by
    simp [List.cons_prefix_cons]
  have hpre : [0x5B, 0x75] <+: (0x5B :: 0x75 :: rest : Bytes) := ⟨rest, rfl⟩
  simp only [Token.bytes, List.cons_append, List.nil_append, convertBody, if_true, if_neg hnots,
    if_pos hpre, List.drop_succ_cons, List.drop_zero]

theorem convertBody_text (b : { b : UInt8 // b ≠ 0x1B }) {b₁ : UInt8}
    (h₁ : output[1]? = some b₁) (hne : b₁ ≠ 0x0A) :
    convertBody output ⟨(Token.text b).bytes ++ rest, c, d, n⟩ =
      .inl ⟨rest, c, d ++ cell c b, n⟩ := by
  simp only [Token.bytes, List.cons_append, List.nil_append, convertBody, if_neg b.property, h₁,
    if_pos hne]

theorem convertBody_stuck (b : { b : UInt8 // b ≠ 0x1B }) (h₁ : output[1]? = some 0x0A) :
    convertBody output ⟨(Token.text b).bytes ++ rest, c, d, n⟩ =
      .inl ⟨(Token.text b).bytes ++ rest, c, d, n⟩ := by
  simp [Token.bytes, convertBody, b.property, h₁]

theorem convertBody_short (b : { b : UInt8 // b ≠ 0x1B }) (h₁ : output[1]? = none) :
    convertBody output ⟨(Token.text b).bytes ++ rest, c, d, n⟩ = .inr none := by
  simp only [Token.bytes, List.cons_append, List.nil_append, convertBody, if_neg b.property, h₁]

/-- The second byte of the output lets text through. -/
def Admits (output : Bytes) : Prop := ∃ b₁, output[1]? = some b₁ ∧ b₁ ≠ 0x0A

def encoded (l : List (UInt8 × Colours)) : Bytes := l.flatMap fun p => cell p.2 p.1

theorem saves_save (ts : List Token) : saves (.save :: ts) = saves ts + 1 := rfl

/-- The loop passes every token, unless a parameter is empty or the second
byte of the output stops it at a text byte. -/
theorem convertBody_exits (ts : List Token) (r : Bytes × ℕ) :
    Exits (convertBody output) ⟨ts.flatMap Token.bytes, c, d, n⟩ (some r) ↔
      (∀ t ∈ ts, t.Numbered) ∧ (cells c ts ≠ [] → Admits output) ∧
        r = (d ++ encoded (cells c ts), n + saves ts) := by
  induction ts generalizing c d n with
  | nil =>
    have hbody : convertBody output ⟨[].flatMap Token.bytes, c, d, n⟩ = .inr (some (d, n)) := rfl
    rw [exits_inr_iff hbody]
    simp [cells, encoded, saves]
  | cons t ts ih =>
    rw [List.flatMap_cons, List.forall_mem_cons]
    cases t with
    | sgr param params =>
      have hbody : convertBody output
          ⟨(Token.sgr param params).bytes ++ ts.flatMap Token.bytes, c, d, n⟩ = _ :=
        convertBody_sgr param params
      by_cases hnum : ∀ ds ∈ param :: params, ds ≠ []
      · rw [if_pos hnum] at hbody
        rw [exits_inl_iff hbody, ih]
        have ht : (Token.sgr param params).Numbered := hnum
        simp only [ht, true_and]
        rfl
      · rw [if_neg hnum] at hbody
        rw [exits_inr_iff hbody]
        have ht : ¬(Token.sgr param params).Numbered := hnum
        simp [ht]
    | save =>
      rw [exits_inl_iff convertBody_save, ih, saves_save]
      have ht : Token.save.Numbered := trivial
      have hn : n + (saves ts + 1) = n + 1 + saves ts := by omega
      simp only [ht, true_and, hn]
      rfl
    | restore =>
      rw [exits_inl_iff convertBody_restore, ih]
      have ht : Token.restore.Numbered := trivial
      simp only [ht, true_and]
      rfl
    | text b =>
      have ht : (Token.text b).Numbered := trivial
      have hcells : cells c (.text b :: ts) ≠ [] := List.cons_ne_nil _ _
      simp only [ht, true_and, hcells, ne_eq, not_false_eq_true, true_imp_iff]
      cases h₁ : output[1]? with
      | none =>
        have hnot : ¬Admits output := by simp [Admits, h₁]
        rw [exits_inr_iff (convertBody_short b h₁)]
        simp [hnot]
      | some b₁ =>
        by_cases hb₁ : b₁ = 0x0A
        · subst hb₁
          have hnot : ¬Admits output := by simp [Admits, h₁]
          have hstuck : ¬Exits (convertBody output)
              ⟨(Token.text b).bytes ++ ts.flatMap Token.bytes, c, d, n⟩ (some r) :=
            not_exits_of_self (convertBody_stuck b h₁)
          simp [hstuck, hnot]
        · have hadmits : Admits output := ⟨b₁, h₁, hb₁⟩
          rw [exits_inl_iff (convertBody_text b h₁ hb₁), ih, List.append_assoc]
          simp only [hadmits, implies_true, true_and]
          rfl

theorem prints_iff (ts : List Token) (body : Bytes) :
    Prints (ts.flatMap Token.bytes) body ↔
      (∀ t ∈ ts, t.Numbered) ∧ (cells ⟨0, 0⟩ ts ≠ [] → Admits (ts.flatMap Token.bytes)) ∧
        body = List.replicate (saves ts) 0x0A ++ encoded (cells ⟨0, 0⟩ ts) ++ [0x0A] := by
  constructor
  · rintro ⟨d, printed, hc, rfl⟩
    obtain ⟨hnum, hadmits, he⟩ := (convertBody_exits ts (d, printed)).mp hc
    obtain ⟨rfl, rfl⟩ := Prod.mk.inj he
    rw [Nat.zero_add, List.nil_append]
    exact ⟨hnum, hadmits, rfl⟩
  · rintro ⟨hnum, hadmits, rfl⟩
    refine ⟨encoded (cells ⟨0, 0⟩ ts), saves ts, ?_, rfl⟩
    refine (convertBody_exits ts _).mpr ⟨hnum, hadmits, ?_⟩
    rw [Nat.zero_add, List.nil_append]

end Steps

end Jiauliyan.ImageConvert
