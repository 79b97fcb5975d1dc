import Mathlib.Algebra.GroupWithZero.Nat
import Jiauliyan.Format

namespace Jiauliyan.FormatArguments

open Jiauliyan.Memory Jiauliyan.StringCompare Jiauliyan.Format

inductive Sign
  | plus
  | minus
  | hash
  | zero

def Sign.byte : Sign → UInt8
  | .plus => 43
  | .minus => 45
  | .hash => 35
  | .zero => 48

abbrev Digit := { c : UInt8 // isdigit c = true }

inductive Width
  | none
  | star
  | digits (first : Digit) (nonzero : first.1 ≠ 48) (more : List Digit)

def Width.text : Width → Chars
  | .none => []
  | .star => [42]
  | .digits first _ more => first.1 :: more.map (·.1)

def Width.sizes : Width → List ℕ
  | .star => [4]
  | _ => []

inductive Precision
  | none
  | star
  | digits (first : Digit) (more : List Digit)

def Precision.text : Precision → Chars
  | .none => []
  | .star => [46, 42]
  | .digits first more => 46 :: first.1 :: more.map (·.1)

def Precision.sizes : Precision → List ℕ
  | .star => [4]
  | _ => []

inductive Modifier
  | none
  | hh
  | h
  | l
  | ll
  | L
  | j
  | z
  | t
  deriving DecidableEq

def Modifier.text : Modifier → Chars
  | .none => []
  | .hh => [104, 104]
  | .h => [104]
  | .l => [108]
  | .ll => [108, 108]
  | .L => [76]
  | .j => [106]
  | .z => [122]
  | .t => [116]

inductive Letter
  | i
  | d
  | u
  | F
  | f
  | G
  | g
  | E
  | e
  | X
  | x
  | p
  | O
  | o
  | s
  | c
  | percent
  deriving DecidableEq

def Letter.byte : Letter → UInt8
  | .i => 105
  | .d => 100
  | .u => 117
  | .F => 70
  | .f => 102
  | .G => 71
  | .g => 103
  | .E => 69
  | .e => 101
  | .X => 88
  | .x => 120
  | .p => 112
  | .O => 79
  | .o => 111
  | .s => 115
  | .c => 99
  | .percent => 37

def Letter.integer : Letter → Bool
  | .i | .d | .u | .X | .x | .O | .o => true
  | _ => false

def Letter.floating : Letter → Bool
  | .F | .f | .G | .g | .E | .e => true
  | _ => false

/-- The length modifiers that C has for a type. -/
def allowed : Modifier → Letter → Bool
  | .none, _ => true
  | .l, a => a.integer || a.floating || a = .c || a = .s
  | .L, a => a.floating
  | _, a => a.integer

structure Spec where
  flags : List Sign
  width : Width
  precision : Precision
  modifier : Modifier
  letter : Letter
  allowed : allowed modifier letter = true

/-- The text behind the percent sign. -/
def Spec.body (s : Spec) : Chars :=
  s.flags.map Sign.byte ++
    (s.width.text ++ (s.precision.text ++ (s.modifier.text ++ [s.letter.byte])))

def denoted : Modifier → Letter → List ℕ
  | _, .percent => []
  | md, a =>
    if a.floating then (if md = .L then [12] else [8])
    else if md = .ll ∨ md = .j then [8]
    else [4]

def Spec.sizes (s : Spec) : List ℕ :=
  s.width.sizes ++ (s.precision.sizes ++ denoted s.modifier s.letter)

/-- A format: literal characters and conversions. -/
inductive Piece
  | literal (c : UInt8) (hc : c ≠ 0) (hp : toChar c ≠ '%')
  | spec (s : Spec)

def text : List Piece → Chars
  | [] => []
  | .literal c _ _ :: ps => c :: text ps
  | .spec s :: ps => 37 :: (s.body ++ text ps)

def specs : List Piece → List Spec
  | [] => []
  | .literal _ _ _ :: ps => specs ps
  | .spec s :: ps => s :: specs ps

def slots : ℕ → List ℕ → List (ℕ × ℕ)
  | _, [] => []
  | ap, n :: ns => (ap, n) :: slots (ap + n) ns

def arguments : ℕ → List Spec → List (List (ℕ × ℕ) × ℕ)
  | _, [] => []
  | ap, s :: ss => (slots ap s.sizes, ap + s.sizes.sum) :: arguments (ap + s.sizes.sum) ss

def slot (read : ℕ × ℕ) : ℕ × ℕ := (read.1, INTSIZEOF read.2)

def callTaken : Item → Option (List (ℕ × ℕ) × ℕ)
  | .char _ => none
  | .call va _ => some (va.reads.map slot, va.ap)

def argCalls (m : Mem) (ap : ℕ) (fmt : Chars) : List (List (ℕ × ℕ) × ℕ) :=
  (scan m 0 fmt ap).filterMap callTaken

def Aligned (m : Mem) (ap : ℕ) (ps : List Piece) : Prop :=
  argCalls m ap (text ps) = arguments ap (specs ps)

/-- `z` and `t` end the conversion, `ll` and `j` read four bytes, and `l` makes
a `double` twelve bytes long. -/
def supported : Modifier → Letter → Bool
  | .z, _ | .t, _ | .ll, _ | .j, _ => false
  | .l, a => !a.floating
  | _, _ => true

def Supported (s : Spec) : Prop := supported s.modifier s.letter = true

def Modifier.length : Modifier → Option Length
  | .hh => some .byte
  | .h => some .short
  | .l | .L | .j => some .llong
  | .ll | .none => some .long
  | .z | .t => Option.none

def Letter.kind : Letter → Kind
  | .i | .d => .int
  | .F | .f | .G | .g | .E | .e => .double
  | .u | .X | .x | .p | .O | .o => .uint
  | .s => .string
  | .c => .char
  | .percent => .literal

def taken : Length → Kind → List ℕ
  | _, .literal => []
  | _, .char => [1]
  | .llong, .double => [12]
  | _, .double => [8]
  | _, _ => [4]

def vaArgs (va : VaList) (ns : List ℕ) : VaList := ns.foldl (fun va n => vaArg n va) va

theorem vaArgs_append (va : VaList) (ns ks : List ℕ) :
    vaArgs va (ns ++ ks) = vaArgs (vaArgs va ns) ks := List.foldl_append

theorem vaArgs_slots (va : VaList) (ns : List ℕ) :
    (vaArgs va ns).reads.map slot = va.reads.map slot ++ slots va.ap (ns.map INTSIZEOF) ∧
      (vaArgs va ns).ap = va.ap + (ns.map INTSIZEOF).sum := by
  induction ns generalizing va with
  | nil => simp [vaArgs, slots]
  | cons n ns ih =>
    obtain ⟨hr, ha⟩ := ih (vaArg n va)
    refine ⟨?_, ?_⟩
    · simpa [vaArgs, vaArg, slots, slot] using hr
    · simpa [vaArgs, vaArg, Nat.add_assoc] using ha

theorem toNat_toChar (c : UInt8) : (toChar c).toNat = c.toNat := by
  have hc := c.toNat_lt
  have hv : c.toNat.isValidChar := Or.inl (by omega)
  rw [toChar, Char.ofNat, dif_pos hv]
  rfl

theorem toChar_ne {c : UInt8} {d : Char} (h : c.toNat ≠ d.toNat) : toChar c ≠ d := by
  intro hd
  apply h
  rw [← hd, toNat_toChar]

theorem isdigit_iff (c : UInt8) : isdigit c = true ↔ 48 ≤ c.toNat ∧ c.toNat ≤ 57 := by
  simp [isdigit, UInt8.le_iff_toNat_le]

def FlagStop (c : UInt8) : Prop :=
  c ≠ 0 ∧ toChar c ≠ '+' ∧ toChar c ≠ '-' ∧ toChar c ≠ '#' ∧ toChar c ≠ '0'

instance (c : UInt8) : Decidable (FlagStop c) :=
  inferInstanceAs (Decidable (c ≠ 0 ∧ toChar c ≠ '+' ∧ toChar c ≠ '-' ∧ toChar c ≠ '#' ∧
    toChar c ≠ '0'))

def Stop (c : UInt8) : Prop :=
  FlagStop c ∧ isdigit c = false ∧ toChar c ≠ '*' ∧ toChar c ≠ '.'

instance (c : UInt8) : Decidable (Stop c) :=
  inferInstanceAs (Decidable (FlagStop c ∧ isdigit c = false ∧ toChar c ≠ '*' ∧ toChar c ≠ '.'))

theorem stop_letter (a : Letter) : Stop a.byte := by
  cases a <;> decide

theorem stop_modifier (md : Modifier) (a : Letter) (rest : Chars) :
    ∃ c t, md.text ++ (a.byte :: rest) = c :: t ∧ Stop c := by
  cases md with
  | none => exact ⟨_, _, rfl, stop_letter a⟩
  | _ => exact ⟨_, _, rfl, by decide⟩

theorem flagStop_digit {c : UInt8} (h : isdigit c = true) (h0 : c ≠ 48) : FlagStop c := by
  obtain ⟨hlo, hhi⟩ := (isdigit_iff c).mp h
  have hne : c.toNat ≠ 48 := fun he => h0 (UInt8.toNat.inj he)
  refine ⟨?_, toChar_ne ?_, toChar_ne ?_, toChar_ne ?_, toChar_ne hne⟩
  · rintro rfl
    exact absurd hlo (by decide)
  all_goals simp only [Char.reduceToNat]; omega

theorem readFlags_stop (fl : Flags) {c : UInt8} (h : FlagStop c) (t : Chars) :
    readFlags fl (c :: t) = some (fl, c :: t) := by
  obtain ⟨h0, hp, hm, hh, hz⟩ := h
  rw [readFlags, if_neg h0]
  split <;> trivial

theorem readFlags_text (fl : Flags) (fs : List Sign) {c : UInt8} (h : FlagStop c) (t : Chars) :
    ∃ fl', readFlags fl (fs.map Sign.byte ++ (c :: t)) = some (fl', c :: t) := by
  induction fs generalizing fl with
  | nil => exact ⟨fl, readFlags_stop fl h t⟩
  | cons f fs ih =>
    cases f with
    | plus => exact ih { fl with sign := true }
    | minus => exact ih { fl with left := true }
    | hash => exact ih { fl with alt := true }
    | zero => exact ih { fl with zero := true }

theorem dropDigits (ds : List Digit) {c : UInt8} (h : isdigit c = false) (t : Chars) :
    (ds.map (·.1) ++ (c :: t)).dropWhile isdigit = c :: t := by
  induction ds with
  | nil => rw [List.map_nil, List.nil_append, List.dropWhile_cons_of_neg (by simp [h])]
  | cons d ds ih =>
    rw [List.map_cons, List.cons_append, List.dropWhile_cons_of_pos d.2, ih]

theorem star_ne_digit {c : UInt8} (h : isdigit c = true) : toChar c ≠ '*' := by
  obtain ⟨hlo, -⟩ := (isdigit_iff c).mp h
  apply toChar_ne
  simp only [Char.reduceToNat]
  omega

theorem readWidth_text (m : Mem) (va : VaList) (w : Width) {c : UInt8} (h : isdigit c = false)
    (hs : toChar c ≠ '*') (t : Chars) :
    ∃ n, readWidth m va (w.text ++ (c :: t)) = (n, vaArgs va w.sizes, c :: t) := by
  cases w with
  | none =>
    refine ⟨0, ?_⟩
    rw [Width.text, List.nil_append, readWidth, if_neg hs, if_neg (by simp [h])]
    rfl
  | star => exact ⟨load32 m va.ap, rfl⟩
  | digits d _ ds =>
    refine ⟨atoi (d.1 :: (ds.map (·.1) ++ (c :: t))), ?_⟩
    rw [Width.text, List.cons_append, readWidth, if_neg (star_ne_digit d.2), if_pos d.2,
      List.dropWhile_cons_of_pos d.2, dropDigits ds h]
    rfl

theorem readPrecision_text (m : Mem) (va : VaList) (p : Precision) {c : UInt8}
    (h : isdigit c = false) (hd : toChar c ≠ '.') (t : Chars) :
    ∃ n, readPrecision m va (p.text ++ (c :: t)) = (vaArgs va p.sizes, some (n, c :: t)) := by
  cases p with
  | none =>
    refine ⟨6, ?_⟩
    simp only [Precision.text, List.nil_append, readPrecision.eq_def, if_neg hd]
    rfl
  | star => exact ⟨load32 m va.ap, rfl⟩
  | digits d ds =>
    refine ⟨atoi (d.1 :: (ds.map (·.1) ++ (c :: t))), ?_⟩
    have hdot : toChar 46 = '.' := rfl
    simp only [Precision.text, List.cons_append, readPrecision, hdot, if_true,
      if_neg (star_ne_digit d.2), if_pos d.2, List.dropWhile_cons_of_pos d.2, dropDigits ds h]
    rfl

theorem readLength_text (md : Modifier) (a : Letter) (rest : Chars) :
    readLength (md.text ++ (a.byte :: rest)) = md.length.map (·, a.byte :: rest) := by
  cases md with
  | none => cases a <;> rfl
  | h => cases a <;> rfl
  | l => cases a <;> rfl
  | z => rfl
  | t => rfl
  | _ => rfl

theorem readType_letter (a : Letter) (fl : Flags) :
    ∃ fl', readType a.byte fl = some (a.kind, fl') := by
  cases a <;> exact ⟨_, rfl⟩

theorem readValue_taken (m : Mem) (va : VaList) (length : Length) (kind : Kind) :
    (readValue m va length kind).2 = vaArgs va (taken length kind) := by
  cases kind with
  | double => cases length <;> rfl
  | _ => rfl

def Spec.stars (s : Spec) : List ℕ := s.width.sizes ++ s.precision.sizes

theorem stop_precision (p : Precision) {c : UInt8} (h : Stop c) (t : Chars) :
    ∃ d u, p.text ++ (c :: t) = d :: u ∧ FlagStop d ∧ isdigit d = false ∧ toChar d ≠ '*' := by
  have hdot : FlagStop 46 ∧ isdigit 46 = false ∧ toChar 46 ≠ '*' := by decide
  cases p with
  | none => exact ⟨c, t, rfl, h.1, h.2.1, h.2.2.1⟩
  | star => exact ⟨46, _, rfl, hdot⟩
  | digits d ds => exact ⟨46, _, rfl, hdot⟩

theorem stop_width (w : Width) {c : UInt8} (h : FlagStop c) (t : Chars) :
    ∃ d u, w.text ++ (c :: t) = d :: u ∧ FlagStop d := by
  cases w with
  | none => exact ⟨c, t, rfl, h⟩
  | star => exact ⟨42, _, rfl, by decide⟩
  | digits d h0 ds => exact ⟨d.1, _, rfl, flagStop_digit d.2 h0⟩

/-- Each reader takes its own part of a conversion, and the arguments of the
source's size for it. -/
theorem readArg_body (m : Mem) (va : VaList) (s : Spec) (rest : Chars) :
    (s.modifier.length = none ∧ readArg m va (s.body ++ rest) = (vaArgs va s.stars, none)) ∨
    ∃ length cv, s.modifier.length = some length ∧
      readArg m va (s.body ++ rest) =
        (vaArgs va (s.stars ++ taken length s.letter.kind), some (cv, rest)) := by
  obtain ⟨c, t, hmd, hc⟩ := stop_modifier s.modifier s.letter rest
  obtain ⟨d, u, hp, hd, hdig, hstar⟩ := stop_precision s.precision hc t
  obtain ⟨e, v, hw, he⟩ := stop_width s.width hd u
  have hbody : s.body ++ rest = s.flags.map Sign.byte ++ (e :: v) := by
    simp only [Spec.body, List.append_assoc, List.singleton_append, hmd, hp, hw]
  obtain ⟨fl, hfl⟩ := readFlags_text noFlags s.flags he v
  obtain ⟨width, hwidth⟩ := readWidth_text m va s.width hdig hstar u
  obtain ⟨precision, hprecision⟩ :=
    readPrecision_text m (vaArgs va s.width.sizes) s.precision hc.2.1 hc.2.2.2 t
  have hlength := readLength_text s.modifier s.letter rest
  rw [← vaArgs_append] at hprecision
  rw [hw] at hwidth
  rw [hp] at hprecision
  rw [hmd] at hlength
  unfold readArg
  simp only [hbody, hfl, hwidth, hprecision, hlength]
  cases hl : s.modifier.length with
  | none => exact Or.inl ⟨rfl, rfl⟩
  | some length =>
    obtain ⟨fl', htype⟩ := readType_letter s.letter fl
    refine Or.inr ⟨length, ⟨fl', width, precision,
      (readValue m (vaArgs va s.stars) length s.letter.kind).1⟩, rfl, ?_⟩
    simp only [Option.map_some, htype, vaArgs_append va s.stars, readValue_taken]
    rfl

theorem scan_skip (m : Mem) (xs ys : Chars) (ap : ℕ) :
    scan m xs.length (xs ++ ys) ap = scan m 0 ys ap := by
  induction xs with
  | nil => rfl
  | cons x xs ih => exact ih

theorem argCalls_literal (m : Mem) (ap : ℕ) {c : UInt8} (hc : c ≠ 0) (hp : toChar c ≠ '%')
    (fmt : Chars) : argCalls m ap (c :: fmt) = argCalls m ap fmt := by
  rw [argCalls, scan, if_neg hc, if_pos hp]
  rfl

theorem argCalls_percent (m : Mem) (ap : ℕ) {fmt : Chars} {va : VaList}
    {r : Option (Conversion × Chars)} (h : readArg m ⟨ap, []⟩ fmt = (va, r)) :
    argCalls m ap (37 :: fmt) = (va.reads.map slot, va.ap) ::
      r.elim (argCalls m va.ap fmt) fun q =>
        (scan m (fmt.length - q.2.length) fmt va.ap).filterMap callTaken := by
  have hp : ¬toChar 37 ≠ '%' := by decide
  rw [argCalls, scan, if_neg (by decide), if_neg hp, h]
  cases r <;> rfl

theorem vaArgs_taken (ap : ℕ) (ns : List ℕ) :
    (vaArgs ⟨ap, []⟩ ns).reads.map slot = slots ap (ns.map INTSIZEOF) ∧
      (vaArgs ⟨ap, []⟩ ns).ap = ap + (ns.map INTSIZEOF).sum :=
  vaArgs_slots ⟨ap, []⟩ ns

theorem stars_words (s : Spec) : s.stars.map INTSIZEOF = s.stars := by
  cases hw : s.width <;> cases hp : s.precision <;>
    simp [Spec.stars, hw, hp, Width.sizes, Precision.sizes, INTSIZEOF]

theorem argCalls_refused (m : Mem) (ap : ℕ) {s : Spec} (h : s.modifier.length = none)
    (rest : Chars) :
    argCalls m ap (37 :: (s.body ++ rest)) =
      (slots ap s.stars, ap + s.stars.sum) :: argCalls m (ap + s.stars.sum) (s.body ++ rest) := by
  obtain ⟨-, hr⟩ | ⟨length, cv, hl, -⟩ := readArg_body m ⟨ap, []⟩ s rest
  · obtain ⟨hs, ha⟩ := vaArgs_taken ap s.stars
    rw [stars_words] at hs ha
    rw [argCalls_percent m ap hr, hs, ha]
    rfl
  · rw [h] at hl
    cases hl

theorem argCalls_spec (m : Mem) (ap : ℕ) {s : Spec} {length : Length}
    (h : s.modifier.length = some length) (rest : Chars) :
    argCalls m ap (37 :: (s.body ++ rest)) =
      (slots ap (s.stars ++ (taken length s.letter.kind).map INTSIZEOF),
        ap + (s.stars ++ (taken length s.letter.kind).map INTSIZEOF).sum) ::
      argCalls m (ap + (s.stars ++ (taken length s.letter.kind).map INTSIZEOF).sum) rest := by
  obtain ⟨hl, -⟩ | ⟨length', cv, hl, hr⟩ := readArg_body m ⟨ap, []⟩ s rest
  · rw [h] at hl
    cases hl
  · obtain rfl : length = length' := Option.some.inj (h.symm.trans hl)
    obtain ⟨hs, ha⟩ := vaArgs_taken ap (s.stars ++ taken length s.letter.kind)
    have hskip : (s.body ++ rest).length - rest.length = s.body.length := by simp
    rw [List.map_append, stars_words] at hs ha
    rw [argCalls_percent m ap hr, hs, ha]
    simp only [Option.elim_some, hskip, scan_skip]
    rfl

theorem refused_denoted {md : Modifier} {a : Letter} (ha : allowed md a = true)
    (h : md.length = none) : supported md a = false ∧ denoted md a = [4] := by
  cases md <;> cases h <;> cases a <;> first | exact absurd ha (by decide) | decide

theorem taken_denoted {md : Modifier} {a : Letter} (ha : allowed md a = true) {length : Length}
    (h : md.length = some length) :
    (supported md a = true → (taken length a.kind).map INTSIZEOF = denoted md a) ∧
      (supported md a = false →
        ((taken length a.kind).map INTSIZEOF).sum ≠ (denoted md a).sum) := by
  cases md <;> cases h <;> cases a <;> first | exact absurd ha (by decide) | decide

theorem sizes_eq (s : Spec) : s.sizes = s.stars ++ denoted s.modifier s.letter :=
  (List.append_assoc _ _ _).symm

/-- The first conversion that is not supported leaves the cursor elsewhere. -/
theorem arguments_aligned_iff (m : Mem) (ap : ℕ) (ps : List Piece) :
    Aligned m ap ps ↔ ∀ s ∈ specs ps, Supported s := by
  induction ps generalizing ap with
  | nil => simp [Aligned, specs, text, argCalls, scan, arguments]
  | cons p ps ih =>
    cases p with
    | literal c hc hp =>
      rw [Aligned, text, argCalls_literal m ap hc hp]
      exact ih ap
    | spec s =>
      rw [Aligned, text, specs, arguments, List.forall_mem_cons, sizes_eq]
      cases hl : s.modifier.length with
      | none =>
        obtain ⟨hs, hd⟩ := refused_denoted s.allowed hl
        have hns : ¬Supported s := by simp [Supported, hs]
        rw [argCalls_refused m ap hl, hd]
        refine iff_of_false (fun h => ?_) (fun h => hns h.1)
        have hap := (Prod.mk.inj (List.cons.inj h).1).2
        simp only [List.sum_append, List.sum_cons, List.sum_nil] at hap
        omega
      | some length =>
        obtain ⟨heq, hne⟩ := taken_denoted s.allowed hl
        rw [argCalls_spec m ap hl]
        by_cases hs : Supported s
        · rw [heq hs, List.cons.injEq]
          exact and_congr (iff_of_true rfl hs) (ih _)
        · refine iff_of_false (fun h => ?_) (fun h => hs h.1)
          have hap := (Prod.mk.inj (List.cons.inj h).1).2
          have hsum := hne (by simpa [Supported] using hs)
          simp only [List.sum_append] at hap
          omega

/-- `%lld%d` takes the second half of its first argument for the other one. -/
theorem arguments_misread : ∃ m ap ps, ¬Aligned m ap ps := by
  refine ⟨fun _ => 0, 0, [.spec ⟨[], .none, .none, .ll, .d, rfl⟩,
    .spec ⟨[], .none, .none, .none, .d, rfl⟩], ?_⟩
  unfold Aligned
  decide

end Jiauliyan.FormatArguments
