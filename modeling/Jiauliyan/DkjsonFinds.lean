import Jiauliyan.Dkjson
import Jiauliyan.JsonText
import Jiauliyan.StringGsub

namespace Jiauliyan.DkjsonFinds

open Jiauliyan.Framing (Bytes)
open Jiauliyan.Client (sub)
open Jiauliyan.LuaMatch Jiauliyan.PatternMeaning Jiauliyan.StringFind Jiauliyan.StringGsub
open Jiauliyan.Dkjson

variable {str rest w p : Bytes} {pos : ℕ} {c : UInt8}

structure At (str : Bytes) (pos : ℕ) (rest : Bytes) : Prop where
  start : 1 ≤ pos
  inside : pos ≤ str.length + 1
  rest : str.drop (pos - 1) = rest

theorem At.length (h : At str pos rest) : pos + rest.length = str.length + 1 := by
  have hlen := congrArg List.length h.rest
  rw [List.length_drop] at hlen
  have := h.start
  have := h.inside
  omega

theorem At.forward (h : At str pos (w ++ rest)) : At str (pos + w.length) rest where
  start := h.start.trans (Nat.le_add_right _ _)
  inside := by
    have hlen := h.length
    rw [List.length_append] at hlen
    omega
  rest := by
    have hstart := h.start
    have hpos : pos + w.length - 1 = pos - 1 + w.length := by omega
    rw [hpos, ← List.drop_drop, h.rest, List.drop_left]

theorem At.next (h : At str pos (c :: rest)) : At str (pos + 1) rest :=
  show At str (pos + [c].length) rest from At.forward h

theorem At.sub (h : At str pos rest) (k : ℕ) : sub str pos (pos + k) = rest.take (k + 1) := by
  have hstart := h.start
  have hk : pos + k - (pos - 1) = k + 1 := by omega
  rw [Client.sub, List.drop_take, h.rest, hk]

theorem At.char (h : At str pos (c :: rest)) : Client.sub str pos pos = [c] := h.sub 0

theorem At.sub_forward (h : At str pos (w ++ rest)) (hw : w ≠ []) :
    Client.sub str pos (pos + w.length - 1) = w := by
  have hpos : 0 < w.length := List.length_pos_of_ne_nil hw
  have hk : pos + w.length - 1 = pos + (w.length - 1) := by omega
  rw [hk, h.sub, Nat.sub_add_cancel hpos, List.take_left]

theorem At.init (h : At str pos rest) : initOf pos str.length = pos - 1 := by
  have := h.start
  have := h.inside
  rw [initOf, posrelat, if_pos (by omega)]
  omega

theorem find_of_leftmost {k e : ℕ} (hp : special p = true) (h : At str pos rest)
    (hk : Leftmost str (unanchored p) (anchored p) (pos - 1) k)
    (he : (outcomes str (unanchored p) k).head? = some (.ok (e, []))) :
    find str p pos false = some ⟨k + 1, e, []⟩ := by
  have hif : ¬(false = true ∨ ¬special p = true) := by simp [hp]
  rw [find, strFind, if_neg hif, h.init, patternFind_of_leftmost hk he]

theorem find_of_nowhere (hp : special p = true) (h : At str pos rest)
    (hno : Nowhere str (unanchored p) (anchored p) (pos - 1)) : find str p pos false = none := by
  have hif : ¬(false = true ∨ ¬special p = true) := by simp [hp]
  have hle : pos - 1 ≤ str.length := by
    have := h.inside
    omega
  rw [find, strFind, if_neg hif, h.init, patternFind_of_nowhere hle hno]

/-- A pattern that is one class of characters, which `string.find` does not search for plainly. -/
structure OneClass (p : Bytes) (accepts : UInt8 → Bool) : Prop where
  classes : OfClasses p false ⟨accepts, []⟩
  searched : special p = true

variable {accepts : UInt8 → Bool}

theorem OneClass.outcomes (hp : OneClass p accepts) (k : ℕ) :
    outcomes str (unanchored p) k =
      match (str.drop k).head? with
      | some c => if accepts c then [.ok (k + 1, [])] else []
      | none => [] := by
  have hfree := hp.classes.free
  rw [unanchored, hfree, if_neg Bool.false_ne_true, StringFind.outcomes, hp.classes.items_free,
    meaning_classes]
  cases hd : str.drop k with
  | nil => rfl
  | cons c r =>
    rw [LuaPattern.matchClasses]
    by_cases hc : accepts c = true
    · simp only [hc, if_true, List.head?_cons]
      rfl
    · simp only [hc, if_false, List.head?_cons, Bool.false_eq_true]

theorem At.drop (h : At str pos (w ++ rest)) :
    str.drop (pos - 1 + w.length) = rest := by
  have hf := h.forward.rest
  have hstart := h.start
  have hpos : pos + w.length - 1 = pos - 1 + w.length := by omega
  rwa [hpos] at hf

theorem OneClass.before (hp : OneClass p accepts) (h : At str pos (w ++ rest))
    (hw : ∀ d ∈ w, accepts d = false) {k : ℕ} (hk : pos - 1 ≤ k) (hlt : k < pos - 1 + w.length) :
    StringFind.outcomes str (unanchored p) k = [] := by
  obtain ⟨i, rfl⟩ : ∃ i, k = pos - 1 + i := ⟨k - (pos - 1), by omega⟩
  have hi : i < w.length := by omega
  have hhead : (str.drop (pos - 1 + i)).head? = some w[i] := by
    rw [← List.drop_drop, h.rest, List.head?_drop, List.getElem?_append_left hi,
      List.getElem?_eq_getElem hi]
  rw [hp.outcomes, hhead]
  simp only [hw _ (List.getElem_mem hi), Bool.false_eq_true, if_false]

theorem OneClass.find_some (hp : OneClass p accepts) (h : At str pos (w ++ c :: rest))
    (hw : ∀ d ∈ w, accepts d = false) (hc : accepts c = true) :
    find str p pos false = some ⟨pos + w.length, pos + w.length, []⟩ := by
  have hstart := h.start
  have hlen := h.length
  rw [List.length_append, List.length_cons] at hlen
  have hout : StringFind.outcomes str (unanchored p) (pos - 1 + w.length) =
      [.ok (pos - 1 + w.length + 1, [])] := by
    rw [hp.outcomes, h.drop]
    simp only [List.head?_cons, hc, if_true]
  have hleft : Leftmost str (unanchored p) (anchored p) (pos - 1) (pos - 1 + w.length) := by
    refine ⟨Nat.le_add_right _ _, by omega, fun ha => ?_, ?_,
      fun t ht htlt => hp.before h hw ht htlt⟩
    · rw [hp.classes.free] at ha
      cases ha
    · rw [hout]
      exact List.cons_ne_nil _ _
  have hpos : pos - 1 + w.length + 1 = pos + w.length := by omega
  rw [find_of_leftmost hp.searched h hleft (by rw [hout]; rfl), hpos]

theorem nonspace_class : OneClass [37, 83] fun c => !Strtoul.isspace c.toNat where
  classes :=
    { free := by decide
      classes := by
        have hset : (fun c => singlematch c [37, 83] []) = fun c => !Strtoul.isspace c.toNat :=
          bytes_ext (by decide +kernel)
        rw [List.map_singleton, ← hset]
        rfl }
  searched := by decide

theorem quote_class : OneClass [91, 34, 92, 93] fun c => c == 34 || c == 92 where
  classes :=
    { free := by decide
      classes := by
        have hset : (fun c => singlematch c [91, 34, 92, 93] []) = fun c => c == 34 || c == 92 :=
          bytes_ext (by decide +kernel)
        rw [List.map_singleton, ← hset]
        rfl }
  searched := by decide

section Ways

variable {src : Bytes} {k : ℕ} {ms : MatchState} {is : List Item}
  {r : Except Message Config}

theorem accepted_iff (h : src.drop k = rest) :
    Accepted src accepts k ↔ ∃ c r, rest = c :: r ∧ accepts c = true := by
  constructor
  · rintro ⟨hk, ha⟩
    rw [at_getElem hk] at ha
    rw [List.drop_eq_getElem_cons hk] at h
    exact ⟨_, _, h.symm, ha⟩
  · rintro ⟨c, r, rfl, ha⟩
    have hk : k < src.length := by
      have hlen := congrArg List.length h
      rw [List.length_drop, List.length_cons] at hlen
      omega
    rw [List.drop_eq_getElem_cons hk] at h
    refine ⟨hk, ?_⟩
    rwa [at_getElem hk, (List.cons.inj h).1]

theorem not_accepted (h : src.drop k = rest) (ha : ∀ c ∈ rest.head?, accepts c = false) :
    ¬Accepted src accepts k := by
  rw [accepted_iff h]
  rintro ⟨c, r, rfl, hc⟩
  rw [ha c rfl] at hc
  cases hc

theorem run_eq (h : src.drop k = w ++ rest) (hw : ∀ d ∈ w, accepts d = true)
    (hrest : ∀ c ∈ rest.head?, accepts c = false) : run src accepts k = w.length := by
  have htake : rest.takeWhile accepts = [] := by
    cases rest with
    | nil => rfl
    | cons c r => rw [List.takeWhile_cons_of_neg (by simp [hrest c rfl])]
  rw [PatternMeaning.run, h, List.takeWhile_append_of_pos hw, htake, List.append_nil]

theorem head_flatMap {α : Type} {f : α → Outcomes} {x : α} {xs : List α}
    (h : (f x).head? = some r) : ((x :: xs).flatMap f).head? = some r := by
  rw [List.flatMap_cons, List.head?_append, h]
  rfl

theorem way_once (ha : Accepted src accepts k) :
    meaning src (.single accepts .once :: is) (k, ms) = meaning src is (k + 1, ms) := by
  rw [meaning, step, repeated, if_pos ha, List.map_singleton, List.flatMap_singleton]
  rfl

theorem way_skip (ha : ¬Accepted src accepts k) :
    meaning src (.single accepts .optional :: is) (k, ms) = meaning src is (k, ms) := by
  rw [meaning, step, repeated, if_neg ha, List.map_singleton, List.flatMap_singleton]
  rfl

theorem way_optional (ha : Accepted src accepts k)
    (h : (meaning src is (k + 1, ms)).head? = some r) :
    (meaning src (.single accepts .optional :: is) (k, ms)).head? = some r := by
  rw [meaning, step, repeated, if_pos ha, List.map_cons]
  exact head_flatMap h

theorem descending_head (src : Bytes) (accepts : UInt8 → Bool) (k : ℕ) :
    ∃ more, descending src accepts k = (k + run src accepts k) :: more := by
  rw [descending, List.range_succ, List.reverse_append, List.reverse_singleton, List.map_append,
    List.map_singleton]
  exact ⟨_, rfl⟩

theorem way_greedy (h : (meaning src is (k + run src accepts k, ms)).head? = some r) :
    (meaning src (.single accepts .greedy :: is) (k, ms)).head? = some r := by
  obtain ⟨more, hmore⟩ := descending_head src accepts k
  rw [meaning, step, repeated, hmore, List.map_cons]
  exact head_flatMap h

theorem way_greedyOne (ha : Accepted src accepts k)
    (h : (meaning src is (k + 1 + run src accepts (k + 1), ms)).head? = some r) :
    (meaning src (.single accepts .greedyOne :: is) (k, ms)).head? = some r := by
  obtain ⟨more, hmore⟩ := descending_head src accepts (k + 1)
  rw [meaning, step, repeated, if_pos ha, hmore, List.map_cons]
  exact head_flatMap h

theorem way_greedyOne_nil (ha : ¬Accepted src accepts k) :
    meaning src (.single accepts .greedyOne :: is) (k, ms) = [] := by
  rw [meaning, step, repeated, if_neg ha]
  rfl

end Ways

def isalpha (c : UInt8) : Bool := Strtoul.isalpha c.toNat

def isalnum (c : UInt8) : Bool := LuaMatch.isalnum c.toNat

def isdigit (c : UInt8) : Bool := Strtoul.isdigitInt c.toNat

def mantissa (c : UInt8) : Bool := isdigit c || c == 46

def exponentMark (c : UInt8) : Bool := c == 101 || c == 69

def signMark (c : UInt8) : Bool := c == 43 || c == 45

theorem namePattern_items : items (unanchored namePattern) =
    [.single isalpha .once, .single isalnum .greedy] := by
  have halpha : (fun c => singlematch c [37, 97, 37, 119, 42] [37, 119, 42]) = isalpha :=
    bytes_ext (by decide +kernel)
  have halnum : (fun c => singlematch c [37, 119, 42] [42]) = isalnum :=
    bytes_ext (by decide +kernel)
  rw [← halpha, ← halnum]
  rfl

theorem numberPattern_items : items (unanchored numberPattern) =
    [.single (fun c => c == 45) .optional, .single mantissa .greedyOne,
      .single exponentMark .optional, .single signMark .optional, .single isdigit .greedy,
      .single (fun c => !isalnum c) .once] := by
  have hminus : (fun c => singlematch c (numberPattern.drop 1) (numberPattern.drop 3)) =
      fun c => c == 45 := bytes_ext (by decide +kernel)
  have hmantissa : (fun c => singlematch c (numberPattern.drop 4) (numberPattern.drop 10)) =
      mantissa := bytes_ext (by decide +kernel)
  have hmark : (fun c => singlematch c (numberPattern.drop 11) (numberPattern.drop 15)) =
      exponentMark := bytes_ext (by decide +kernel)
  have hsign : (fun c => singlematch c (numberPattern.drop 16) (numberPattern.drop 22)) =
      signMark := bytes_ext (by decide +kernel)
  have hdigit : (fun c => singlematch c (numberPattern.drop 23) (numberPattern.drop 25)) =
      isdigit := bytes_ext (by decide +kernel)
  have hend : (fun c => singlematch c (numberPattern.drop 26) []) = fun c => !isalnum c :=
    bytes_ext (by decide +kernel)
  rw [← hminus, ← hmantissa, ← hmark, ← hsign, ← hdigit, ← hend]
  rfl

theorem find_at_start {e : ℕ} (hp : special p = true) (h : At str pos rest)
    (he : (outcomes str (unanchored p) (pos - 1)).head? = some (.ok (e, []))) :
    find str p pos false = some ⟨pos, e, []⟩ := by
  have hstart := h.start
  have hinside := h.inside
  have hleft : Leftmost str (unanchored p) (anchored p) (pos - 1) (pos - 1) := by
    refine ⟨le_rfl, by omega, fun _ => rfl, fun hnil => ?_, fun t ht hlt => by omega⟩
    rw [hnil] at he
    cases he
  rw [find_of_leftmost hp h hleft he, Nat.sub_add_cancel hstart]

theorem find_anchored_none (hp : special p = true) (ha : anchored p = true) (h : At str pos rest)
    (he : outcomes str (unanchored p) (pos - 1) = []) : find str p pos false = none := by
  refine find_of_nowhere hp h fun k _ _ hk => ?_
  rw [hk ha, he]

theorem name_find (h : At str pos (c :: (w ++ rest))) (hc : isalpha c = true)
    (hw : ∀ d ∈ w, isalnum d = true) (hrest : ∀ d ∈ rest.head?, isalnum d = false) :
    find str namePattern pos false = some ⟨pos, pos + w.length, []⟩ := by
  have hstart := h.start
  have hdrop : str.drop (pos - 1 + 1) = w ++ rest := by
    have := h.next.rest
    rwa [Nat.add_sub_cancel, ← Nat.sub_add_cancel hstart] at this
  have hend : pos - 1 + 1 + run str isalnum (pos - 1 + 1) = pos + w.length := by
    rw [run_eq hdrop hw hrest]
    omega
  refine find_at_start (by decide) h ?_
  rw [outcomes, namePattern_items, way_once ((accepted_iff h.rest).mpr ⟨c, _, rfl, hc⟩)]
  apply way_greedy
  rw [hend]
  rfl

theorem number_none (h : At str pos rest) (hminus : ∀ c ∈ rest.head?, c ≠ 45)
    (hc : ∀ c ∈ rest.head?, mantissa c = false) : find str numberPattern pos false = none := by
  refine find_anchored_none (by decide) (by decide) h ?_
  rw [outcomes, numberPattern_items, way_skip, way_greedyOne_nil (not_accepted h.rest hc)]
  exact not_accepted h.rest fun c hc => beq_false_of_ne (hminus c hc)

section Numbers

open Jiauliyan.JsonText hiding Bytes

/-- What may follow a number in a text. -/
def follows (c : UInt8) : Bool := isWs c || c == 44 || c == 93 || c == 125

theorem follows_plain (hc : follows c = true) :
    mantissa c = false ∧ exponentMark c = false ∧ signMark c = false ∧ isdigit c = false ∧
      isalnum c = false := by
  have hno : (fun c => follows c && (mantissa c || exponentMark c || signMark c || isdigit c ||
      isalnum c)) = fun _ => false := bytes_ext (by decide +kernel)
  have h := congrFun hno c
  simp only [hc, Bool.true_and, Bool.or_eq_false_iff] at h
  exact ⟨h.1.1.1.1, h.1.1.1.2, h.1.1.2, h.1.2, h.2⟩

theorem digit_char (d : Digit) : isdigit d.char = true ∧ mantissa d.char = true ∧
    d.char ≠ 45 ∧ signMark d.char = false ∧ isalpha d.char = false := by
  revert d
  decide

theorem digits_all (ds : List Digit) {accepts : UInt8 → Bool}
    (h : ∀ d : Digit, accepts d.char = true) : ∀ c ∈ ds.map Digit.char, accepts c = true := by
  intro c hc
  obtain ⟨d, -, rfl⟩ := List.mem_map.mp hc
  exact h d

def mantissaText (n : Number) : Bytes := n.whole.map Digit.char ++ fractionText n.fraction

theorem mantissaText_all (n : Number) : ∀ c ∈ mantissaText n, mantissa c = true := by
  intro c hc
  obtain hc | hc := List.mem_append.mp hc
  · exact digits_all n.whole (fun d => (digit_char d).2.1) c hc
  · cases hf : n.fraction with
    | nil =>
      rw [hf] at hc
      cases hc
    | cons d ds =>
      rw [hf] at hc
      obtain rfl | hc := List.mem_cons.mp hc
      · rfl
      · exact digits_all (d :: ds) (fun d => (digit_char d).2.1) c hc

theorem number_text (n : Number) : n.text =
    (if n.negative then [45] else []) ++ n.first.char :: (mantissaText n ++
      exponentText n.exponent) := by
  rw [Number.text, mantissaText, List.map_cons, List.cons_append, List.append_assoc]

theorem exponentText_head (e : Option Exponent) (hc : follows c = true) :
    ∀ d ∈ (exponentText e ++ c :: rest).head?, mantissa d = false := by
  intro d hd
  cases e with
  | none =>
    cases hd
    exact (follows_plain hc).1
  | some e =>
    cases hd
    cases e.upper <;> rfl

variable {src : Bytes} {k : ℕ} {is : List Item} {r : Except Message Config}

theorem way_minus {b : Bool} {d : Digit} (h : src.drop k = (if b then [45] else []) ++ d.char :: w)
    (hr : (meaning src is (k + (if b then [45] else [] : Bytes).length, [])).head? = some r) :
    (meaning src (.single (fun c => c == 45) .optional :: is) (k, [])).head? = some r := by
  cases b with
  | true => exact way_optional ((accepted_iff h).mpr ⟨45, _, rfl, rfl⟩) hr
  | false =>
    rw [way_skip]
    · exact hr
    · exact not_accepted h fun c hc => by
        cases hc
        exact beq_false_of_ne (digit_char d).2.2.1

theorem way_exponent (e : Option Exponent) (hc : follows c = true)
    (h : src.drop k = exponentText e ++ c :: rest) :
    (meaning src [.single exponentMark .optional, .single signMark .optional,
      .single isdigit .greedy, .single (fun c => !isalnum c) .once] (k, [])).head? =
      some (.ok (k + (exponentText e).length + 1, [])) := by
  obtain ⟨-, hmark, hsign, hdigit, halnum⟩ := follows_plain hc
  -- the end, from the digits on
  have hend : ∀ {k : ℕ} (ds : List Digit), src.drop k = ds.map Digit.char ++ c :: rest →
      (meaning src [.single isdigit .greedy, .single (fun c => !isalnum c) .once] (k, [])).head? =
        some (.ok (k + ds.length + 1, [])) := by
    intro k ds hk
    have hrun : PatternMeaning.run src isdigit k = ds.length := by
      rw [run_eq hk (digits_all ds fun d => (digit_char d).1) fun d hd => by
        cases hd
        exact hdigit, List.length_map]
    have hds : ds.length = (ds.map Digit.char).length := by rw [List.length_map]
    have hdrop : src.drop (k + ds.length) = c :: rest := by
      rw [← List.drop_drop, hk, hds, List.drop_left]
    apply way_greedy
    rw [hrun, way_once ((accepted_iff hdrop).mpr ⟨c, rest, rfl, by rw [halnum]; rfl⟩)]
    rfl
  cases e with
  | none =>
    have hno : ∀ {accepts : UInt8 → Bool}, accepts c = false → ¬Accepted src accepts k :=
      fun ha => not_accepted h fun d hd => by
        cases hd
        exact ha
    rw [way_skip (hno hmark), way_skip (hno hsign)]
    exact hend [] h
  | some e =>
    have hdigits : ∀ d ∈ ((e.first :: e.more).map Digit.char ++ c :: rest).head?,
        signMark d = false := by
      intro d hd
      cases hd
      exact (digit_char e.first).2.2.2.1
    rw [exponentText, Exponent.text, List.cons_append, List.append_assoc] at h
    have hnext : src.drop (k + 1) =
        e.sign.text ++ ((e.first :: e.more).map Digit.char ++ c :: rest) := by
      rw [← List.drop_drop, h]
      rfl
    have hlen : k + (exponentText (some e)).length + 1 =
        k + 1 + e.sign.text.length + (e.first :: e.more).length + 1 := by
      rw [exponentText, Exponent.text, List.length_cons, List.length_append, List.length_map]
      omega
    apply way_optional ((accepted_iff h).mpr ⟨_, _, rfl, by cases e.upper <;> rfl⟩)
    rw [hlen]
    cases hs : e.sign with
    | none =>
      rw [hs] at hnext
      rw [way_skip (not_accepted hnext hdigits), hend (e.first :: e.more) hnext]
      rfl
    | plus =>
      rw [hs] at hnext
      apply way_optional ((accepted_iff hnext).mpr ⟨_, _, rfl, rfl⟩)
      have hdrop : src.drop (k + 1 + 1) = (e.first :: e.more).map Digit.char ++ c :: rest := by
        rw [← List.drop_drop, hnext]
        rfl
      rw [hend (e.first :: e.more) hdrop]
      rfl
    | minus =>
      rw [hs] at hnext
      apply way_optional ((accepted_iff hnext).mpr ⟨_, _, rfl, rfl⟩)
      have hdrop : src.drop (k + 1 + 1) = (e.first :: e.more).map Digit.char ++ c :: rest := by
        rw [← List.drop_drop, hnext]
        rfl
      rw [hend (e.first :: e.more) hdrop]
      rfl

theorem number_find (n : Number) (hc : follows c = true)
    (h : At str pos (n.text ++ c :: rest)) :
    find str numberPattern pos false = some ⟨pos, pos + n.text.length, []⟩ := by
  have hstart := h.start
  have hdrop := h.rest
  rw [number_text, List.append_assoc, List.cons_append, List.append_assoc] at hdrop
  refine find_at_start (by decide) h ?_
  rw [outcomes, numberPattern_items]
  refine way_minus hdrop ?_
  have hfirst : str.drop (pos - 1 + (if n.negative then [45] else [] : Bytes).length) =
      n.first.char :: (mantissaText n ++ (exponentText n.exponent ++ c :: rest)) := by
    rw [← List.drop_drop, hdrop, List.drop_left]
  have hmore : str.drop (pos - 1 + (if n.negative then [45] else [] : Bytes).length + 1) =
      mantissaText n ++ (exponentText n.exponent ++ c :: rest) := by
    rw [← List.drop_drop, hfirst]
    rfl
  apply way_greedyOne ((accepted_iff hfirst).mpr ⟨_, _, rfl, (digit_char n.first).2.1⟩)
  rw [run_eq hmore (mantissaText_all n) (exponentText_head n.exponent hc)]
  have hexp : str.drop (pos - 1 + (if n.negative then [45] else [] : Bytes).length + 1 +
      (mantissaText n).length) = exponentText n.exponent ++ c :: rest := by
    rw [← List.drop_drop, hmore, List.drop_left]
  rw [way_exponent n.exponent hc hexp]
  have hlen : n.text.length = (if n.negative then [45] else [] : Bytes).length + 1 +
      (mantissaText n).length + (exponentText n.exponent).length := by
    rw [number_text]
    simp only [List.length_append, List.length_cons]
    omega
  rw [hlen]
  congr 3
  omega

end Numbers

end Jiauliyan.DkjsonFinds
