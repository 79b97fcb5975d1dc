import Jiauliyan.FormEncoding
import Jiauliyan.LineEditing
import Jiauliyan.StringFind

namespace Jiauliyan.StringGsub

open Jiauliyan.StringCompare Jiauliyan.LuaMatch Jiauliyan.PatternMeaning Jiauliyan.StringFind
open Jiauliyan.LuaPattern (Pattern matchClasses gsubFrom)

/-- A pattern that is a class of characters after the other, each for one character. It may be in
parentheses. -/
structure OfClasses (p : Chars) (captured : Bool) (pattern : Pattern UInt8) : Prop where
  free : anchored p = false
  classes : items (cstring p) =
    (if captured then [.startCapture .unfinished] else []) ++
      ((pattern.first :: pattern.rest).map (fun accepts => Item.single accepts .once) ++
        if captured then [.endCapture] else [])

def capturesOf (captured : Bool) (s e : ℕ) : MatchState :=
  if captured then [⟨s, .closed (e - s)⟩] else []

def Replaces (tostring : ℕ → Chars) (src : Chars) (captured : Bool) (repl : Replacement)
    (g : Chars → Chars) : Prop :=
  ∀ m : Match, m.captures = capturesOf captured m.first m.stop → m.first ≤ m.stop →
    addValue tostring src m repl = .ok (g (slice src m.first m.stop))

section Classes

variable {tostring : ℕ → Chars} {src p m rest : Chars} {captured : Bool} {pattern : Pattern UInt8}
  {repl : Replacement} {g : Chars → Chars} {s : ℕ}

theorem at_getElem (hs : s < src.length) : at' src s = src[s] := by
  rw [at', List.getD_eq_getElem?_getD, List.getElem?_eq_getElem hs, Option.getD_some]

theorem meaning_classes (src : Chars) (cs : List (UInt8 → Bool)) (s : ℕ) (ms : MatchState) :
    meaning src (cs.map fun accepts => Item.single accepts .once) (s, ms) =
      match matchClasses cs (src.drop s) with
      | some _ => [.ok (s + cs.length, ms)]
      | none => [] := by
  induction cs generalizing s with
  | nil => rfl
  | cons accepts cs ih =>
    rw [List.map_cons, meaning, step, repeated]
    by_cases hs : s < src.length
    · rw [List.drop_eq_getElem_cons hs, matchClasses]
      by_cases ha : accepts src[s] = true
      · have hacc : Accepted src accepts s := ⟨hs, by rwa [at_getElem hs]⟩
        simp only [if_pos hacc, if_pos ha, List.map_cons, List.map_nil, List.flatMap_singleton,
          andThen, ih, List.length_cons]
        cases matchClasses cs (src.drop (s + 1)) with
        | none => rfl
        | some r => simp only [Option.map_some, Nat.add_assoc, Nat.add_comm 1]
      · have hacc : ¬Accepted src accepts s := by
          rintro ⟨-, h⟩
          rw [at_getElem hs] at h
          exact ha h
        rw [if_neg hacc, if_neg ha]
        rfl
    · have hnil : src.drop s = [] := List.drop_eq_nil_of_le (not_lt.mp hs)
      rw [if_neg fun h => hs h.1, hnil]
      rfl

theorem meaning_append (src : Chars) (is js : List Item) (c : Config) :
    meaning src (is ++ js) c = (meaning src is c).flatMap (andThen (meaning src js)) := by
  induction is generalizing c with
  | nil => simp [meaning, andThen]
  | cons item is ih =>
    rw [List.cons_append, meaning, meaning, List.flatMap_assoc]
    refine List.flatMap_congr fun o _ => ?_
    cases o with
    | ok d => exact ih d
    | error e => simp [andThen]

theorem OfClasses.items_free (h : OfClasses p false pattern) : items (cstring p) =
    (pattern.first :: pattern.rest).map fun accepts => Item.single accepts .once := by
  rw [h.classes, if_neg Bool.false_ne_true, if_neg Bool.false_ne_true, List.nil_append,
    List.append_nil]

theorem matchAt_classes (h : OfClasses p captured pattern) (src : Chars) (s : ℕ) :
    matchAt src ((cstring p).length + 1) [] s (cstring p) =
      .ok (match pattern.matchAt (src.drop s) with
        | some r => (some (s + r.1.length), capturesOf captured s (s + r.1.length))
        | none => (none, [])) := by
  have hrest : ∀ ms, meaning src ((pattern.first :: pattern.rest).map
      fun accepts => Item.single accepts .once) (s, ms) =
        match pattern.matchAt (src.drop s) with
        | some r => [.ok (s + r.1.length, ms)]
        | none => [] := by
    intro ms
    rw [meaning_classes, Pattern.matchAt]
    cases hm : matchClasses (pattern.first :: pattern.rest) (src.drop s) with
    | none => rfl
    | some r =>
      obtain ⟨-, hlen⟩ := LuaPattern.matchClasses_some hm
      simp only [hlen]
  rw [matchAt_choose, outcomes, h.classes]
  cases captured with
  | false =>
    simp only [Bool.false_eq_true, if_false, List.nil_append, List.append_nil, hrest]
    cases pattern.matchAt (src.drop s) <;> rfl
  | true =>
    have hopen : step src (.startCapture .unfinished) (s, []) = [.ok (s, [⟨s, .unfinished⟩])] := rfl
    simp only [if_true, List.singleton_append, meaning, hopen, List.flatMap_singleton, andThen,
      meaning_append, hrest]
    cases pattern.matchAt (src.drop s) <;> rfl

theorem slice_match (h : src.drop s = m ++ rest) : slice src s (s + m.length) = m := by
  rw [slice, h, Nat.add_sub_cancel_left, List.take_left]

theorem drop_match (h : src.drop s = m ++ rest) : src.drop (s + m.length) = rest := by
  rw [← List.drop_drop, h, List.drop_left]

theorem gsubLoop_classes (h : OfClasses p captured pattern)
    (hrepl : Replaces tostring src captured repl g) (maxS : ℤ) {r n s : ℕ} (hs : s ≤ src.length)
    (hr : src.length - s < r) :
    gsubLoop tostring src (cstring p) repl false maxS r n s =
      .ok (gsubFrom pattern g maxS.toNat n (src.drop s)) := by
  induction r generalizing n s with
  | zero => omega
  | succ r ih =>
    rw [gsubLoop]
    by_cases hn : (n : ℤ) < maxS
    · have hn' : n < maxS.toNat := by omega
      rw [if_pos hn, matchAt_classes h]
      cases hm : pattern.matchAt (src.drop s) with
      | some found =>
        obtain ⟨m, rest⟩ := found
        obtain ⟨hsplit, hpos⟩ := LuaPattern.matchAt_some hm
        have hlen : (src.drop s).length = m.length + rest.length := by
          rw [hsplit, List.length_append]
        rw [List.length_drop] at hlen
        have hadd := hrepl ⟨s, s + m.length, capturesOf captured s (s + m.length)⟩ rfl
          (Nat.le_add_right s _)
        rw [slice_match hsplit] at hadd
        have hlt : s < s + m.length := by omega
        simp only [hadd, Option.isSome_some, if_true, Option.getD_some, hlt,
          Bool.false_eq_true, if_false]
        rw [ih (by omega) (by omega), drop_match hsplit, LuaPattern.gsubFrom_match hn' hm]
        rfl
      | none =>
        simp only [Option.isSome_none, Option.getD_none, lt_irrefl, if_false,
          Bool.false_eq_true]
        by_cases hlt : s < src.length
        · rw [if_pos hlt, ih (by omega) (by omega)]
          rw [List.drop_eq_getElem_cons hlt] at hm ⊢
          rw [LuaPattern.gsubFrom_skip hn' hm, at_getElem hlt]
          rfl
        · have hnil : src.drop s = [] := List.drop_eq_nil_of_le (not_lt.mp hlt)
          rw [if_neg hlt, hnil, LuaPattern.gsubFrom_nil]
          rfl
    · have hn' : ¬n < maxS.toNat := by omega
      rw [if_neg hn, LuaPattern.gsubFrom_stop hn']

theorem strGsub_classes (h : OfClasses p captured pattern)
    (hrepl : Replaces tostring src captured repl g) (maxS : Option ℤ) :
    strGsub tostring src p repl maxS =
      .ok (LuaPattern.gsub pattern g (maxS.map Int.toNat) src) := by
  have hmax : (maxS.getD (src.length + 1)).toNat =
      (maxS.map Int.toNat).getD (src.length + 1) := by
    cases maxS with
    | none => rfl
    | some n => rfl
  rw [strGsub, h.free, unanchored, h.free, if_neg Bool.false_ne_true,
    gsubLoop_classes h hrepl _ (Nat.zero_le _) (by omega), hmax, List.drop_zero]
  rfl

end Classes

theorem bytes_ext {f g : UInt8 → Bool}
    (h : ∀ n < 256, f (UInt8.ofNat n) = g (UInt8.ofNat n)) : f = g := by
  funext c
  have hc := h c.toNat c.toNat_lt
  rwa [UInt8.ofNat_toNat] at hc

theorem special_classes :
    OfClasses [40, 91, 38, 61, 43, 37, 99, 93, 41] true ⟨FormEncoding.special, []⟩ where
  free := by decide
  classes := by
    have hset : (fun c => singlematch c [91, 38, 61, 43, 37, 99, 93, 41] [41]) =
        FormEncoding.special := bytes_ext (by decide +kernel)
    rw [List.map_singleton, ← hset]
    rfl

theorem space_classes : OfClasses [32] false ⟨fun c => c == 0x20, []⟩ where
  free := by decide
  classes := by
    have hset : (fun c => singlematch c [32] []) = fun c => c == 0x20 :=
      bytes_ext (by decide +kernel)
    rw [List.map_singleton, ← hset]
    rfl

theorem backspace_classes : OfClasses [46, 8] false LineEditing.beforeBackspace where
  free := by decide
  classes := by
    have hset : (fun c => singlematch c [8] []) = fun c => c == 8 := bytes_ext (by decide +kernel)
    have hall : (fun c => singlematch c [46, 8] [8]) = fun _ => true :=
      bytes_ext (by decide +kernel)
    rw [LineEditing.beforeBackspace, List.map_cons, List.map_singleton, ← hset, ← hall]
    rfl

section Scripts

variable (tostring : ℕ → Chars)

theorem replaces_unary (src : Chars) (captured : Bool) (f : Chars → Chars) :
    Replaces tostring src captured (unary f) f := by
  intro m hm hle
  have hone : pushOnecapture src m 0 = .ok (.text (slice src m.first m.stop)) := by
    rw [pushOnecapture, hm]
    cases captured with
    | false => rfl
    | true => simp [capturesOf, captureValue, Nat.add_sub_cancel' hle]
  have hrange : (if m.captures.length = 0 ∧ true = true then 1 else m.captures.length) = 1 := by
    rw [hm]
    cases captured <;> rfl
  have hpush : pushCaptures src m true = .ok [.text (slice src m.first m.stop)] := by
    rw [pushCaptures, hrange, List.range_one, List.mapM_cons, hone]
    rfl
  rw [unary, addValue, hpush]
  rfl

theorem replaces_plus (src : Chars) : Replaces tostring src false (.string [43]) fun _ => [43] :=
  fun _ _ _ => rfl

theorem replaces_empty (src : Chars) : Replaces tostring src false (.string []) fun _ => [] :=
  fun _ _ _ => rfl

/-- `url_encode` with any function for what `string.format` makes of a byte. -/
def urlEncodeBy (hex : UInt8 → Chars) (s : Chars) : Chars :=
  let s := (LuaPattern.gsub ⟨FormEncoding.special, []⟩ (fun c => hex (c.headD 0)) none s).1
  (LuaPattern.gsub ⟨fun c => c == 0x20, []⟩ (fun _ => [43]) none s).1

/-- The calls of `url_encode` and that of `removebackspace`. -/
theorem scripts_gsub (hex : UInt8 → Chars) (s : Chars) :
    (∃ t n m, strGsub tostring s [40, 91, 38, 61, 43, 37, 99, 93, 41]
          (unary fun m => hex (m.headD 0)) none = .ok (t, n) ∧
        strGsub tostring t [32] (.string [43]) none = .ok (urlEncodeBy hex s, m)) ∧
      urlEncodeBy FormEncoding.formatHex s = FormEncoding.urlEncode s ∧
      strGsub tostring s [46, 8] (.string []) (some 1) =
        .ok (LuaPattern.gsub LineEditing.beforeBackspace (fun _ => []) (some 1) s) :=
  ⟨⟨_, _, _, strGsub_classes special_classes (replaces_unary tostring s true _) none,
    strGsub_classes space_classes (replaces_plus tostring _) none⟩, rfl,
    strGsub_classes backspace_classes (replaces_empty tostring s) (some 1)⟩

end Scripts

end Jiauliyan.StringGsub
