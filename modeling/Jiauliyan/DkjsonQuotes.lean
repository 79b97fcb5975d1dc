import Jiauliyan.DkjsonEncode
import Jiauliyan.DkjsonStrings

namespace Jiauliyan.DkjsonQuotes

open Jiauliyan.Framing (Bytes)
open Jiauliyan.JsonText hiding Bytes
open Jiauliyan.LuaMatch Jiauliyan.LuaPattern Jiauliyan.PatternMeaning
open Jiauliyan.StringFind Jiauliyan.StringGsub
open Jiauliyan.Dkjson Jiauliyan.DkjsonFinds Jiauliyan.DkjsonStrings

section Substitutions

variable {str p w rest : Bytes} {pattern : Pattern UInt8} {f : Bytes → Bytes} {max n : ℕ}

theorem gsubFrom_nowhere (h : ∀ pre rest, str = pre ++ rest → pattern.matchAt rest = none) :
    (gsubFrom pattern f max n str).1 = str := by
  induction str with
  | nil => rw [gsubFrom_nil]
  | cons c str ih =>
    by_cases hn : n < max
    · rw [gsubFrom_skip hn (h [] _ rfl)]
      exact congrArg (c :: ·) (ih fun pre rest heq => h (c :: pre) rest (by rw [heq]; rfl))
    · rw [gsubFrom_stop hn]

theorem find_none (h : OfClasses p false pattern) (hp : special p = true)
    (hfind : find str p 1 false = none) {k : ℕ} (hk : k ≤ str.length) :
    pattern.matchAt (str.drop k) = none := by
  have hat : At str 1 str := ⟨le_rfl, Nat.le_add_left 1 _, rfl⟩
  have hout : ∀ k, outcomes str (unanchored p) k =
      (pattern.matchAt (str.drop k)).elim []
        fun _ => [.ok (k + (pattern.first :: pattern.rest).length, [])] := by
    intro k
    have hfree := h.free
    rw [unanchored, hfree, if_neg Bool.false_ne_true, outcomes, h.items_free, meaning_classes,
      Pattern.matchAt]
    cases matchClasses (pattern.first :: pattern.rest) (str.drop k) <;> rfl
  obtain ⟨-, hno⟩ | ⟨l, hl, -⟩ := searchFrom_leftmost str (unanchored p) (anchored p)
    (Nat.zero_add str.length)
  · have hnil := hno k (Nat.zero_le k) hk fun ha => by
      rw [h.free] at ha
      cases ha
    rw [hout] at hnil
    cases hm : pattern.matchAt (str.drop k) with
    | none => rfl
    | some r =>
      rw [hm] at hnil
      cases hnil
  · have hsome := hl.outcome
    rw [hout] at hsome
    cases hm : pattern.matchAt (str.drop l) with
    | none =>
      rw [hm] at hsome
      exact absurd rfl hsome
    | some r =>
      have hhead : (outcomes str (unanchored p) l).head? =
          some (.ok (l + (pattern.first :: pattern.rest).length, [])) := by
        rw [hout, hm]
        rfl
      rw [find_of_leftmost hp hat hl hhead] at hfind
      cases hfind

theorem fsub_classes (h : OfClasses p false pattern) (hp : special p = true) :
    fsub str p f = (gsub pattern f none str).1 := by
  rw [fsub]
  cases hfind : find str p 1 false with
  | some m =>
    dsimp only
    rw [strGsub_classes h (replaces_unary _ str false f) none]
    rfl
  | none =>
    show str = (gsub pattern f none str).1
    refine (gsubFrom_nowhere fun pre rest heq => ?_).symm
    have hk : pre.length ≤ str.length := by
      rw [heq, List.length_append]
      omega
    have hno := find_none h hp hfind hk
    rwa [heq, List.drop_left] at hno

theorem fsub_high (hp : special p = false) (hhigh : ¬p.headD 0 < 128) : fsub str p f = str := by
  have hif : false = true ∨ ¬special p = true := .inr (by simp [hp])
  rw [fsub, find, strFind, if_pos hif, plainFind, lmemfind_high hhigh]
  rfl

theorem gsubFrom_keep (hw : ∀ c ∈ w, pattern.first c = false) (hn : n < max) :
    gsubFrom pattern f max n (w ++ rest) =
      (w ++ (gsubFrom pattern f max n rest).1, (gsubFrom pattern f max n rest).2) := by
  induction w with
  | nil => rfl
  | cons c w ih =>
    have hc := hw c List.mem_cons_self
    have hno : pattern.matchAt (c :: (w ++ rest)) = none := by
      rw [Pattern.matchAt, matchClasses, hc, if_neg Bool.false_ne_true]
    rw [List.cons_append, gsubFrom_skip hn hno, ih fun d hd => hw d (List.mem_cons_of_mem c hd)]
    rfl

end Substitutions

section Pieces

variable {pattern : Pattern UInt8} {f : Bytes → Bytes} {max n : ℕ}

def textOf (ps : List Piece) : Bytes := ps.flatMap Piece.text

theorem escape_low (p : Piece) (hp : ∀ c plain, p ≠ .char c plain) : ∀ c ∈ p.text, c < 128 := by
  have hhex : ∀ h : Hex, h.char < 128 := by
    rintro ⟨v, b⟩
    revert v b
    decide
  have hcode : ∀ x : Code, ∀ c ∈ x.text, c < 128 := by
    intro x c hc
    simp only [Code.text, List.mem_cons, List.not_mem_nil, or_false] at hc
    obtain rfl | rfl | rfl | rfl | rfl | rfl := hc
    · decide
    · decide
    · exact hhex _
    · exact hhex _
    · exact hhex _
    · exact hhex _
  cases p with
  | char c plain => exact absurd rfl (hp c plain)
  | escape e =>
    intro c hc
    simp only [Piece.text, List.mem_cons, List.not_mem_nil, or_false] at hc
    obtain rfl | rfl := hc
    · decide
    · cases e <;> decide
  | unicode x single => exact hcode x
  | pair x y high low =>
    intro c hc
    obtain hc | hc := List.mem_append.mp hc
    · exact hcode x c hc
    · exact hcode y c hc

theorem high_pieces {ps : List Piece} {w rest : Bytes} (hw : ∀ c ∈ w, ¬c < 128)
    (h : textOf ps = w ++ rest) :
    ∃ qs, stringBytes ps = w ++ stringBytes qs ∧ textOf qs = rest ∧ qs.length ≤ ps.length ∧
      (w ≠ [] → qs.length < ps.length) := by
  induction w generalizing ps with
  | nil => exact ⟨ps, rfl, h, le_rfl, fun hne => absurd rfl hne⟩
  | cons c w ih =>
    cases ps with
    | nil => cases h
    | cons p ps =>
      rw [textOf, List.flatMap_cons] at h
      have hhead : ∃ plain, p = .char c plain := by
        cases p with
        | char d plain =>
          obtain rfl := (List.cons.inj h).1
          exact ⟨plain, rfl⟩
        | escape e | unicode x single | pair x y high low =>
          refine absurd ?_ (hw c List.mem_cons_self)
          rw [← (List.cons.inj h).1]
          decide
      obtain ⟨plain, rfl⟩ := hhead
      obtain ⟨qs, hbytes, htext, hle, -⟩ := ih (fun d hd => hw d (List.mem_cons_of_mem c hd))
        (List.cons.inj h).2
      refine ⟨qs, ?_, htext, Nat.le_succ_of_le hle, fun _ => Nat.lt_succ_of_le hle⟩
      rw [stringBytes, List.flatMap_cons]
      exact congrArg (c :: ·) hbytes

theorem matchClasses_high {cs : List (UInt8 → Bool)} {s m rest : Bytes}
    (hhigh : ∀ accepts ∈ cs, ∀ c, accepts c = true → ¬c < 128)
    (h : matchClasses cs s = some (m, rest)) : ∀ c ∈ m, ¬c < 128 := by
  induction cs generalizing s m with
  | nil =>
    cases h
    exact fun c hc => by cases hc
  | cons accepts cs ih =>
    cases s with
    | nil => cases h
    | cons d s =>
      rw [matchClasses] at h
      split_ifs at h with hd
      obtain ⟨⟨m', rest'⟩, hm, heq⟩ := Option.map_eq_some_iff.mp h
      cases heq
      intro c hc
      obtain rfl | hc := List.mem_cons.mp hc
      · exact hhigh accepts List.mem_cons_self c hd
      · exact ih (fun a ha => hhigh a (List.mem_cons_of_mem accepts ha)) hm c hc

def Stands (text : Bytes) (ps : List Piece) : Prop :=
  ∃ qs, text = textOf qs ∧ stringBytes qs = stringBytes ps

theorem Stands.append {p : Piece} {ps ps' : List Piece} {text : Bytes} (h : Stands text ps)
    (hbytes : stringBytes ps' = p.bytes ++ stringBytes ps) : Stands (p.text ++ text) ps' := by
  obtain ⟨qs, rfl, hqs⟩ := h
  refine ⟨p :: qs, rfl, ?_⟩
  rw [hbytes, ← hqs]
  rfl

def Rewrites (pattern : Pattern UInt8) (f : Bytes → Bytes) (ps : List Piece) : Prop :=
  ∀ w rest, pattern.matchAt (w ++ rest) = some (w, rest) → w <:+: stringBytes ps →
    ∃ p : Piece, f w = p.text ∧ p.bytes = w

theorem Rewrites.behind {ps qs : List Piece} {w : Bytes} (hf : Rewrites pattern f ps)
    (hbytes : stringBytes ps = w ++ stringBytes qs) : Rewrites pattern f qs := by
  intro v rest hm hv
  refine hf v rest hm ?_
  rw [hbytes]
  exact hv.trans (List.suffix_append w _).isInfix

theorem textOf_cons (p : Piece) (ps : List Piece) : textOf (p :: ps) = p.text ++ textOf ps :=
  List.flatMap_cons

theorem stringBytes_cons (p : Piece) (ps : List Piece) :
    stringBytes (p :: ps) = p.bytes ++ stringBytes ps :=
  List.flatMap_cons

theorem gsub_low {p : Piece} (hfirst : ∀ c, pattern.first c = true → ¬c < 128)
    (hlow : ∀ c ∈ p.text, c < 128) (ps : List Piece) (hn : n < max) :
    (gsubFrom pattern f max n (textOf (p :: ps))).1 =
      p.text ++ (gsubFrom pattern f max n (textOf ps)).1 := by
  rw [textOf_cons, gsubFrom_keep (fun c hc => ?_) hn]
  exact Bool.eq_false_iff.mpr fun hmet => hfirst c hmet (hlow c hc)

theorem gsub_match {c : UInt8} {plain} {ps : List Piece} {m rest : Bytes}
    (hhigh : ∀ accepts ∈ pattern.first :: pattern.rest, ∀ c, accepts c = true → ¬c < 128)
    (hf : Rewrites pattern f (.char c plain :: ps)) (hn : n < max)
    (hm : pattern.matchAt (c :: textOf ps) = some (m, rest)) :
    ∃ (p : Piece) (qs : List Piece), qs.length < ps.length + 1 ∧
      (textOf qs).length ≤ (textOf ps).length ∧
      stringBytes (.char c plain :: ps) = p.bytes ++ stringBytes qs ∧
      (gsubFrom pattern f max n (c :: textOf ps)).1 =
        p.text ++ (gsubFrom pattern f max (n + 1) (textOf qs)).1 := by
  obtain ⟨heq, hpos⟩ := matchAt_some hm
  have hmhigh : ∀ d ∈ m, ¬d < 128 := matchClasses_high hhigh hm
  have hsplit : textOf (.char c plain :: ps) = m ++ rest := heq
  obtain ⟨qs, hbytes, htext, -, hlt⟩ := high_pieces hmhigh hsplit
  rw [heq] at hm
  obtain ⟨p, hfm, hp⟩ := hf m rest hm (by
    rw [hbytes]
    exact (List.prefix_append m _).isInfix)
  have hlen : (c :: textOf ps).length = m.length + (textOf qs).length := by
    rw [heq, List.length_append, htext]
  rw [List.length_cons] at hlen
  refine ⟨p, qs, hlt (List.ne_nil_of_length_pos hpos), by omega, by rw [hp, hbytes], ?_⟩
  rw [heq, gsubFrom_match hn hm, hfm, ← htext]

theorem gsub_pieces
    (hhigh : ∀ accepts ∈ pattern.first :: pattern.rest, ∀ c, accepts c = true → ¬c < 128)
    (ps : List Piece) (hf : Rewrites pattern f ps) (hmax : n + (textOf ps).length < max) :
    Stands (gsubFrom pattern f max n (textOf ps)).1 ps := by
  induction hl : ps.length using Nat.strongRecOn generalizing ps n with
  | ind l ih =>
    subst hl
    cases ps with
    | nil => exact ⟨[], by rw [textOf, List.flatMap_nil, gsubFrom_nil], rfl⟩
    | cons p ps =>
      have hn : n < max := by omega
      rw [textOf_cons, List.length_append] at hmax
      have hbytes := stringBytes_cons p ps
      have hlater : Stands (gsubFrom pattern f max n (textOf ps)).1 ps :=
        ih ps.length (Nat.lt_succ_self _) ps (hf.behind hbytes) (by omega) rfl
      by_cases hlow : ∀ c ∈ p.text, c < 128
      · rw [gsub_low (hhigh pattern.first List.mem_cons_self) hlow ps hn]
        exact hlater.append hbytes
      · obtain ⟨c, plain, rfl⟩ : ∃ c plain, p = .char c plain := by
          by_contra hno
          exact hlow (escape_low p fun c plain heq => hno ⟨c, plain, heq⟩)
        show Stands (gsubFrom pattern f max n (c :: textOf ps)).1 _
        cases hm : pattern.matchAt (c :: textOf ps) with
        | none =>
          rw [gsubFrom_skip hn hm]
          exact hlater.append hbytes
        | some r =>
          obtain ⟨p, qs, hlt, hle, hqs, heq⟩ := gsub_match hhigh hf hn hm
          have hfit : n + 1 + (textOf qs).length < max := by
            simp only [Piece.text, List.length_cons, List.length_nil] at hmax
            omega
          rw [heq]
          exact (ih qs.length hlt qs (hf.behind hqs) hfit rfl).append hqs

end Pieces

def coded : Bytes → Bool
  | [c] => (c < 32 || c == 127) && (escapecodes [c]).isNone
  | [194, b] => 128 ≤ b && b ≤ 159 || b == 173
  | [216, b] => 128 ≤ b && b ≤ 132
  | [225, 158, b] => b == 180 || b == 181
  | [226, 128, b] => 140 ≤ b && b ≤ 143 || b == 168 || b == 175
  | [226, 129, b] => 160 ≤ b && b ≤ 175
  | [239, 191, b] => b == 190 || b == 191
  | _ => false

/-- Whether a number is written with four hexadecimal digits. -/
def Written (format4x : ℕ → Bytes) (v : ℕ) : Prop :=
  ∃ x : Code, [92, 117] ++ format4x v = x.text ∧ x.value = v

/-- A character that is not a surrogate, with the bytes that stand for it. -/
def Plain (w : Bytes) : Prop :=
  ∃ v, utf8value w = some v ∧ (v < 0xD800 ∨ 0xDFFF < v) ∧ v ≤ 0xffff ∧ unichar v = some w

instance (w : Bytes) : Decidable (Plain w) :=
  match h : utf8value w with
  | none => isFalse fun ⟨v, hv, _⟩ => by
      rw [h] at hv
      cases hv
  | some v =>
    decidable_of_iff ((v < 0xD800 ∨ 0xDFFF < v) ∧ v ≤ 0xffff ∧ unichar v = some w) (by
      constructor
      · exact fun hv => ⟨v, h, hv⟩
      · rintro ⟨u, hu, hv⟩
        rw [h] at hu
        cases hu
        exact hv)

def leads : List Bytes := [[], [194], [216], [225, 158], [226, 128], [226, 129], [239, 191]]

theorem coded_lead {w : Bytes} (h : coded w = true) : ∃ lead ∈ leads, ∃ b, w = lead ++ [b] := by
  unfold coded at h
  split at h
  · exact ⟨[], by decide, _, rfl⟩
  · exact ⟨[194], by decide, _, rfl⟩
  · exact ⟨[216], by decide, _, rfl⟩
  · exact ⟨[225, 158], by decide, _, rfl⟩
  · exact ⟨[226, 128], by decide, _, rfl⟩
  · exact ⟨[226, 129], by decide, _, rfl⟩
  · exact ⟨[239, 191], by decide, _, rfl⟩
  · cases h

theorem coded_plain {w : Bytes} (h : coded w = true) : escapecodes w = none ∧ Plain w := by
  have hall : ∀ b < 256, ∀ lead ∈ leads, coded (lead ++ [UInt8.ofNat b]) = true →
      escapecodes (lead ++ [UInt8.ofNat b]) = none ∧ Plain (lead ++ [UInt8.ofNat b]) := by
    decide +kernel
  obtain ⟨lead, hlead, b, rfl⟩ := coded_lead h
  have hb := hall b.toNat b.toNat_lt lead hlead
  rw [UInt8.ofNat_toNat] at hb
  exact hb h

theorem coded_piece {format4x : ℕ → Bytes} {w : Bytes} (h : coded w = true)
    (hw : ∀ v, utf8value w = some v → Written format4x v) :
    ∃ p : Piece, escapeutf8 format4x w = p.text ∧ p.bytes = w := by
  obtain ⟨hcodes, v, hv, hsingle, hle, hchar⟩ := coded_plain h
  obtain ⟨x, htext, rfl⟩ := hw v hv
  refine ⟨.unicode x hsingle, ?_, ?_⟩
  · simp only [escapeutf8, hcodes, hv, if_pos hle, htext]
    rfl
  · have hvalid : x.value.isValidChar := by
      rw [Nat.isValidChar]
      omega
    rw [unichar_utf8 hvalid] at hchar
    exact Option.some.inj hchar

theorem match_forall {cs : List (UInt8 → Bool)} {s w rest : Bytes}
    (h : matchClasses cs s = some (w, rest)) :
    List.Forall₂ (fun accepts c => accepts c = true) cs w := by
  induction cs generalizing s w with
  | nil =>
    cases h
    exact .nil
  | cons accepts cs ih =>
    cases s with
    | nil => cases h
    | cons d s =>
      rw [matchClasses] at h
      split_ifs at h with hd
      obtain ⟨⟨m', rest'⟩, hm, heq⟩ := Option.map_eq_some_iff.mp h
      cases heq
      exact .cons hd (ih hm)

/-- A pattern for characters of more than one byte: one of classes, or one that is searched for
plainly and never found. -/
inductive Longer (p : Bytes) : Prop
  | classes (pattern : Pattern UInt8) (h : OfClasses p false pattern) (searched : special p = true)
      (high : ∀ accepts ∈ pattern.first :: pattern.rest, ∀ c, accepts c = true → ¬c < 128)
      (coded : ∀ w, List.Forall₂ (fun accepts c => accepts c = true)
        (pattern.first :: pattern.rest) w → coded w = true)
  | plain (h : special p = false) (high : ¬p.headD 0 < 128)

def leadPattern (a : UInt8) (more : Bytes) (last : UInt8 → Bool) : Pattern UInt8 :=
  ⟨fun c => c == a, more.map (fun b c => c == b) ++ [last]⟩

theorem match_lead {lead : Bytes} {last : UInt8 → Bool} {w : Bytes}
    (h : List.Forall₂ (fun accepts c => accepts c = true)
      (lead.map (fun b c => c == b) ++ [last]) w) : ∃ c, w = lead ++ [c] ∧ last c = true := by
  induction lead generalizing w with
  | nil =>
    obtain ⟨c, t, hc, hnil, rfl⟩ := List.forall₂_cons_left_iff.mp h
    obtain rfl := List.forall₂_nil_left_iff.mp hnil
    exact ⟨c, rfl, hc⟩
  | cons a lead ih =>
    obtain ⟨b, t, hb, hrest, rfl⟩ := List.forall₂_cons_left_iff.mp h
    obtain ⟨c, rfl, hc⟩ := ih hrest
    exact ⟨c, by rw [beq_iff_eq.mp hb]; rfl, hc⟩

def seen (p : Bytes) (places : List (ℕ × ℕ)) : List (UInt8 → Bool) :=
  places.map fun (i, j) c => singlematch c (p.drop i) (p.drop j)

theorem longer_lead (p : Bytes) (a : UInt8) (more : Bytes) (last : UInt8 → Bool)
    (places : List (ℕ × ℕ)) (free : anchored p = false) (searched : special p = true)
    (hitems : items (cstring p) = (seen p places).map fun f => .single f .once)
    (hseen : List.Forall₂ (fun f g => ∀ n < 256, f (UInt8.ofNat n) = g (UInt8.ofNat n))
      (seen p places) ((a :: more).map (fun b c => c == b) ++ [last]))
    (hlead : ∀ b ∈ a :: more, ¬b < 128) (hlast : ∀ n < 256, last (UInt8.ofNat n) = true →
      ¬UInt8.ofNat n < 128 ∧ coded (a :: more ++ [UInt8.ofNat n]) = true) : Longer p := by
  have hbyte : ∀ c, last c = true → ¬c < 128 ∧ coded (a :: more ++ [c]) = true := fun c hc => by
    have hn := hlast c.toNat c.toNat_lt
    rw [UInt8.ofNat_toNat] at hn
    exact hn hc
  have heq : seen p places = (a :: more).map (fun b c => c == b) ++ [last] :=
    List.forall₂_eq_eq_eq ▸ hseen.imp fun f g hfg => bytes_ext hfg
  refine .classes (leadPattern a more last) ⟨free, ?_⟩ searched (fun accepts haccepts c hc => ?_)
    fun w hw => ?_
  · rw [hitems, heq, if_neg Bool.false_ne_true, if_neg Bool.false_ne_true, List.nil_append,
      List.append_nil]
    rfl
  · obtain hmem | hmem := List.mem_append.mp
      (show accepts ∈ (a :: more).map (fun b c => c == b) ++ [last] from haccepts)
    · obtain ⟨b, hb, rfl⟩ := List.mem_map.mp hmem
      rw [beq_iff_eq.mp hc]
      exact hlead b hb
    · rw [List.mem_singleton.mp hmem] at hc
      exact (hbyte c hc).1
  · obtain ⟨c, rfl, hc⟩ := match_lead (show List.Forall₂ (fun accepts c => accepts c = true)
      ((a :: more).map (fun b c => c == b) ++ [last]) w from hw)
    exact (hbyte c hc).2

theorem longer_patterns : ∀ p ∈ longer, Longer p := by
  intro p hp
  simp only [longer, List.mem_cons, List.not_mem_nil, or_false] at hp
  obtain rfl | rfl | rfl | rfl | rfl | rfl | rfl | rfl := hp
  · exact longer_lead _ 194 [] (fun b => 128 ≤ b && b ≤ 159 || b == 173) [(0, 1), (1, 7)]
      (by decide) (by decide) rfl (.cons (by decide +kernel) (.cons (by decide +kernel) .nil))
      (by simp) (by decide +kernel)
  · exact longer_lead _ 216 [] (fun b => 128 ≤ b && b ≤ 132) [(0, 1), (1, 6)]
      (by decide) (by decide) rfl (.cons (by decide +kernel) (.cons (by decide +kernel) .nil))
      (by simp) (by decide +kernel)
  · exact .plain (by decide) (by decide)
  · exact longer_lead _ 225 [158] (fun b => b == 180 || b == 181) [(0, 1), (1, 2), (2, 6)]
      (by decide) (by decide) rfl
      (.cons (by decide +kernel) (.cons (by decide +kernel) (.cons (by decide +kernel) .nil)))
      (by simp) (by decide +kernel)
  · exact longer_lead _ 226 [128] (fun b => 140 ≤ b && b ≤ 143 || b == 168 || b == 175)
      [(0, 1), (1, 2), (2, 9)] (by decide) (by decide) rfl
      (.cons (by decide +kernel) (.cons (by decide +kernel) (.cons (by decide +kernel) .nil)))
      (by simp) (by decide +kernel)
  · exact longer_lead _ 226 [129] (fun b => 160 ≤ b && b ≤ 175) [(0, 1), (1, 2), (2, 7)]
      (by decide) (by decide) rfl
      (.cons (by decide +kernel) (.cons (by decide +kernel) (.cons (by decide +kernel) .nil)))
      (by simp) (by decide +kernel)
  · exact .plain (by decide) (by decide)
  · exact longer_lead _ 239 [191] (fun b => b == 190 || b == 191) [(0, 1), (1, 2), (2, 6)]
      (by decide) (by decide) rfl
      (.cons (by decide +kernel) (.cons (by decide +kernel) (.cons (by decide +kernel) .nil)))
      (by simp) (by decide +kernel)

section Quoted

variable {format4x : ℕ → Bytes}

theorem fsub_longer {p : Bytes} (hp : Longer p) (ps : List Piece)
    (hw : ∀ w v, w <:+: stringBytes ps → coded w = true → utf8value w = some v →
      Written format4x v) :
    ∃ qs, fsub (textOf ps) p (escapeutf8 format4x) = textOf qs ∧
      stringBytes qs = stringBytes ps := by
  cases hp with
  | classes pattern h searched high hcoded =>
    rw [fsub_classes h searched]
    refine gsub_pieces high ps (fun w rest hm hin => ?_) (by rw [Option.getD_none]; omega)
    have hc := hcoded w (match_forall hm)
    exact coded_piece hc fun v hv => hw w v hin hc hv
  | plain h high => exact ⟨ps, fsub_high h high, rfl⟩

theorem fsub_all (patterns : List Bytes) (hpatterns : ∀ p ∈ patterns, Longer p) (ps : List Piece)
    (hw : ∀ w v, w <:+: stringBytes ps → coded w = true → utf8value w = some v →
      Written format4x v) :
    ∃ qs, patterns.foldl (fun value p => fsub value p (escapeutf8 format4x)) (textOf ps) =
      textOf qs ∧ stringBytes qs = stringBytes ps := by
  induction patterns generalizing ps with
  | nil => exact ⟨ps, rfl, rfl⟩
  | cons p patterns ih =>
    obtain ⟨qs, htext, hbytes⟩ := fsub_longer (hpatterns p List.mem_cons_self) ps hw
    obtain ⟨rs, hrs, hrsbytes⟩ := ih (fun q hq => hpatterns q (List.mem_cons_of_mem p hq)) qs
      (by rwa [hbytes])
    exact ⟨rs, by rw [List.foldl_cons, htext, hrs], hrsbytes.trans hbytes⟩

def escapes (c : UInt8) : Bool := c < 32 || c == 127 || c == 34 || c == 92

theorem escapable_classes : OfClasses escapable false ⟨escapes, []⟩ where
  free := by decide
  classes := by
    have hset : (fun c => singlematch c escapable []) = escapes := bytes_ext (by decide +kernel)
    rw [List.map_singleton, ← hset]
    rfl

theorem escape_piece {c : UInt8} (hc : escapes c = true)
    (hw : ∀ v, coded [c] = true → utf8value [c] = some v → Written format4x v) :
    ∃ p : Piece, escapeutf8 format4x [c] = p.text ∧ p.bytes = [c] := by
  by_cases hcoded : coded [c] = true
  · exact coded_piece hcoded fun v hv => hw v hcoded hv
  · have hshort : ∃ e : Escape, escapecodes [c] = some [92, e.chars.1] ∧ e.chars.2 = c := by
      have hall : ∀ n < 256, escapes (UInt8.ofNat n) = true → ¬coded [UInt8.ofNat n] = true →
          UInt8.ofNat n ∈ ([34, 92, 8, 12, 10, 13, 9] : Bytes) := by decide +kernel
      have hmem := hall c.toNat c.toNat_lt
      rw [UInt8.ofNat_toNat] at hmem
      have hc' := hmem hc hcoded
      simp only [List.mem_cons, List.not_mem_nil, or_false] at hc'
      obtain rfl | rfl | rfl | rfl | rfl | rfl | rfl := hc'
      · exact ⟨.quote, rfl, rfl⟩
      · exact ⟨.backslash, rfl, rfl⟩
      · exact ⟨.backspace, rfl, rfl⟩
      · exact ⟨.formFeed, rfl, rfl⟩
      · exact ⟨.lineFeed, rfl, rfl⟩
      · exact ⟨.carriageReturn, rfl, rfl⟩
      · exact ⟨.tab, rfl, rfl⟩
    obtain ⟨e, hcode, hchar⟩ := hshort
    refine ⟨.escape e, ?_, by rw [Piece.bytes, hchar]⟩
    rw [escapeutf8, hcode]
    rfl

theorem escaped_pieces (s : Bytes)
    (hw : ∀ w v, w <:+: s → coded w = true → utf8value w = some v → Written format4x v) :
    ∃ ps, (s.flatMap fun c => if escapes c then escapeutf8 format4x [c] else [c]) = textOf ps ∧
      stringBytes ps = s := by
  induction s with
  | nil => exact ⟨[], rfl, rfl⟩
  | cons c s ih =>
    obtain ⟨ps, htext, hbytes⟩ := ih fun w v hin =>
      hw w v (hin.trans (List.suffix_cons c s).isInfix)
    have hpiece : ∃ p : Piece,
        (if escapes c then escapeutf8 format4x [c] else [c]) = p.text ∧ p.bytes = [c] := by
      by_cases hc : escapes c = true
      · rw [if_pos hc]
        exact escape_piece hc fun v => hw [c] v (List.prefix_append [c] s).isInfix
      · have hplain : 32 ≤ c ∧ c ≠ 34 ∧ c ≠ 92 := by
          simp only [escapes, Bool.or_eq_true, decide_eq_true_eq, beq_iff_eq, not_or] at hc
          exact ⟨UInt8.not_lt.mp hc.1.1.1, hc.1.2, hc.2⟩
        exact ⟨.char c hplain, by rw [if_neg hc]; rfl, rfl⟩
    obtain ⟨p, hp, hpbytes⟩ := hpiece
    refine ⟨p :: ps, ?_, ?_⟩
    · rw [List.flatMap_cons, hp, htext]
      rfl
    · rw [stringBytes, List.flatMap_cons, hpbytes]
      exact congrArg (c :: ·) hbytes

theorem quotestring_text (s : Bytes)
    (hw : ∀ w v, w <:+: s → coded w = true → utf8value w = some v → Written format4x v) :
    ∃ ps, quotestring format4x s = stringText ps ∧ stringBytes ps = s := by
  obtain ⟨ps, htext, rfl⟩ := escaped_pieces s hw
  obtain ⟨qs, hqs, hbytes⟩ := fsub_all longer longer_patterns ps hw
  have hfirst : fsub (stringBytes ps) escapable (escapeutf8 format4x) = textOf ps := by
    rw [fsub_classes escapable_classes (by decide), gsub_class, htext]
  rw [quotestring, hfirst]
  cases find (textOf ps) leading 1 false with
  | none => exact ⟨ps, rfl, rfl⟩
  | some m => exact ⟨qs, by rw [hqs]; rfl, hbytes⟩

end Quoted

end Jiauliyan.DkjsonQuotes
