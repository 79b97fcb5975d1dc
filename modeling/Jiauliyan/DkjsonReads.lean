import Jiauliyan.DkjsonStrings
import Jiauliyan.LuaNumber

namespace Jiauliyan.DkjsonReads

open Jiauliyan.Framing (Bytes)
open Jiauliyan.Strtoul (isspace)
open Jiauliyan.JsonText hiding Bytes
open Jiauliyan.StringGsub (bytes_ext)
open Jiauliyan.Dkjson Jiauliyan.DkjsonFinds Jiauliyan.DkjsonStrings

variable {ν : Type} (N : Numbers ν) (nullval : Value ν)

def arrayTable : Entries ν → ℕ → List (Value ν) → Entries ν
  | tbl, _, [] => tbl
  | tbl, n, v :: vs => arrayTable (set N tbl (.number (N.ofNat (n + 1))) v) (n + 1) vs

def objectTable (tbl : Entries ν) (members : List (Bytes × Value ν)) : Entries ν :=
  members.foldl (fun tbl m => set N tbl (.string m.1) m.2) tbl

mutual

/-- The value of a text, if all its numbers can be read. -/
def value : Text → Option (Value ν)
  | .null => some nullval
  | .bool b => some (.bool b)
  | .number n => (N.tonumber n.text).map .number
  | .string s => some (.string (stringBytes s))
  | .emptyArray _ => some (.table [])
  | .array items => (elements items).map fun vs => .table (arrayTable N [] 0 vs)
  | .emptyObject _ => some (.table [])
  | .object ms => (members ms).map fun vs => .table (objectTable N [] vs)

def elements : Items → Option (List (Value ν))
  | .last _ t _ => (value t).map ([·])
  | .cons _ t _ more =>
    match value t, elements more with
    | some v, some vs => some (v :: vs)
    | _, _ => none

def members : Members → Option (List (Bytes × Value ν))
  | .last _ name _ _ t _ => (value t).map fun v => [(stringBytes name, v)]
  | .cons _ name _ _ t _ more =>
    match value t, members more with
    | some v, some vs => some ((stringBytes name, v) :: vs)
    | _, _ => none

end

/-- What may stand behind a text: nothing that could belong to it, and behind a number anything
at all. -/
def Ended (t : Text) (rest : Bytes) : Prop :=
  (∀ c ∈ rest.head?, follows c = true) ∧ ((∃ n, t = .number n) → rest ≠ [])

variable {str rest : Bytes} {pos fuel : ℕ} {c : UInt8}

def Stops (c : UInt8) : Prop := isspace c.toNat = false ∧ c ≠ 239

theorem ws_space (hc : isWs c = true) : isspace c.toNat = true := by
  have hall : (fun c => isWs c && !isspace c.toNat) = fun _ => false :=
    bytes_ext (by decide +kernel)
  have h := congrFun hall c
  simpa only [hc, Bool.true_and, Bool.not_eq_false'] using h

theorem white_at (w : Ws) (hc : Stops c) (h : At str pos (w.val ++ c :: rest)) :
    white str pos = some (some (pos + w.val.length)) := by
  have hw : ∀ d ∈ w.val, (!isspace d.toNat) = false := fun d hd => by
    rw [ws_space (w.property d hd)]
    rfl
  have hbom : Client.sub str (pos + w.val.length) (pos + w.val.length + 2) ≠ [239, 187, 191] := by
    rw [h.forward.sub, List.take_succ_cons]
    exact fun heq => hc.2 (List.cons.inj heq).1
  rw [white, scanwhite, nonspace_class.find_some h hw (by rw [hc.1]; rfl)]
  simp only [if_neg hbom]

def noWs : Ws := ⟨[], fun c hc => by cases hc⟩

theorem text_head (t : Text) : ∃ c r, t.text = c :: r ∧ Stops c ∧ c ≠ 93 ∧ c ≠ 125 := by
  have hdigit : ∀ d : Digit, Stops d.char ∧ d.char ≠ 93 ∧ d.char ≠ 125 := by
    unfold Stops
    decide
  cases t with
  | null => exact ⟨_, _, rfl, by unfold Stops; decide⟩
  | bool b => cases b <;> exact ⟨_, _, rfl, by unfold Stops; decide⟩
  | number n =>
    cases hn : n.negative with
    | true => exact ⟨45, _, by rw [Text.text, Number.text, hn]; rfl, by unfold Stops; decide⟩
    | false => exact ⟨n.first.char, _, by rw [Text.text, Number.text, hn]; rfl, hdigit n.first⟩
  | string s => exact ⟨_, _, rfl, by unfold Stops; decide⟩
  | emptyArray w => exact ⟨_, _, by rw [Text.text], by unfold Stops; decide⟩
  | array items => exact ⟨_, _, by rw [Text.text], by unfold Stops; decide⟩
  | emptyObject w => exact ⟨_, _, by rw [Text.text], by unfold Stops; decide⟩
  | object ms => exact ⟨_, _, by rw [Text.text], by unfold Stops; decide⟩

theorem scanvalue_at (w : Ws) (hc : Stops c) (h : At str pos (w.val ++ c :: rest)) :
    scanvalue N str nullval (fuel + 1) pos =
      if c = 123 then
        scantable N str (scanvalue N str nullval fuel) "object" 125 (pos + w.val.length)
      else if c = 91 then
        scantable N str (scanvalue N str nullval fuel) "array" 93 (pos + w.val.length)
      else if c = 34 then scanstring str (pos + w.val.length)
      else
        match numberAt N str (pos + w.val.length) with
        | some (x, pos) => some ⟨.number x, pos, none⟩
        | none =>
          match nameAt str nullval (pos + w.val.length) with
          | some (v, pos) => some ⟨v, pos, none⟩
          | none => (loc str (pos + w.val.length)).map fun l =>
              ⟨.nil, pos + w.val.length, some (.noValue l)⟩ := by
  generalize hr : scanvalue N str nullval (fuel + 1) pos = r
  rw [scanvalue, white_at w hc h] at hr
  simp only [h.forward.char, List.cons.injEq, and_true] at hr
  exact hr.symm

theorem scanvalue_string (w : Ws) (s : List Piece)
    (h : At str pos (w.val ++ (stringText s ++ rest))) :
    scanvalue N str nullval (fuel + 1) pos =
      some ⟨.string (stringBytes s), pos + w.val.length + (stringText s).length, none⟩ := by
  have hstops : Stops 34 := by
    unfold Stops
    decide
  have hat := scanstring_text (ν := ν) s h.forward
  rw [stringText, List.cons_append] at h
  rw [scanvalue_at N nullval w hstops h, if_neg (by decide), if_neg (by decide), if_pos rfl, hat]

theorem scanvalue_number (w : Ws) (n : Number) {x : ν} (hx : N.tonumber n.text = some x)
    (hc : follows c = true) (h : At str pos (w.val ++ (n.text ++ c :: rest))) :
    scanvalue N str nullval (fuel + 1) pos =
      some ⟨.number x, pos + w.val.length + n.text.length, none⟩ := by
  obtain ⟨d, r, htext, hstops, -⟩ := text_head (.number n)
  rw [Text.text] at htext
  have hfind := number_find n hc h.forward
  have hsub : Client.sub str (pos + w.val.length) (pos + w.val.length + n.text.length - 1) =
      n.text := h.forward.sub_forward (by rw [htext]; exact List.cons_ne_nil _ _)
  have hopen : d ≠ 123 ∧ d ≠ 91 ∧ d ≠ 34 := by
    have hdigit : ∀ d : Digit, d.char ≠ 123 ∧ d.char ≠ 91 ∧ d.char ≠ 34 := by decide
    rw [Number.text] at htext
    cases hn : n.negative with
    | true =>
      rw [hn] at htext
      rw [← (List.cons.inj htext).1]
      decide
    | false =>
      rw [hn] at htext
      rw [← (List.cons.inj htext).1]
      exact hdigit n.first
  have hnumber : numberAt N str (pos + w.val.length) =
      some (x, pos + w.val.length + n.text.length) := by
    rw [numberAt, hfind]
    simp only [hsub, hx, Option.map_some]
  rw [htext, List.cons_append] at h
  rw [scanvalue_at N nullval w hstops h, if_neg hopen.1, if_neg hopen.2.1, if_neg hopen.2.2,
    hnumber]

theorem scanvalue_name (w : Ws) {name : Bytes} {v : Value ν}
    (hname : name = [110, 117, 108, 108] ∧ v = nullval ∨
      name = [116, 114, 117, 101] ∧ v = .bool true ∨
      name = [102, 97, 108, 115, 101] ∧ v = .bool false)
    (hrest : ∀ c ∈ rest.head?, follows c = true) (h : At str pos (w.val ++ (name ++ rest))) :
    scanvalue N str nullval (fuel + 1) pos =
      some ⟨v, pos + w.val.length + name.length, none⟩ := by
  have halnum : ∀ d ∈ rest.head?, isalnum d = false := fun d hd =>
    (follows_plain (hrest d hd)).2.2.2.2
  -- the three names are read alike
  obtain ⟨d, r, rfl, hd, hstops, hminus, hdigit, hopen, hr⟩ : ∃ d r, name = d :: r ∧
      isalpha d = true ∧ Stops d ∧ d ≠ 45 ∧ mantissa d = false ∧ (d ≠ 123 ∧ d ≠ 91 ∧ d ≠ 34) ∧
        r.all isalnum = true := by
    unfold Stops
    obtain ⟨rfl, -⟩ | ⟨rfl, -⟩ | ⟨rfl, -⟩ := hname <;> exact ⟨_, _, rfl, by decide⟩
  have hat := h.forward
  have hnone : numberAt N str (pos + w.val.length) = none := by
    rw [numberAt, number_none hat]
    · intro c hc
      cases hc
      exact hminus
    · intro c hc
      cases hc
      exact hdigit
  have hsub : Client.sub str (pos + w.val.length) (pos + w.val.length + r.length) = d :: r := by
    rw [hat.sub, ← List.length_cons (a := d), List.take_left]
  have hvalue : nameAt str nullval (pos + w.val.length) =
      some (v, pos + w.val.length + r.length + 1) := by
    rw [List.cons_append] at hat
    rw [nameAt, name_find hat hd (List.all_eq_true.mp hr) halnum]
    simp only [hsub]
    obtain ⟨hn, rfl⟩ | ⟨hn, rfl⟩ | ⟨hn, rfl⟩ := hname <;> rw [hn] <;> rfl
  rw [List.cons_append] at h
  rw [scanvalue_at N nullval w hstops h, if_neg hopen.1, if_neg hopen.2.1, if_neg hopen.2.2,
    hnone, hvalue]
  rfl

section Rounds

variable {scan : ℕ → Option (Scan (Value ν))} {what : String} {closechar : UInt8}
  {startpos p n : ℕ} {tbl : Entries ν} {val1 : Value ν}

def past (c : UInt8) (pos : ℕ) : ℕ := if c = 44 then pos + 1 else pos

theorem past_comma : past 44 pos = pos + 1 := rfl

theorem past_other (hc : c ≠ 44) : past c pos = pos := if_neg hc

theorem tableRest_element (w : Ws) (hc : Stops c) (hcolon : c ≠ 58)
    (h : At str pos (w.val ++ c :: rest)) :
    tableRest N str scan what startpos val1 ⟨tbl, n, pos⟩ =
      some (.inr ⟨set N tbl (.number (N.ofNat (n + 1))) val1, n + 1,
        past c (pos + w.val.length)⟩) := by
  simp only [tableRest, white_at w hc h, h.forward.char, List.cons.injEq, and_true, if_neg hcolon,
    past]
  split_ifs <;> rfl

theorem tableRest_member (colon value behind : Ws) {val2 : Value ν} {d : UInt8} {r : Bytes}
    (hkey : val1.isNil = false) (hnan : val1.isNan N = false) (hd : Stops d) (hc : Stops c)
    (h : At str pos (colon.val ++ 58 :: (value.val ++ d :: r)))
    (hscan : scan (pos + colon.val.length + 1 + value.val.length) = some ⟨val2, p, none⟩)
    (hp : At str p (behind.val ++ c :: rest)) :
    tableRest N str scan what startpos val1 ⟨tbl, n, pos⟩ =
      some (.inr ⟨set N tbl val1 val2, n, past c (p + behind.val.length)⟩) := by
  have hcolon : Stops 58 := by
    unfold Stops
    decide
  have hnext : At str (pos + colon.val.length + 1) (value.val ++ d :: r) := h.forward.next
  simp only [tableRest, white_at colon hcolon h, h.forward.char, if_true, hkey, hnan, if_false,
    white_at value hd hnext, hscan, white_at behind hc hp, hp.forward.char, List.cons.injEq,
    and_true, past, Bool.false_eq_true]
  split_ifs <;> rfl

theorem tableLoop_close (w : Ws) (hc : Stops closechar) {rounds : ℕ}
    (h : At str pos (w.val ++ closechar :: rest)) :
    tableLoop N str scan what closechar startpos (rounds + 1) ⟨tbl, n, pos⟩ =
      some ⟨.table tbl, pos + w.val.length + 1, none⟩ := by
  rw [tableLoop]
  simp only [white_at w hc h, h.forward.char, if_true]

theorem tableLoop_round (before : Ws) {s : TableState ν} {rounds : ℕ} (hc : Stops c)
    (hne : c ≠ closechar) (h : At str pos (before.val ++ c :: rest))
    (hscan : scan (pos + before.val.length) = some ⟨val1, p, none⟩)
    (hrest : tableRest N str scan what startpos val1 ⟨tbl, n, p⟩ = some (.inr s)) :
    tableLoop N str scan what closechar startpos (rounds + 1) ⟨tbl, n, pos⟩ =
      tableLoop N str scan what closechar startpos rounds s := by
  rw [tableLoop]
  simp only [white_at before hc h, h.forward.char, List.cons.injEq, and_true, if_neg hne, hscan,
    hrest]

theorem tableLoop_element (before behind : Ws) (t : Text) {rounds : ℕ} (hc : Stops c)
    (hcolon : c ≠ 58) (hclose : closechar = 93 ∨ closechar = 125)
    (h : At str pos (before.val ++ (t.text ++ (behind.val ++ c :: rest))))
    (hscan : scan (pos + before.val.length) =
      some ⟨val1, pos + before.val.length + t.text.length, none⟩) :
    tableLoop N str scan what closechar startpos (rounds + 1) ⟨tbl, n, pos⟩ =
      tableLoop N str scan what closechar startpos rounds
        ⟨set N tbl (.number (N.ofNat (n + 1))) val1, n + 1,
          past c (pos + before.val.length + t.text.length + behind.val.length)⟩ := by
  obtain ⟨d, r, htext, hd, h93, h125⟩ := text_head t
  have hne : d ≠ closechar := by
    obtain rfl | rfl := hclose
    · exact h93
    · exact h125
  have hbehind := h.forward.forward
  rw [htext, List.cons_append] at h
  exact tableLoop_round N before hd hne h hscan (tableRest_element N behind hc hcolon hbehind)

theorem tableLoop_member (before colon value behind : Ws) (name : List Piece) (t : Text)
    {val2 : Value ν} {rounds : ℕ} (hc : Stops c)
    (hclose : closechar = 93 ∨ closechar = 125)
    (h : At str pos (before.val ++ (stringText name ++ (colon.val ++ 58 :: (value.val ++
      (t.text ++ (behind.val ++ c :: rest)))))))
    (hname : scan (pos + before.val.length) =
      some ⟨.string (stringBytes name), pos + before.val.length + (stringText name).length, none⟩)
    (hscan : scan (pos + before.val.length + (stringText name).length + colon.val.length + 1 +
      value.val.length) = some ⟨val2, pos + before.val.length + (stringText name).length +
        colon.val.length + 1 + value.val.length + t.text.length, none⟩) :
    tableLoop N str scan what closechar startpos (rounds + 1) ⟨tbl, n, pos⟩ =
      tableLoop N str scan what closechar startpos rounds
        ⟨set N tbl (.string (stringBytes name)) val2, n,
          past c (pos + before.val.length + (stringText name).length + colon.val.length + 1 +
            value.val.length + t.text.length + behind.val.length)⟩ := by
  obtain ⟨d, r, htext, hd, -⟩ := text_head t
  have hquote : Stops 34 := by
    unfold Stops
    decide
  have hne : (34 : UInt8) ≠ closechar := by
    obtain rfl | rfl := hclose <;> decide
  have hcolon := h.forward.forward
  have hbehind := hcolon.forward.next.forward.forward
  rw [htext, List.cons_append] at hcolon
  rw [stringText, List.cons_append] at h
  exact tableLoop_round N before hquote hne h hname
    (tableRest_member N colon value behind rfl rfl hd hc hcolon hscan hbehind)

end Rounds

theorem ended_inside (t : Text) (w : Ws) (hc : follows c = true) :
    Ended t (w.val ++ c :: rest) := by
  refine ⟨fun d hd => ?_, fun _ => by simp⟩
  obtain ⟨w, hw⟩ := w
  cases w with
  | nil =>
    cases hd
    exact hc
  | cons d w =>
    cases hd
    simp only [follows, hw d List.mem_cons_self, Bool.true_or]

theorem fuel_succ {t : Text} (hfuel : t.text.length ≤ fuel) : ∃ k, fuel = k + 1 := by
  obtain ⟨c, r, htext, -⟩ := text_head t
  rw [htext, List.length_cons] at hfuel
  exact ⟨fuel - 1, by omega⟩

theorem stops_marks : Stops 44 ∧ Stops 93 ∧ Stops 125 ∧ Stops 34 ∧ Stops 91 ∧ Stops 123 := by
  unfold Stops
  decide

mutual

theorem scanvalue_text (t : Text) {rest : Bytes} {pos fuel : ℕ} {v : Value ν} (w : Ws)
    (hv : value N nullval t = some v)
    (hfuel : t.text.length ≤ fuel) (hend : Ended t rest)
    (h : At str pos (w.val ++ (t.text ++ rest))) :
    scanvalue N str nullval fuel pos =
      some ⟨v, pos + w.val.length + t.text.length, none⟩ := by
  obtain ⟨k, rfl⟩ := fuel_succ hfuel
  obtain ⟨-, hclose, hcurly, -, hbracket, hbrace⟩ := stops_marks
  match t with
  | .null =>
    cases hv
    exact scanvalue_name N _ w (.inl ⟨rfl, rfl⟩) hend.1 h
  | .bool true =>
    cases hv
    exact scanvalue_name N nullval w (.inr (.inl ⟨rfl, rfl⟩)) hend.1 h
  | .bool false =>
    cases hv
    exact scanvalue_name N nullval w (.inr (.inr ⟨rfl, rfl⟩)) hend.1 h
  | .number m =>
    obtain ⟨c, r, rfl⟩ := List.exists_cons_of_ne_nil (hend.2 ⟨m, rfl⟩)
    obtain ⟨x, hx, rfl⟩ := Option.map_eq_some_iff.mp hv
    exact scanvalue_number N nullval w m hx (hend.1 c rfl) h
  | .string s =>
    cases hv
    exact scanvalue_string N nullval w s h
  | .emptyArray inner =>
    cases hv
    rw [Text.text, List.cons_append, List.append_assoc, List.singleton_append] at h
    rw [scanvalue_at N nullval w hbracket h, if_neg (by decide), if_pos rfl, scantable,
      tableLoop_close N inner hclose h.forward.next, Text.text, List.length_cons,
      List.length_append, List.length_singleton]
    congr 2
    omega
  | .array items =>
    obtain ⟨vs, hvs, rfl⟩ := Option.map_eq_some_iff.mp hv
    have hlen := h.length
    rw [Text.text, List.length_cons, List.length_append, List.length_singleton] at hfuel
    rw [Text.text, List.length_append, List.length_append, List.length_cons, List.length_append,
      List.length_singleton] at hlen
    rw [Text.text, List.cons_append, List.append_assoc, List.singleton_append] at h
    rw [scanvalue_at N nullval w hbracket h, if_neg (by decide), if_pos rfl, scantable,
      tableLoop_items items hvs (by omega) (by have := h.start; omega) h.forward.next, Text.text,
      List.length_cons, List.length_append, List.length_singleton]
    congr 2
    omega
  | .emptyObject inner =>
    cases hv
    rw [Text.text, List.cons_append, List.append_assoc, List.singleton_append] at h
    rw [scanvalue_at N nullval w hbrace h, if_pos rfl, scantable,
      tableLoop_close N inner hcurly h.forward.next, Text.text, List.length_cons,
      List.length_append, List.length_singleton]
    congr 2
    omega
  | .object ms =>
    obtain ⟨vs, hvs, rfl⟩ := Option.map_eq_some_iff.mp hv
    have hlen := h.length
    rw [Text.text, List.length_cons, List.length_append, List.length_singleton] at hfuel
    rw [Text.text, List.length_append, List.length_append, List.length_cons, List.length_append,
      List.length_singleton] at hlen
    rw [Text.text, List.cons_append, List.append_assoc, List.singleton_append] at h
    rw [scanvalue_at N nullval w hbrace h, if_pos rfl, scantable,
      tableLoop_members ms hvs (by omega) (by have := h.start; omega) h.forward.next, Text.text,
      List.length_cons, List.length_append, List.length_singleton]
    congr 2
    omega

theorem tableLoop_items (items : Items) {rest : Bytes} {pos fuel startpos rounds n : ℕ}
    {tbl : Entries ν} {vs : List (Value ν)}
    (hv : elements N nullval items = some vs) (hfuel : items.text.length ≤ fuel)
    (hrounds : items.text.length < rounds) (h : At str pos (items.text ++ 93 :: rest)) :
    tableLoop N str (scanvalue N str nullval fuel) "array" 93 startpos rounds ⟨tbl, n, pos⟩ =
      some ⟨.table (arrayTable N tbl n vs), pos + items.text.length + 1, none⟩ := by
  obtain ⟨hcomma, hclose, -⟩ := stops_marks
  obtain ⟨rounds, rfl⟩ := Nat.exists_eq_add_one_of_ne_zero (Nat.ne_zero_of_lt hrounds)
  match items with
  | .last before t behind =>
    obtain ⟨v, ht, rfl⟩ := Option.map_eq_some_iff.mp hv
    simp only [Items.text, List.length_append] at hfuel hrounds
    rw [Items.text, List.append_assoc, List.append_assoc] at h
    obtain ⟨more, rfl⟩ : ∃ k, rounds = k + 1 := fuel_succ (t := t) (by omega)
    have hscan : scanvalue N str nullval fuel (pos + before.val.length) =
        some ⟨v, pos + before.val.length + t.text.length, none⟩ :=
      scanvalue_text t noWs ht (by omega) (ended_inside t behind rfl) h.forward
    rw [tableLoop_element N before behind t hclose (by decide) (.inl rfl) h hscan,
      past_other (by decide), tableLoop_close N noWs hclose h.forward.forward.forward]
    simp only [Items.text, List.length_append, arrayTable, Nat.add_assoc]
    rfl
  | .cons before t behind more =>
    obtain ⟨v, ws, ht, hws, rfl⟩ : ∃ v ws, value N nullval t = some v ∧
        elements N nullval more = some ws ∧ vs = v :: ws := by
      rw [elements] at hv
      split at hv <;> cases hv
      exact ⟨_, _, ‹_›, ‹_›, rfl⟩
    simp only [Items.text, List.length_append, List.length_cons] at hfuel hrounds
    simp only [Items.text, List.append_assoc, List.cons_append] at h
    have hscan : scanvalue N str nullval fuel (pos + before.val.length) =
        some ⟨v, pos + before.val.length + t.text.length, none⟩ :=
      scanvalue_text t noWs ht (by omega) (ended_inside t behind rfl) h.forward
    rw [tableLoop_element N before behind t hcomma (by decide) (.inl rfl) h hscan, past_comma,
      tableLoop_items more hws ?_ ?_ h.forward.forward.forward.next]
    · simp only [Items.text, List.length_append, List.length_cons, arrayTable]
      congr 2
      omega
    · omega
    · omega

theorem tableLoop_members (ms : Members) {rest : Bytes} {pos fuel startpos rounds n : ℕ}
    {tbl : Entries ν} {vs : List (Bytes × Value ν)}
    (hv : members N nullval ms = some vs) (hfuel : ms.text.length ≤ fuel)
    (hrounds : ms.text.length < rounds) (h : At str pos (ms.text ++ 125 :: rest)) :
    tableLoop N str (scanvalue N str nullval fuel) "object" 125 startpos rounds ⟨tbl, n, pos⟩ =
      some ⟨.table (objectTable N tbl vs), pos + ms.text.length + 1, none⟩ := by
  obtain ⟨hcomma, -, hclose, -⟩ := stops_marks
  obtain ⟨rounds, rfl⟩ := Nat.exists_eq_add_one_of_ne_zero (Nat.ne_zero_of_lt hrounds)
  match ms with
  | .last before name colon value' t behind =>
    obtain ⟨v, ht, rfl⟩ := Option.map_eq_some_iff.mp hv
    simp only [Members.text, List.length_append, List.length_cons] at hfuel hrounds
    simp only [Members.text, List.append_assoc, List.cons_append] at h
    obtain ⟨more, rfl⟩ : ∃ k, rounds = k + 1 := fuel_succ (t := t) (by omega)
    obtain ⟨k, rfl⟩ : ∃ k, fuel = k + 1 := fuel_succ (t := t) (by omega)
    have hat := h.forward.forward.forward.next.forward
    have hname : scanvalue N str nullval (k + 1) (pos + before.val.length) = some
        ⟨.string (stringBytes name), pos + before.val.length + (stringText name).length, none⟩ :=
      scanvalue_string N nullval noWs name h.forward
    have hscan := scanvalue_text t noWs ht (by omega : _ ≤ k + 1) (ended_inside t behind rfl) hat
    rw [tableLoop_member N before colon value' behind name t hclose (.inr rfl) h hname hscan,
      past_other (by decide), tableLoop_close N noWs hclose hat.forward.forward]
    simp only [Members.text, List.length_append, List.length_cons, objectTable, List.foldl_cons,
      List.foldl_nil]
    congr 2
    show _ + 0 + 1 = _
    omega
  | .cons before name colon value' t behind more =>
    obtain ⟨v, ws, ht, hws, rfl⟩ : ∃ v ws, value N nullval t = some v ∧
        members N nullval more = some ws ∧ vs = (stringBytes name, v) :: ws := by
      rw [members] at hv
      split at hv <;> cases hv
      exact ⟨_, _, ‹_›, ‹_›, rfl⟩
    simp only [Members.text, List.length_append, List.length_cons] at hfuel hrounds
    simp only [Members.text, List.append_assoc, List.cons_append] at h
    obtain ⟨k, rfl⟩ : ∃ k, fuel = k + 1 := fuel_succ (t := t) (by omega)
    have hat := h.forward.forward.forward.next.forward
    have hname : scanvalue N str nullval (k + 1) (pos + before.val.length) = some
        ⟨.string (stringBytes name), pos + before.val.length + (stringText name).length, none⟩ :=
      scanvalue_string N nullval noWs name h.forward
    have hscan := scanvalue_text t noWs ht (by omega : _ ≤ k + 1) (ended_inside t behind rfl) hat
    rw [tableLoop_member N before colon value' behind name t hcomma (.inr rfl) h hname hscan,
      past_comma, tableLoop_members more hws ?_ ?_ hat.forward.forward.next]
    · simp only [Members.text, List.length_append, List.length_cons, objectTable, List.foldl_cons]
      congr 2
      omega
    · omega
    · omega

end

mutual

def numbers : Text → List Number
  | .number n => [n]
  | .array items => itemNumbers items
  | .object ms => memberNumbers ms
  | _ => []

def itemNumbers : Items → List Number
  | .last _ t _ => numbers t
  | .cons _ t _ more => numbers t ++ itemNumbers more

def memberNumbers : Members → List Number
  | .last _ _ _ _ t _ => numbers t
  | .cons _ _ _ _ t _ more => numbers t ++ memberNumbers more

end

mutual

theorem value_some (t : Text) (h : ∀ n ∈ numbers t, ∃ x, N.tonumber n.text = some x) :
    ∃ v, value N nullval t = some v := by
  match t with
  | .null | .bool b | .string s | .emptyArray w | .emptyObject w => exact ⟨_, rfl⟩
  | .number n =>
    obtain ⟨x, hx⟩ := h n (List.mem_singleton.mpr rfl)
    exact ⟨.number x, by rw [value, hx, Option.map_some]⟩
  | .array items =>
    obtain ⟨vs, hvs⟩ := elements_some items h
    exact ⟨_, by rw [value, hvs, Option.map_some]⟩
  | .object ms =>
    obtain ⟨vs, hvs⟩ := members_some ms h
    exact ⟨_, by rw [value, hvs, Option.map_some]⟩

theorem elements_some (items : Items)
    (h : ∀ n ∈ itemNumbers items, ∃ x, N.tonumber n.text = some x) :
    ∃ vs, elements N nullval items = some vs := by
  match items with
  | .last _ t _ =>
    obtain ⟨v, hv⟩ := value_some t h
    exact ⟨[v], by rw [elements, hv, Option.map_some]⟩
  | .cons _ t _ more =>
    obtain ⟨v, hv⟩ := value_some t fun n hn => h n (List.mem_append_left _ hn)
    obtain ⟨vs, hvs⟩ := elements_some more fun n hn => h n (List.mem_append_right _ hn)
    exact ⟨v :: vs, by rw [elements, hv, hvs]⟩

theorem members_some (ms : Members)
    (h : ∀ n ∈ memberNumbers ms, ∃ x, N.tonumber n.text = some x) :
    ∃ vs, members N nullval ms = some vs := by
  match ms with
  | .last _ name _ _ t _ =>
    obtain ⟨v, hv⟩ := value_some t h
    exact ⟨[(stringBytes name, v)], by rw [members, hv, Option.map_some]⟩
  | .cons _ name _ _ t _ more =>
    obtain ⟨v, hv⟩ := value_some t fun n hn => h n (List.mem_append_left _ hn)
    obtain ⟨vs, hvs⟩ := members_some more fun n hn => h n (List.mem_append_right _ hn)
    exact ⟨(stringBytes name, v) :: vs, by rw [members, hv, hvs]⟩

end

theorem decode_at {t : Text} {v : Value ν} (front : Bytes) (w : Ws)
    (hv : value N nullval t = some v) (hend : Ended t rest) :
    decode N (front ++ (w.val ++ (t.text ++ rest))) (front.length + 1) nullval =
      some ⟨v, front.length + 1 + w.val.length + t.text.length, none⟩ := by
  have hat : At (front ++ (w.val ++ (t.text ++ rest))) (front.length + 1)
      (w.val ++ (t.text ++ rest)) := by
    refine ⟨Nat.le_add_left 1 _, ?_, ?_⟩
    · rw [List.length_append]
      omega
    · rw [Nat.add_sub_cancel, List.drop_left]
  refine scanvalue_text N nullval t w hv ?_ hend hat
  simp only [List.length_append]
  omega

section Doubles

variable (uninit : ℕ) (tostring : FloatingPoint.Number → Bytes)
  (nullval : Value FloatingPoint.Number)

/-- `decode` reads every text of JSON in a string, if its exponents are in the range of a double.
A number has to have something behind it. -/
theorem decode_text {t : Text} (hnumbers : ∀ n ∈ numbers t, LuaNumber.InRange n)
    (hend : Ended t rest) (front : Bytes) (w : Ws) :
    ∃ v, value (LuaNumber.luaNumbers uninit tostring) nullval t = some v ∧
      decode (LuaNumber.luaNumbers uninit tostring) (front ++ (w.val ++ (t.text ++ rest)))
          (front.length + 1) nullval =
        some ⟨v, front.length + 1 + w.val.length + t.text.length, none⟩ := by
  obtain ⟨v, hv⟩ := value_some (LuaNumber.luaNumbers uninit tostring) nullval t
    fun n hn => ⟨_, LuaNumber.tonumber_text (hnumbers n hn) uninit tostring⟩
  have hread := decode_at (LuaNumber.luaNumbers uninit tostring) nullval front w hv hend
  exact ⟨v, hv, hread⟩

def fifteen : Text :=
  .array (.last noWs (.number ⟨true, 1, [], [5], some ⟨false, .none, 3, []⟩, by decide⟩) noWs)

theorem fifteen_decodes : ∃ v, value (LuaNumber.luaNumbers 0 fun _ => []) .nil fifteen = some v ∧
    decode (LuaNumber.luaNumbers 0 fun _ => []) ([32] ++ (noWs.val ++ (fifteen.text ++ [])))
        (([32] : Bytes).length + 1) .nil =
      some ⟨v, ([32] : Bytes).length + 1 + noWs.val.length + fifteen.text.length, none⟩ :=
  have hend : Ended fifteen [] := ⟨fun c hc => (by cases hc), fun ⟨n, hn⟩ => by
    rw [fifteen] at hn
    cases hn⟩
  decode_text 0 (fun _ => []) .nil (by decide +kernel) hend [32] noWs

end Doubles

end Jiauliyan.DkjsonReads
