import Jiauliyan.DkjsonFinds
import Jiauliyan.LuaNumber

namespace Jiauliyan.DkjsonEnds

open Jiauliyan.Framing (Bytes)
open Jiauliyan.PatternMeaning Jiauliyan.StringFind
open Jiauliyan.Dkjson Jiauliyan.DkjsonFinds

variable {ν : Type} {str p : Bytes} {pos : ℕ} {m : Found}

theorem initOf_pos (hpos : 1 ≤ pos) (l : ℕ) : initOf pos l = min (pos - 1) l := by
  rw [initOf, posrelat, if_pos (by omega)]
  congr 1
  omega

theorem find_leftmost (hp : special p = true) (h : find str p pos false = some m) :
    ∃ k e ms, Leftmost str (unanchored p) (anchored p) (initOf pos str.length) k ∧
      .ok (e, ms) ∈ outcomes str (unanchored p) k ∧ m.first = k + 1 ∧ m.last = e := by
  have hif : ¬(false = true ∨ ¬special p = true) := by simp [hp]
  rw [find, strFind, if_neg hif, patternFind, search] at h
  obtain ⟨hnone, -⟩ | ⟨k, hk, hsome⟩ := searchFrom_leftmost str (unanchored p) (anchored p)
    (Nat.add_sub_cancel' (initOf_le pos str.length))
  · rw [hnone] at h
    cases h
  · rw [hsome] at h
    cases hos : outcomes str (unanchored p) k with
    | nil => exact absurd hos hk.outcome
    | cons o os =>
      rw [hos] at h
      obtain e | ⟨e, ms⟩ := o
      · cases h
      · refine ⟨k, e, ms, hk, by rw [hos]; exact List.mem_cons_self, ?_⟩
        simp only [matchOf] at h
        cases hc : pushCaptures str ⟨k, e, ms⟩ false with
        | error msg =>
          rw [hc] at h
          cases h
        | ok captures =>
          rw [hc] at h
          cases h
          exact ⟨rfl, rfl⟩

theorem class_within {accepts : UInt8 → Bool} (hp : OneClass p accepts) (hpos : 1 ≤ pos)
    (h : find str p pos false = some m) : pos ≤ m.first ∧ m.first ≤ str.length := by
  obtain ⟨k, e, ms, hk, hout, hfirst, -⟩ := find_leftmost hp.searched h
  have hstart := hk.from_init
  rw [initOf_pos hpos] at hstart
  have hlt : k < str.length := by
    by_contra hge
    rw [hp.outcomes, List.drop_eq_nil_of_le (not_lt.mp hge)] at hout
    cases hout
  omega

theorem newline_within (hpos : 1 ≤ pos) (h : find str [10] pos true = some m) :
    pos ≤ m.first ∧ m.first ≤ str.length := by
  have hinit := initOf_pos hpos str.length
  rw [find, strFind, if_pos (.inl rfl), plainFind] at h
  obtain ⟨hnone, -⟩ | ⟨k, hk, hplace⟩ := lmemfind_ascii (by decide : ([10] : Bytes).headD 0 < 128)
    (str.drop (initOf pos str.length))
  · rw [hnone] at h
    cases h
  · rw [hk] at h
    have hfirst : initOf pos str.length + k + 1 = m.first :=
      congrArg Found.first (Option.some.inj h)
    have hlen := prefix_length hplace.1
    rw [List.length_drop] at hlen
    simp only [List.length_nil] at hlen
    omega

def least : Item → ℕ
  | .single _ .once => 1
  | .single _ .greedyOne => 1
  | _ => 0

theorem step_least {item : Item} {c d : Config} (hitem : item.Proper) (hc : Placed str c)
    (h : .ok d ∈ step str item c) : c.1 + least item ≤ d.1 := by
  have hforward := (step_placed hitem hc h).2
  obtain ⟨s, ms⟩ := c
  match item with
  | .single accepts .once =>
    rw [step, repeated] at h
    split_ifs at h with ha
    · rw [List.map_singleton, List.mem_singleton] at h
      cases h
      exact le_rfl
    · cases h
  | .single accepts .greedyOne =>
    rw [step, repeated] at h
    split_ifs at h with ha
    · obtain ⟨t, ht, heq⟩ := List.mem_map.mp h
      cases heq
      obtain ⟨i, -, rfl⟩ := List.mem_map.mp ht
      exact Nat.le_add_right (s + 1) i
    · cases h
  | .single accepts .optional | .single accepts .greedy | .single accepts .lazy
  | .startCapture _ | .endCapture | .balance _ _ | .frontier _ | .capture _ | .atEnd
  | .malformed _ => exact hforward

theorem meaning_least {is : List Item} {c d : Config} (his : ∀ item ∈ is, item.Proper)
    (hc : Placed str c) (h : .ok d ∈ meaning str is c) : c.1 + (is.map least).sum ≤ d.1 := by
  induction is generalizing c with
  | nil =>
    cases List.mem_singleton.mp h
    exact le_rfl
  | cons item is ih =>
    obtain ⟨o, ho, hd⟩ := List.mem_flatMap.mp h
    obtain e | c' := o
    · cases List.mem_singleton.mp hd
    · have hitem := his item List.mem_cons_self
      have hstep := step_least hitem hc ho
      have hrest := ih (fun i hi => his i (List.mem_cons_of_mem item hi))
        (step_placed hitem hc ho).1 hd
      rw [List.map_cons, List.sum_cons]
      omega

theorem anchored_within (hp : special p = true) (ha : anchored p = true) (hpos : 1 ≤ pos)
    (hle : pos ≤ str.length) (h : find str p pos false = some m) :
    m.first = pos ∧ pos - 1 + ((items (unanchored p)).map least).sum ≤ m.last ∧
      m.last ≤ str.length := by
  obtain ⟨k, e, ms, hk, hout, hfirst, rfl⟩ := find_leftmost hp h
  have hstart : k = pos - 1 := by
    rw [hk.at_anchor ha, initOf_pos hpos, Nat.min_eq_left (by omega)]
  have hleast := meaning_least (itemsOf_proper _ _) (Placed.start hk.inside) hout
  have hplaced := (outcomes_placed hk.inside hout).1.inside
  rw [hstart] at hleast hfirst
  exact ⟨by omega, hleast, hplaced⟩

theorem locLoop_ends (place : ℕ) {fuel line linepos : ℕ} (hpos : 1 ≤ pos)
    (hle : pos ≤ str.length + 1) (hfuel : str.length + 1 < fuel + pos) :
    ∃ l, locLoop str place fuel line pos linepos = some l := by
  induction fuel generalizing pos line linepos with
  | zero => omega
  | succ fuel ih =>
    rw [locLoop]
    split
    · rename_i m hm
      obtain ⟨hfirst, hlast⟩ := newline_within hpos hm
      split_ifs
      · exact ih (by omega) (by omega) (by omega)
      · exact ⟨_, rfl⟩
    · exact ⟨_, rfl⟩

theorem loc_ends (str : Bytes) (place : ℕ) : ∃ l, loc str place = some l :=
  locLoop_ends place le_rfl (Nat.le_add_left 1 _) (Nat.lt_succ_self _)

theorem scanwhite_ends {fuel : ℕ} (hpos : 1 ≤ pos) (h0 : 0 < fuel)
    (hfuel : str.length + 1 < fuel + pos) :
    ∃ r, scanwhite str fuel pos = some r ∧ ∀ p ∈ r, pos ≤ p ∧ p ≤ str.length := by
  induction fuel generalizing pos with
  | zero => omega
  | succ fuel ih =>
    rw [scanwhite]
    split
    · exact ⟨none, rfl, fun p hp => by cases hp⟩
    · rename_i m hm
      obtain ⟨hfirst, hlast⟩ := class_within nonspace_class hpos hm
      split_ifs
      · obtain ⟨r, hr, hin⟩ := ih (by omega : 1 ≤ m.first + 3) (by omega) (by omega)
        exact ⟨r, hr, fun p hp => ⟨le_trans (by omega) (hin p hp).1, (hin p hp).2⟩⟩
      · refine ⟨_, rfl, fun p hp => ?_⟩
        cases hp
        exact ⟨hfirst, hlast⟩

theorem white_ends (str : Bytes) (hpos : 1 ≤ pos) :
    ∃ r, white str pos = some r ∧ ∀ p ∈ r, pos ≤ p ∧ p ≤ str.length :=
  scanwhite_ends hpos (Nat.succ_pos _) (by omega)

def Done (str : Bytes) (pos : ℕ) (r : Option (Scan (Value ν))) : Prop :=
  ∃ s, r = some s ∧ (s.err = none → pos < s.pos ∧ s.pos ≤ str.length + 1)

theorem unterminated_done (v : Value ν) (what : String) (place : ℕ) :
    Done str pos (unterminated v str what place) := by
  obtain ⟨l, hl⟩ := loc_ends str place
  exact ⟨_, by rw [unterminated, hl, Option.map_some], fun h => by cases h⟩

theorem escapeAt_forward (nextpos : ℕ) : nextpos + 2 ≤ (escapeAt str nextpos).2 := by
  rw [escapeAt]
  split
  · rename_i r hr
    split_ifs at hr
    rw [unicodeEscape] at hr
    split at hr
    · cases hr
    · split at hr <;> obtain ⟨_, -, rfl⟩ := Option.map_eq_some_iff.mp hr <;>
        exact Nat.add_le_add_left (by decide) _
  · exact le_rfl

theorem stringLoop_done (start : ℕ) {fuel lastpos : ℕ} {buffer : Bytes} (hstart : pos < lastpos)
    (h0 : 0 < fuel) (hfuel : str.length + 1 < fuel + lastpos) :
    Done (ν := ν) str pos (stringLoop str start fuel lastpos buffer) := by
  induction fuel generalizing lastpos buffer with
  | zero => omega
  | succ fuel ih =>
    rw [stringLoop]
    split
    · exact unterminated_done _ _ _
    · rename_i m hm
      obtain ⟨hfirst, hlast⟩ := class_within quote_class (by omega) hm
      dsimp only
      by_cases hquote : Client.sub str m.first m.first = [34]
      · rw [if_pos hquote]
        exact ⟨_, rfl, fun _ =>
          ⟨Nat.lt_succ_of_lt (hstart.trans_le hfirst), Nat.succ_le_succ hlast⟩⟩
      · rw [if_neg hquote]
        have hforward : m.first + 2 ≤ (escapeAt str m.first).2 := escapeAt_forward m.first
        exact ih (by omega) (by omega) (by omega)

theorem scanstring_done (hpos : 1 ≤ pos) : Done (ν := ν) str pos (scanstring str pos) :=
  stringLoop_done pos (Nat.lt_succ_self pos) (Nat.succ_pos _) (by omega)

section Values

variable (N : Numbers ν) (nullval : Value ν)

def DoneFrom (str : Bytes) (low : ℕ) (scan : ℕ → Option (Scan (Value ν))) : Prop :=
  ∀ p, low ≤ p → p ≤ str.length → Done str p (scan p)

variable {scan : ℕ → Option (Scan (Value ν))} {what : String} {low startpos : ℕ}
  {s : TableState ν}

theorem tableRest_done (what : String) (startpos : ℕ) (val1 : Value ν)
    (hscan : DoneFrom str low scan) (hlow : 1 ≤ low)
    (hs : low ≤ s.pos) :
    (∃ r, tableRest N str scan what startpos val1 s = some (.inl r) ∧ r.err ≠ none) ∨
      ∃ s', tableRest N str scan what startpos val1 s = some (.inr s') ∧ s.pos ≤ s'.pos ∧
        s'.pos ≤ str.length + 1 := by
  have herror : ∀ {o}, o = (unterminated (.nil : Value ν) str what startpos).map .inl →
      ∃ r, o = some (.inl r : Scan (Value ν) ⊕ TableState ν) ∧ r.err ≠ none := by
    rintro o rfl
    obtain ⟨l, hl⟩ := loc_ends str startpos
    exact ⟨_, by rw [unterminated, hl]; rfl, fun h => by cases h⟩
  -- the state for the next round, behind a comma or in front of what else there is
  have hnext : ∀ (c : Bytes) (t : TableState ν), s.pos ≤ t.pos → t.pos ≤ str.length →
      ∃ s', (some (.inr (if c = [44] then { t with pos := t.pos + 1 } else t)) :
        Option (Scan (Value ν) ⊕ TableState ν)) = some (.inr s') ∧ s.pos ≤ s'.pos ∧
          s'.pos ≤ str.length + 1 := by
    intro c t ht hle
    refine ⟨_, rfl, ?_⟩
    split_ifs
    · exact ⟨Nat.le_succ_of_le ht, Nat.succ_le_succ hle⟩
    · exact ⟨ht, Nat.le_succ_of_le hle⟩
  obtain ⟨r, hr, hin⟩ := white_ends str (by omega : 1 ≤ s.pos)
  unfold tableRest
  dsimp only
  rw [hr]
  cases r with
  | none => exact .inl (herror rfl)
  | some p =>
    obtain ⟨hp, hple⟩ := hin p rfl
    dsimp only
    by_cases hcolon : Client.sub str p p = [58]
    · rw [if_pos hcolon]
      cases hkey : val1.isNil with
      | true =>
        obtain ⟨l, hl⟩ := loc_ends str p
        rw [if_pos rfl, hl]
        exact .inl ⟨_, rfl, fun h => by cases h⟩
      | false =>
        obtain ⟨r2, hr2, hin2⟩ := white_ends str (by omega : 1 ≤ p + 1)
        rw [if_neg Bool.false_ne_true, hr2]
        cases r2 with
        | none => exact .inl (herror rfl)
        | some p2 =>
          obtain ⟨hp2, hple2⟩ := hin2 p2 rfl
          obtain ⟨⟨val2, p3, err⟩, hv, hdone⟩ := hscan p2 (by omega) hple2
          dsimp only
          rw [hv]
          cases err with
          | some e => exact .inl ⟨_, rfl, fun h => by cases h⟩
          | none =>
            obtain ⟨hp3, hple3⟩ := hdone rfl
            dsimp only at hp3 hple3 ⊢
            by_cases hnan : val1.isNan N = true
            · rw [if_pos hnan]
              exact .inl ⟨_, rfl, fun h => by cases h⟩
            rw [if_neg hnan]
            obtain ⟨r4, hr4, hin4⟩ := white_ends str (by omega : 1 ≤ p3)
            rw [hr4]
            cases r4 with
            | none => exact .inl (herror rfl)
            | some p4 =>
              obtain ⟨hp4, hple4⟩ := hin4 p4 rfl
              exact .inr (hnext _ _ (by show s.pos ≤ p4; omega) hple4)
    · rw [if_neg hcolon]
      exact .inr (hnext _ _ hp hple)

theorem tableLoop_done {closechar : UInt8} {rounds : ℕ} (hscan : DoneFrom str low scan)
    (hlow : pos < low) (hs : low ≤ s.pos) (hle : s.pos ≤ str.length + 1)
    (hrounds : str.length + 1 < rounds + s.pos) :
    Done str pos (tableLoop N str scan what closechar startpos rounds s) := by
  induction rounds generalizing s with
  | zero => omega
  | succ rounds ih =>
    obtain ⟨r, hr, hin⟩ := white_ends str (by omega : 1 ≤ s.pos)
    rw [tableLoop, hr]
    cases r with
    | none => exact unterminated_done _ _ _
    | some p =>
      obtain ⟨hp, hple⟩ := hin p rfl
      dsimp only
      by_cases hclose : Client.sub str p p = [closechar]
      · rw [if_pos hclose]
        exact ⟨_, rfl, fun _ => ⟨by show pos < p + 1; omega, Nat.succ_le_succ hple⟩⟩
      · obtain ⟨⟨val1, p2, err⟩, hv, hdone⟩ := hscan p (by omega) hple
        rw [if_neg hclose, hv]
        cases err with
        | some e => exact ⟨_, rfl, fun h => by cases h⟩
        | none =>
          obtain ⟨hp2, hple2⟩ := hdone rfl
          dsimp only at hp2 hple2 ⊢
          obtain ⟨r, hrest, herr⟩ | ⟨s', hrest, hs', hle'⟩ := tableRest_done N what startpos val1
            hscan (by omega) (show low ≤ ({ s with pos := p2 } : TableState ν).pos by
              show low ≤ p2
              omega)
          · rw [hrest]
            exact ⟨r, rfl, fun h => absurd h herr⟩
          · have hforward : p2 ≤ s'.pos := hs'
            rw [hrest]
            exact ih (by omega) hle' (by omega)

theorem scantable_done {closechar : UInt8} (hscan : DoneFrom str (pos + 1) scan)
    (hle : pos ≤ str.length) :
    Done str pos (scantable N str scan what closechar pos) :=
  tableLoop_done N hscan (Nat.lt_succ_self pos) le_rfl (Nat.succ_le_succ hle)
    (by show _ < str.length + 1 + (pos + 1); omega)

variable {N} in
theorem numberAt_within {x : ν} {q : ℕ} (hpos : 1 ≤ pos) (hle : pos ≤ str.length)
    (h : numberAt N str pos = some (x, q)) : pos < q ∧ q ≤ str.length := by
  rw [numberAt] at h
  cases hm : find str numberPattern pos false with
  | none =>
    rw [hm] at h
    cases h
  | some m =>
    obtain ⟨-, hlow, hhigh⟩ := anchored_within (by decide) (by decide) hpos hle hm
    rw [numberPattern_items] at hlow
    rw [hm] at h
    obtain ⟨y, -, heq⟩ := Option.map_eq_some_iff.mp h
    cases heq
    have hsum : pos - 1 + 2 ≤ m.last := hlow
    omega

variable {nullval} in
theorem nameAt_within {v : Value ν} {q : ℕ} (hpos : 1 ≤ pos) (hle : pos ≤ str.length)
    (h : nameAt str nullval pos = some (v, q)) : pos < q ∧ q ≤ str.length + 1 := by
  rw [nameAt] at h
  cases hm : find str namePattern pos false with
  | none =>
    rw [hm] at h
    cases h
  | some m =>
    obtain ⟨-, hlow, hhigh⟩ := anchored_within (by decide) (by decide) hpos hle hm
    rw [namePattern_items] at hlow
    have hsum : pos - 1 + 1 ≤ m.last := hlow
    rw [hm] at h
    dsimp only at h
    split_ifs at h <;> cases h <;> omega

theorem scanvalue_done {fuel : ℕ} (hpos : 1 ≤ pos) (h0 : 0 < fuel)
    (hfuel : str.length < fuel + pos) : Done str pos (scanvalue N str nullval fuel pos) := by
  induction fuel generalizing pos with
  | zero => omega
  | succ fuel ih =>
    obtain ⟨r, hr, hin⟩ := white_ends str hpos
    rw [scanvalue, hr]
    cases r with
    | none => exact ⟨_, rfl, fun h => by cases h⟩
    | some p =>
      obtain ⟨hp, hple⟩ := hin p rfl
      have hnested : DoneFrom str (p + 1) (scanvalue N str nullval fuel) :=
        fun q hq hqle => ih (by omega) (by omega) (by omega)
      have hlater : ∀ {o : Option (Scan (Value ν))}, Done str p o → Done str pos o := by
        rintro _ ⟨s, rfl, hs⟩
        exact ⟨s, rfl, fun herr => ⟨hp.trans_lt (hs herr).1, (hs herr).2⟩⟩
      apply hlater
      dsimp only
      split_ifs
      · exact scantable_done N hnested hple
      · exact scantable_done N hnested hple
      · exact scanstring_done (by omega)
      · split
        · rename_i x q hq
          obtain ⟨hlow, hhigh⟩ := numberAt_within (hpos.trans hp) hple hq
          exact ⟨_, rfl, fun _ => ⟨hlow, Nat.le_succ_of_le hhigh⟩⟩
        · split
          · rename_i v q hq
            exact ⟨_, rfl, fun _ => nameAt_within (hpos.trans hp) hple hq⟩
          · obtain ⟨l, hl⟩ := loc_ends str p
            rw [hl]
            exact ⟨_, rfl, fun h => by cases h⟩

/-- `decode` comes to an end on every string of bytes. A value that it yields ends behind the place
where the search for it began, and no later than the string. -/
theorem decode_done (str : Bytes) (hpos : 1 ≤ pos) :
    ∃ r, decode N str pos nullval = some r ∧
      (r.err = none → pos < r.pos ∧ r.pos ≤ str.length + 1) :=
  scanvalue_done N nullval hpos (Nat.succ_pos _) (by omega)

theorem open_string_done :
    ∃ r, decode (LuaNumber.luaNumbers 0 fun _ => []) [91, 34, 92, 117, 49, 50] 1 .nil = some r ∧
      (r.err = none → 1 < r.pos ∧ r.pos ≤ ([91, 34, 92, 117, 49, 50] : Bytes).length + 1) :=
  decode_done (LuaNumber.luaNumbers 0 fun _ => []) .nil [91, 34, 92, 117, 49, 50] le_rfl

end Values

end Jiauliyan.DkjsonEnds
