import Jiauliyan.StringSearch

namespace Jiauliyan.Tokens

open Jiauliyan.StringCompare Jiauliyan.StringSearch Jiauliyan.Runs

/-- The array that holds the string, and the pointer that is kept between the calls. -/
structure Tok where
  buf : Chars
  last : Option ℕ

def skipFrom (delim : Chars) : Chars → ℕ → Option (UInt8 × ℕ)
  | [], _ => none
  | c :: p, s =>
    (found c delim).bind fun b => if b then skipFrom delim p (s + 1) else some (c, s + 1)

def scanFrom (delim : Chars) : Chars → ℕ → Option (UInt8 × ℕ)
  | [], _ => none
  | c :: p, s =>
    (foundNul c delim).bind fun b => if b then some (c, s + 1) else scanFrom delim p (s + 1)

/-- A store at `w`. -/
def store (buf : Chars) (w : ℕ) (c : UInt8) : Option Chars :=
  if w < buf.length then some (buf.set w c) else none

def strtokR (s : Option ℕ) (delim : Chars) (m : Tok) : Option (Option ℕ × Tok) :=
  match s.or m.last with
  | none => some (none, { m with last := none })
  | some s =>
    (skipFrom delim (m.buf.drop s) s).bind fun (c, s) =>
      if c = 0 then some (none, { m with last := none })
      else
        let tok := s - 1
        (scanFrom delim (m.buf.drop s) s).bind fun (c, s) =>
          if c = 0 then some (some tok, { m with last := none })
          else (store m.buf (s - 1) 0).map fun buf => (some tok, ⟨buf, some s⟩)

/-- The pointer of `strtok` is static. -/
def strtok (s : Option ℕ) (delim : Chars) (m : Tok) : Option (Option ℕ × Tok) := strtokR s delim m

/-- Calls with one string of delimiters after the other, all but the first with `NULL`. -/
def calls : Option ℕ → List Chars → Tok → Option (List (Option ℕ) × Tok)
  | _, [], m => some ([], m)
  | s, delim :: delims, m =>
    (strtokR s delim m).bind fun (t, m) => (calls none delims m).map fun (ts, m) => (t :: ts, m)

/-- The text that remains behind a token. -/
def rest (l : Chars) (j : ℕ) : Option ℕ := if j < l.length then some (j + 1) else none

/-- Each call takes the first run without delimiters from the text that remains. -/
inductive Enumerates (l : Chars) :
    Option ℕ → List Terminated → List (Option (ℕ × ℕ)) → Prop
  | stop {q : Option ℕ} : Enumerates l q [] []
  | done {d : Terminated} {ds : List Terminated} {ts : List (Option (ℕ × ℕ))}
      (later : Enumerates l none ds ts) : Enumerates l none (d :: ds) (none :: ts)
  | empty {p : ℕ} {d : Terminated} {ds : List Terminated} {ts : List (Option (ℕ × ℕ))}
      (delims : ∀ k b, p ≤ k → l[k]? = some b → b ∈ d.chars)
      (later : Enumerates l none ds ts) : Enumerates l (some p) (d :: ds) (none :: ts)
  | token {p i j : ℕ} {d : Terminated} {ds : List Terminated} {ts : List (Option (ℕ × ℕ))}
      (run : FirstRun (· ∈ d.chars) l p i j)
      (later : Enumerates l (rest l j) ds ts) : Enumerates l (some p) (d :: ds) (some (i, j) :: ts)

/-- The answers of `n` calls: the runs, and from then on `NULL`. -/
def answers (runs : List (ℕ × ℕ)) (n : ℕ) : List (Option (ℕ × ℕ)) :=
  (runs.take n).map some ++ List.replicate (n - runs.length) none

/-- What has become of the array: delimiters are overwritten, and each token has its bytes and a
terminator. -/
structure Cut (l : Chars) (delims : List Terminated) (ts : List (Option (ℕ × ℕ)))
    (buf buf' : Chars) : Prop where
  length : buf'.length = buf.length
  cut : ∀ k : ℕ, buf'[k]? = buf[k]? ∨
    (buf'[k]? = some 0 ∧ ∃ d ∈ delims, ∃ b ∈ d.chars, l[k]? = some b)
  strings : ∀ i j : ℕ, some (i, j) ∈ ts →
    (∀ k, i ≤ k → k < j → buf'[k]? = l[k]?) ∧ buf'[j]? = some 0

section Call

variable (d : Terminated) {l : Chars}

theorem skipFrom_eq (hl : 0 ∉ l) (k : ℕ) : skipFrom d.bytes (l ++ [0]) k =
    some ((l ++ [0]).getD (spanLength (· ∈ d.chars) l) 0,
      k + spanLength (· ∈ d.chars) l + 1) := by
  induction l generalizing k with
  | nil =>
    rw [List.nil_append, skipFrom, Terminated.bytes, found_eq d.no_nul, Option.bind_some,
      if_neg (by simpa using d.no_nul)]
    rfl
  | cons c l ih =>
    obtain ⟨-, hl⟩ := not_or.mp (List.mem_cons.not.mp hl)
    rw [List.cons_append, skipFrom, ih hl, Terminated.bytes, found_eq d.no_nul, Option.bind_some]
    by_cases hc : c ∈ d.chars
    · rw [if_pos (decide_eq_true hc), spanLength_cons_pos (· ∈ d.chars) hc, List.getD_cons_succ]
      simp only [Nat.add_assoc, Nat.add_comm 1]
    · rw [if_neg (by simpa using hc), spanLength_cons_neg (· ∈ d.chars) hc]
      rfl

theorem scanFrom_eq (hl : 0 ∉ l) (k : ℕ) : scanFrom d.bytes (l ++ [0]) k =
    some ((l ++ [0]).getD (spanLength (· ∉ d.chars) l) 0,
      k + spanLength (· ∉ d.chars) l + 1) := by
  induction l generalizing k with
  | nil =>
    rw [List.nil_append, scanFrom, Terminated.bytes, foundNul_eq d.no_nul, Option.bind_some,
      if_pos (decide_eq_true (.inr rfl))]
    rfl
  | cons c l ih =>
    obtain ⟨hc0, hl⟩ := not_or.mp (List.mem_cons.not.mp hl)
    rw [List.cons_append, scanFrom, ih hl, Terminated.bytes, foundNul_eq d.no_nul,
      Option.bind_some]
    by_cases hc : c ∈ d.chars
    · rw [if_pos (decide_eq_true (.inl hc)), spanLength_cons_neg (· ∉ d.chars) (not_not.mpr hc)]
      rfl
    · have hnot : ¬(c ∈ d.chars ∨ c = 0) := not_or.mpr ⟨hc, Ne.symm hc0⟩
      rw [if_neg (by simpa using hnot), spanLength_cons_pos (· ∉ d.chars) hc, List.getD_cons_succ]
      simp only [Nat.add_assoc, Nat.add_comm 1]

theorem getD_terminated (hl : 0 ∉ l) (n : ℕ) : (l ++ [0]).getD n 0 = 0 ↔ l.length ≤ n := by
  obtain hlt | hle := Nat.lt_or_ge n l.length
  · rw [List.getD_append l [0] 0 n hlt, List.getD_eq_getElem l 0 hlt]
    refine iff_of_false (fun h => hl ?_) (not_le.mpr hlt)
    rw [← h]
    exact List.getElem_mem hlt
  · rw [List.getD_append_right l [0] 0 n hle]
    refine iff_of_true ?_ hle
    cases n - l.length with
    | zero => rfl
    | succ k => rfl

variable {s : Terminated} {a : Option ℕ} {m : Tok} {p i j : ℕ}

theorem drop_bytes (hp : p ≤ s.chars.length) : s.bytes.drop p = s.chars.drop p ++ [0] :=
  List.drop_append_of_le_length hp

theorem drop_later {buf : Chars} {k : ℕ} (hbuf : buf.drop p = s.bytes.drop p) (hk : p ≤ k) :
    buf.drop k = s.bytes.drop k := by
  obtain ⟨n, rfl⟩ := Nat.exists_eq_add_of_le hk
  rw [← List.drop_drop, hbuf, List.drop_drop]

def afterToken (l : Chars) (j : ℕ) (m : Tok) : Tok :=
  if j < l.length then ⟨m.buf.set j 0, some (j + 1)⟩ else { m with last := none }

theorem strtokR_eq (hq : a.or m.last = some p) (hp : p ≤ s.chars.length)
    (hbuf : m.buf.drop p = s.bytes.drop p) :
    strtokR a d.bytes m = some (match nextRun (· ∈ d.chars) s.chars p with
      | none => (none, { m with last := none })
      | some (i, j) => (some i, afterToken s.chars j m)) := by
  have hl : ∀ k, 0 ∉ s.chars.drop k := fun k h => s.no_nul (List.mem_of_mem_drop h)
  have hn := spanLength_le (· ∈ d.chars) (s.chars.drop p)
  have hstop : ∀ b, s.chars[p + spanLength (· ∈ d.chars) (s.chars.drop p)]? = some b →
      b ∉ d.chars := fun b hb => by
    rw [← List.getElem?_drop] at hb
    exact spanLength_stop (· ∈ d.chars) hb
  rw [strtokR, hq]
  simp only [hbuf, drop_bytes hp, skipFrom_eq d (hl p), Option.bind_some, getD_terminated (hl p),
    nextRun, List.length_drop] at hn ⊢
  generalize spanLength (· ∈ d.chars) (s.chars.drop p) = n at hn hstop
  by_cases hlt : p + n < s.chars.length
  · have hspan : spanLength (· ∉ d.chars) (s.chars.drop (p + n)) =
        spanLength (· ∉ d.chars) (s.chars.drop (p + n + 1)) + 1 := by
      rw [List.drop_eq_getElem_cons hlt, spanLength_cons_pos (· ∉ d.chars)]
      exact hstop _ (List.getElem?_eq_getElem hlt)
    have hk := spanLength_le (· ∉ d.chars) (s.chars.drop (p + n + 1))
    have hlen : m.buf.length = s.chars.length + 1 := by
      have hlen := congrArg List.length (hbuf.trans (drop_bytes hp))
      simp only [List.length_drop, List.length_append, List.length_singleton] at hlen
      omega
    rw [if_neg (by omega), if_pos hlt, drop_later hbuf (show p ≤ p + n + 1 by omega),
      drop_bytes (show p + n + 1 ≤ _ from hlt)]
    simp only [scanFrom_eq d (hl _), Option.bind_some, getD_terminated (hl _), hspan,
      List.length_drop, afterToken] at hk ⊢
    generalize spanLength (· ∉ d.chars) (s.chars.drop (p + n + 1)) = k at hk
    by_cases hend : p + n + (k + 1) < s.chars.length
    · rw [if_neg (by omega), if_pos hend, store, if_pos (by omega),
        show p + n + 1 + k + 1 - 1 = p + n + (k + 1) by omega,
        show p + n + 1 + k + 1 = p + n + (k + 1) + 1 by omega]
      rfl
    · rw [if_pos (by omega), if_neg hend]
      rfl
  · rw [if_pos (by omega), if_neg hlt]

end Call

section Calls

variable {s : Terminated} {q : Option ℕ} {m m' : Tok} {ds : List Terminated}
  {ts : List (Option (ℕ × ℕ))}

def Left (s : Terminated) (q : Option ℕ) (buf : Chars) : Prop :=
  ∀ p, q = some p → p ≤ s.chars.length ∧ buf.drop p = s.bytes.drop p

/-- Nothing in front of the text that remains changes. -/
def Kept (q : Option ℕ) (buf buf' : Chars) : Prop :=
  ∀ k : ℕ, (∀ p, q = some p → k < p) → buf'[k]? = buf[k]?

theorem left_none (buf : Chars) : Left s none buf := fun _ h => nomatch h

theorem Cut.of_same {d : Terminated} {buf buf' : Chars} (h : Cut s.chars ds ts buf buf') :
    Cut s.chars (d :: ds) (none :: ts) buf buf' where
  length := h.length
  cut k := (h.cut k).imp_right fun ⟨h0, e, he, hb⟩ => ⟨h0, e, List.mem_cons_of_mem d he, hb⟩
  strings i j hij := h.strings i j ((List.mem_cons.mp hij).resolve_left fun h => nomatch h)

section Token

variable {p i j : ℕ}

theorem lt_of_rest {l : Chars} {q : ℕ} (h : rest l j = some q) : j < q := by
  rw [rest] at h
  split_ifs at h
  obtain rfl := Option.some.inj h
  exact Nat.lt_succ_self j

theorem Left.getElem? {buf : Chars} (h : Left s (some p) buf) {k : ℕ} (hk : p ≤ k) :
    buf[k]? = s.bytes[k]? := by
  have hdrop := drop_later (h p rfl).2 hk
  have hget := congrArg (·[0]?) hdrop
  simpa only [List.getElem?_drop, Nat.add_zero] using hget

theorem afterToken_last (l : Chars) (j : ℕ) (m : Tok) : (afterToken l j m).last = rest l j := by
  rw [afterToken, rest]
  split_ifs <;> rfl

theorem afterToken_length (l : Chars) (j : ℕ) (m : Tok) :
    (afterToken l j m).buf.length = m.buf.length := by
  rw [afterToken]
  split_ifs
  · exact List.length_set
  · rfl

theorem afterToken_ne (l : Chars) (m : Tok) {j k : ℕ} (hk : k ≠ j) :
    (afterToken l j m).buf[k]? = m.buf[k]? := by
  rw [afterToken]
  split_ifs
  · exact List.getElem?_set_ne (Ne.symm hk)
  · rfl

theorem afterToken_end (h : Left s (some p) m.buf) (hp : p ≤ j) (hj : j ≤ s.chars.length) :
    (afterToken s.chars j m).buf[j]? = some 0 := by
  have hget := h.getElem? hp
  have hlen : j < s.bytes.length := by
    rw [Terminated.bytes, List.length_append, List.length_singleton]
    omega
  rw [List.getElem?_eq_getElem hlen] at hget
  obtain ⟨hlt, -⟩ := List.getElem?_eq_some_iff.mp hget
  rw [afterToken]
  split_ifs with hjl
  · exact List.getElem?_set_self hlt
  · obtain rfl : j = s.chars.length := by omega
    rw [hget, Option.some.injEq]
    simp [Terminated.bytes]

theorem afterToken_left (h : Left s (some p) m.buf) (hp : p ≤ j) :
    Left s (rest s.chars j) (afterToken s.chars j m).buf := by
  intro q hq
  rw [rest] at hq
  split_ifs at hq with hjl
  obtain rfl := Option.some.inj hq
  refine ⟨hjl, ?_⟩
  rw [afterToken, if_pos hjl]
  exact (List.drop_set_of_lt (Nat.lt_succ_self j)).trans
    (drop_later (h p rfl).2 (Nat.le_succ_of_le hp))

theorem Cut.of_token {d : Terminated} (h : Left s (some p) m.buf)
    (hrun : FirstRun (· ∈ d.chars) s.chars p i j)
    (hcut : Cut s.chars ds ts (afterToken s.chars j m).buf m'.buf)
    (hkept : Kept (rest s.chars j) (afterToken s.chars j m).buf m'.buf) :
    Cut s.chars (d :: ds) (some (i, j) :: ts) m.buf m'.buf := by
  have hpi := hrun.start
  have hij := hrun.nonempty
  have hin := hrun.inside
  have hlow : ∀ k ≤ j, m'.buf[k]? = (afterToken s.chars j m).buf[k]? := fun k hk =>
    hkept k fun _ hq => hk.trans_lt (lt_of_rest hq)
  have hend : m'.buf[j]? = some 0 := (hlow j le_rfl).trans (afterToken_end h (by omega) hin)
  refine ⟨hcut.length.trans (afterToken_length _ _ _), fun k => ?_, fun i' j' hmem => ?_⟩
  · obtain rfl | hk := eq_or_ne k j
    · obtain hlt | rfl := Nat.lt_or_eq_of_le hin
      · have hget := List.getElem?_eq_getElem hlt
        exact .inr ⟨hend, d, List.mem_cons_self, _, hrun.ended _ hget, hget⟩
      · -- the terminator ends the token
        left
        rw [hend, h.getElem? (by omega)]
        simp [Terminated.bytes]
    · refine (hcut.cut k).imp (fun heq => heq.trans (afterToken_ne _ _ hk)) ?_
      rintro ⟨h0, e, he, hb⟩
      exact ⟨h0, e, List.mem_cons_of_mem d he, hb⟩
  · obtain heq | hmem := List.mem_cons.mp hmem
    · obtain ⟨rfl, rfl⟩ := Prod.mk.inj (Option.some.inj heq)
      refine ⟨fun k hik hk => ?_, hend⟩
      rw [hlow k hk.le, afterToken_ne _ _ hk.ne, h.getElem? (hpi.trans hik), Terminated.bytes,
        List.getElem?_append_left (hk.trans_le hin)]
    · exact hcut.strings i' j' hmem

theorem Kept.of_token (hp : p ≤ j)
    (hkept : Kept (rest s.chars j) (afterToken s.chars j m).buf m'.buf) :
    Kept (some p) m.buf m'.buf := by
  intro k hk
  have hlt : k < j := (hk p rfl).trans_le hp
  rw [hkept k fun _ hq => hlt.trans (lt_of_rest hq), afterToken_ne _ _ hlt.ne]

end Token

theorem calls_spec (ds : List Terminated) {a : Option ℕ} {m : Tok} {q : Option ℕ}
    (hq : a.or m.last = q) (hleft : Left s q m.buf) :
    ∃ ts m', calls a (ds.map Terminated.bytes) m = some (ts.map (Option.map Prod.fst), m') ∧
      Enumerates s.chars q ds ts ∧ Cut s.chars ds ts m.buf m'.buf ∧ Kept q m.buf m'.buf := by
  induction ds generalizing a m q with
  | nil =>
    exact ⟨[], m, rfl, .stop, ⟨rfl, fun _ => .inl rfl, fun _ _ h => nomatch h⟩, fun _ _ => rfl⟩
  | cons d ds ih =>
    rw [List.map_cons, calls]
    cases q with
    | none =>
      obtain ⟨ts, m', hcalls, henum, hcut, hkept⟩ :=
        ih (a := none) (m := { m with last := none }) rfl (left_none m.buf)
      refine ⟨none :: ts, m', ?_, .done henum, hcut.of_same, hkept⟩
      rw [strtokR, hq]
      simp only [Option.bind_some, hcalls]
      rfl
    | some p =>
      obtain ⟨hp, hbuf⟩ := hleft p rfl
      rw [strtokR_eq d hq hp hbuf]
      cases hrun : nextRun (· ∈ d.chars) s.chars p with
      | none =>
        obtain ⟨ts, m', hcalls, henum, hcut, hkept⟩ :=
          ih (a := none) (m := { m with last := none }) rfl (left_none m.buf)
        refine ⟨none :: ts, m', ?_, .empty (nextRun_eq_none_iff.mp hrun) henum, hcut.of_same,
          fun k _ => hkept k fun p h => nomatch h⟩
        simp only [Option.bind_some, hcalls]
        rfl
      | some r =>
        obtain ⟨i, j⟩ := r
        have hfirst := nextRun_eq_some_iff.mp hrun
        have hpj : p ≤ j := hfirst.start.trans hfirst.nonempty.le
        obtain ⟨ts, m', hcalls, henum, hcut, hkept⟩ :=
          ih (a := none) (m := afterToken s.chars j m) (afterToken_last _ _ _)
            (afterToken_left hleft hpj)
        refine ⟨some (i, j) :: ts, m', ?_, .token hfirst henum, .of_token hleft hfirst hcut hkept,
          hkept.of_token hpj⟩
        simp only [Option.bind_some, hcalls]
        rfl

theorem runsFrom_rest (l : Chars) (d : Terminated) (j : ℕ) :
    (rest l j).elim [] (runsFrom (· ∈ d.chars) l) = runsFrom (· ∈ d.chars) l (j + 1) := by
  rw [rest]
  split_ifs with hj
  · rfl
  · exact (runsFrom_of_le (by omega)).symm

theorem answers_nil (n : ℕ) : answers [] (n + 1) = none :: answers [] n := by
  simp only [answers, List.take_nil, List.map_nil, List.nil_append, List.length_nil, Nat.sub_zero,
    List.replicate_succ]

theorem answers_cons (r : ℕ × ℕ) (runs : List (ℕ × ℕ)) (n : ℕ) :
    answers (r :: runs) (n + 1) = some r :: answers runs n := by
  simp only [answers, List.take_succ_cons, List.map_cons, List.cons_append, List.length_cons,
    Nat.add_sub_add_right]

theorem enumerates_replicate {l : Chars} {d : Terminated} {n : ℕ} {q : Option ℕ}
    {ts : List (Option (ℕ × ℕ))} (h : Enumerates l q (List.replicate n d) ts) :
    ts = answers (q.elim [] (runsFrom (· ∈ d.chars) l)) n := by
  induction n generalizing q ts with
  | zero =>
    cases h
    simp only [answers, List.take_zero, Nat.zero_sub, List.map_nil, List.replicate_zero,
      List.append_nil]
  | succ n ih =>
    cases h with
    | done hlater =>
      rw [ih hlater, Option.elim_none, answers_nil]
    | empty hdelims hlater =>
      rw [ih hlater, Option.elim_none, Option.elim_some,
        runsFrom_none (nextRun_eq_none_iff.mpr hdelims), answers_nil]
    | token hrun hlater =>
      rw [ih hlater, Option.elim_some, runsFrom_some (nextRun_eq_some_iff.mpr hrun), answers_cons,
        runsFrom_rest]

end Calls

/-- `strtok_r` takes the tokens of the text that remains, call after call. -/
theorem strtok_tokens (s : Terminated) (last : Option ℕ) (delims : List Terminated) :
    ∃ ts m, calls (some 0) (delims.map Terminated.bytes) ⟨s.bytes, last⟩ =
        some (ts.map (Option.map Prod.fst), m) ∧
      Enumerates s.chars (some 0) delims ts ∧ Cut s.chars delims ts s.bytes m.buf ∧
      ∀ d n, delims = List.replicate n d → ∃ runs, AllRuns (· ∈ d.chars) s.chars runs ∧
        ts = answers runs n := by
  obtain ⟨ts, m, hcalls, henum, hcut, -⟩ := calls_spec (s := s) delims (a := some 0)
    (m := ⟨s.bytes, last⟩) rfl fun p hp => by
      obtain rfl := Option.some.inj hp
      exact ⟨Nat.zero_le _, rfl⟩
  refine ⟨ts, m, hcalls, henum, hcut, ?_⟩
  rintro d n rfl
  exact ⟨_, runsFrom_all, enumerates_replicate henum⟩

example : (calls (some 0) (List.replicate 4 [44, 0]) ⟨[44, 97, 44, 44, 98, 0], none⟩).map Prod.fst =
    some [some 1, some 4, none, none] := by decide

end Jiauliyan.Tokens
