import Mathlib.Data.List.ReduceOption
import Mathlib.Logic.Function.Basic
import Jiauliyan.Execution

namespace Jiauliyan.ShiftQueue

open Jiauliyan.Execution

variable {α : Type*}

/-- Where a read stands: `moving c n k` has taken `c` and the count `n`, and
has moved down the first `k` of `n` entries. -/
inductive Phase (α : Type*)
  | idle
  | tested
  | fetched (c : α)
  | moving (c : α) (n k : ℕ)

structure Queue (α : Type*) where
  buf : ℕ → α
  len : ℕ
  phase : Phase α
  out : List α

variable {q : Queue α} {sent : List α} {x : α}

def Queue.contents (q : Queue α) : List α := (List.range q.len).map q.buf

def Queue.advance (q : Queue α) : Queue α :=
  match q.phase with
  | .idle => if q.len = 0 then q else { q with phase := .tested }
  | .tested => { q with phase := .fetched (q.buf 0) }
  | .fetched c => { q with len := q.len - 1, phase := .moving c (q.len - 1) 0 }
  | .moving c n k =>
    if k < n then
      { q with buf := Function.update q.buf k (q.buf (k + 1)), phase := .moving c n (k + 1) }
    else { q with phase := .idle, out := q.out ++ [c] }

def Queue.append (q : Queue α) (x : α) : Queue α :=
  { q with buf := Function.update q.buf q.len x, len := q.len + 1 }

def pending (buf : ℕ → α) (n k i : ℕ) : α := if k ≤ i ∧ i < n then buf (i + 1) else buf i

/-- The invariant of a read in progress: what has been read out, what is
being read out and what is left make up what was sent. -/
def Tracks (q : Queue α) (sent : List α) : Prop :=
  match q.phase with
  | .idle => q.out ++ q.contents = sent
  | .tested => q.out ++ q.contents = sent ∧ 0 < q.len
  | .fetched c => q.out ++ q.contents = sent ∧ 0 < q.len ∧ c = q.buf 0
  | .moving c n k =>
    k ≤ n ∧ n ≤ q.len ∧ q.out ++ c :: (List.range q.len).map (pending q.buf n k) = sent

/-- The append that would overwrite the last entry not yet moved puts there
what was there already. -/
def Harmless (q : Queue α) (x : α) : Prop :=
  ∀ c n k, q.phase = .moving c n k → k < n → q.len = n → x = q.buf n

/-- The reader and the writer interleaved; the label is what the writer appends. -/
inductive Queue.Step : Queue α → Option α → Queue α → Prop
  | advance (q : Queue α) : Queue.Step q none q.advance
  | stay (q : Queue α) : Queue.Step q none q
  | append (q : Queue α) (x : α) (h : Harmless q x) : Queue.Step q (some x) (q.append x)

theorem append_out (q : Queue α) (x : α) : (q.append x).out = q.out := rfl

theorem contents_append (q : Queue α) (x : α) : (q.append x).contents = q.contents ++ [x] := by
  simp only [Queue.contents, Queue.append, List.range_succ, List.map_append, List.map_cons,
    List.map_nil, Function.update_self]
  congr 1
  apply List.map_congr_left
  intro i hi
  rw [List.mem_range] at hi
  rw [Function.update_of_ne (by omega)]

theorem contents_cons (h : 0 < q.len) :
    q.contents = q.buf 0 :: (List.range (q.len - 1)).map fun i => q.buf (i + 1) := by
  obtain ⟨m, hm⟩ : ∃ m, q.len = m + 1 := ⟨q.len - 1, by omega⟩
  rw [Queue.contents, hm, List.range_succ_eq_map]
  simp [Function.comp_def]

theorem pending_move (buf : ℕ → α) {n k : ℕ} (hk : k < n) :
    pending (Function.update buf k (buf (k + 1))) n (k + 1) = pending buf n k := by
  funext i
  unfold pending
  obtain hlt | rfl | hgt := lt_trichotomy i k
  · rw [if_neg (by omega), if_neg (by omega), Function.update_of_ne (by omega)]
  · rw [if_neg (by omega), if_pos (by omega), Function.update_self]
  · by_cases hn : i < n
    · rw [if_pos (by omega), if_pos (by omega), Function.update_of_ne (by omega)]
    · rw [if_neg (by omega), if_neg (by omega), Function.update_of_ne (by omega)]

theorem pending_done (buf : ℕ → α) (n : ℕ) : pending buf n n = buf := by
  funext i
  exact if_neg (by omega)

theorem advance_tracks (h : Tracks q sent) : Tracks q.advance sent := by
  unfold Tracks at h
  cases hp : q.phase with
  | idle =>
    rw [hp] at h
    unfold Queue.advance
    rw [hp]
    by_cases h0 : q.len = 0
    · simpa [Tracks, h0, hp] using h
    · simpa [Tracks, h0, Queue.contents] using And.intro h (Nat.pos_of_ne_zero h0)
  | tested =>
    rw [hp] at h
    unfold Queue.advance
    rw [hp]
    exact ⟨h.1, h.2, rfl⟩
  | fetched c =>
    rw [hp] at h
    obtain ⟨hall, hpos, rfl⟩ := h
    unfold Queue.advance
    rw [hp]
    refine ⟨Nat.zero_le _, Nat.le_refl _, ?_⟩
    rw [← hall, contents_cons hpos]
    congr 2
    apply List.map_congr_left
    intro i hi
    rw [List.mem_range] at hi
    exact if_pos ⟨Nat.zero_le i, hi⟩
  | moving c n k =>
    rw [hp] at h
    obtain ⟨hkn, hn, hall⟩ := h
    unfold Queue.advance
    rw [hp]
    by_cases hk : k < n
    · simp only [hk, if_true]
      exact ⟨hk, hn, by rw [pending_move q.buf hk]; exact hall⟩
    · have he : k = n := by omega
      subst he
      rw [pending_done] at hall
      simpa [Tracks, Queue.contents] using hall

theorem append_tracks (h : Tracks q sent) (hx : Harmless q x) :
    Tracks (q.append x) (sent ++ [x]) := by
  have hc := contents_append q x
  unfold Tracks at h
  cases hp : q.phase with
  | idle =>
    rw [hp] at h
    have hp' : (q.append x).phase = .idle := hp
    simp only [Tracks, hp', hc]
    rw [← h, List.append_assoc]
    rfl
  | tested =>
    rw [hp] at h
    have hp' : (q.append x).phase = .tested := hp
    simp only [Tracks, hp', hc]
    rw [← h.1, List.append_assoc]
    exact ⟨rfl, Nat.succ_pos q.len⟩
  | fetched c =>
    rw [hp] at h
    obtain ⟨hall, hpos, hb⟩ := h
    have hp' : (q.append x).phase = .fetched c := hp
    simp only [Tracks, hp', hc]
    rw [← hall, List.append_assoc]
    refine ⟨rfl, Nat.succ_pos q.len, ?_⟩
    rw [hb]
    exact (Function.update_of_ne hpos.ne x q.buf).symm
  | moving c n k =>
    rw [hp] at h
    obtain ⟨hkn, hn, hall⟩ := h
    have hp' : (q.append x).phase = .moving c n k := hp
    have hlast : pending (q.append x).buf n k q.len = x := by
      have hout : ¬(k ≤ q.len ∧ q.len < n) := by omega
      rw [pending, if_neg hout]
      exact Function.update_self q.len x q.buf
    have hkeep : ∀ i ∈ List.range q.len, pending (q.append x).buf n k i = pending q.buf n k i := by
      intro i hi
      rw [List.mem_range] at hi
      unfold pending
      by_cases hin : k ≤ i ∧ i < n
      · rw [if_pos hin, if_pos hin]
        by_cases hi1 : i + 1 = q.len
        · -- the appended entry lands on the last one still to be moved
          have hnl : q.len = n := by omega
          have hxb := hx c n k hp (by omega) hnl
          rw [hi1, hnl, ← hxb, ← hnl]
          exact Function.update_self q.len x q.buf
        · exact Function.update_of_ne hi1 x q.buf
      · rw [if_neg hin, if_neg hin]
        exact Function.update_of_ne hi.ne x q.buf
    simp only [Tracks, hp']
    refine ⟨hkn, hn.trans (Nat.le_succ q.len), ?_⟩
    rw [show (q.append x).len = q.len + 1 from rfl, List.range_succ, List.map_append,
      List.map_congr_left hkeep, ← hall]
    simp [hlast, append_out]

theorem step_tracks {r : Queue α} {o : Option α} (h : Queue.Step q o r) (hq : Tracks q sent) :
    Tracks r (sent ++ [o].reduceOption) := by
  cases h with
  | advance => simpa [List.reduceOption] using advance_tracks hq
  | stay => simpa [List.reduceOption] using hq
  | append x hx => simpa [List.reduceOption] using append_tracks hq hx

theorem run_tracks {r : Queue α} {os : List (Option α)} (h : Run Queue.Step q os r)
    (hq : Tracks q sent) : Tracks r (sent ++ os.reduceOption) := by
  induction h generalizing sent with
  | nil q => simpa [List.reduceOption] using hq
  | @cons q r u o os hst _ ih =>
    have hr := ih (step_tracks hst hq)
    rwa [List.append_assoc, ← List.reduceOption_append] at hr

theorem Tracks.exact (h : Tracks q sent) (hp : q.phase = .idle) : q.out ++ q.contents = sent := by
  unfold Tracks at h
  rwa [hp] at h

end Jiauliyan.ShiftQueue
