import Jiauliyan.PendingBytes

namespace Jiauliyan.LineReads

open Jiauliyan.StringCompare Jiauliyan.FileOps Jiauliyan.PendingBytes
open Jiauliyan.Stdio (EOF byteOf byteOf_toNat Realloc Filesystem)

def Line (n : ℕ) (l : Chars) (k : ℕ) : Prop :=
  k ≤ n ∧ k ≤ l.length ∧ ∀ i, i + 1 < k → l[i]? ≠ some 10

def LongestLine (n : ℕ) (l : Chars) (k : ℕ) : Prop := Line n l k ∧ ∀ j, Line n l j → j ≤ k

def lineLength : ℕ → Chars → ℕ
  | 0, _ => 0
  | _ + 1, [] => 0
  | n + 1, b :: l => if b = 10 then 1 else lineLength n l + 1

variable {n k : ℕ} {l : Chars}

theorem lineLength_line (n : ℕ) (l : Chars) : Line n l (lineLength n l) := by
  induction n generalizing l with
  | zero => exact ⟨le_rfl, Nat.zero_le _, fun i hi => absurd hi (Nat.not_lt_zero _)⟩
  | succ n ih =>
    cases l with
    | nil => exact ⟨Nat.zero_le _, le_rfl, fun i hi => absurd hi (Nat.not_lt_zero _)⟩
    | cons b l =>
      rw [lineLength]
      split_ifs with hb
      · exact ⟨Nat.succ_pos n, Nat.succ_pos _, fun i hi => by omega⟩
      · obtain ⟨hn, hl, hline⟩ := ih l
        refine ⟨Nat.succ_le_succ hn, Nat.succ_le_succ hl, fun i hi => ?_⟩
        cases i with
        | zero => exact fun h => hb (Option.some.inj h)
        | succ i => exact hline i (Nat.lt_of_succ_lt_succ hi)

theorem line_le (h : Line n l k) : k ≤ lineLength n l := by
  induction n generalizing l k with
  | zero => exact h.1
  | succ n ih =>
    obtain ⟨hn, hl, hline⟩ := h
    cases l with
    | nil => exact hl
    | cons b l =>
      cases k with
      | zero => exact Nat.zero_le _
      | succ k =>
        rw [lineLength]
        split_ifs with hb
        · -- no byte follows the newline
          by_contra hk
          exact hline 0 (by omega) (congrArg some hb)
        · have hk : Line n l k := ⟨Nat.le_of_succ_le_succ hn, Nat.le_of_succ_le_succ hl,
            fun i hi => hline (i + 1) (Nat.succ_lt_succ hi)⟩
          exact Nat.succ_le_succ (ih hk)

theorem longestLine_iff : LongestLine n l k ↔ k = lineLength n l := by
  constructor
  · rintro ⟨hline, hmax⟩
    exact Nat.le_antisymm (line_le hline) (hmax _ (lineLength_line n l))
  · rintro rfl
    exact ⟨lineLength_line n l, fun j => line_le⟩

theorem lineLength_succ : lineLength (n + 1) l = lineLength n l ↔ l.length ≤ n ∨ 10 ∈ l.take n := by
  induction n generalizing l with
  | zero =>
    cases l with
    | nil => simp [lineLength]
    | cons b l =>
      simp only [lineLength]
      split_ifs <;> simp
  | succ n ih =>
    cases l with
    | nil => simp [lineLength]
    | cons b l =>
      rw [lineLength, lineLength, List.take_succ_cons, List.mem_cons, List.length_cons]
      split_ifs with hb
      · exact iff_of_true rfl (.inr (.inl hb.symm))
      · rw [Nat.add_left_inj, ih, Nat.add_le_add_iff_right, or_iff_right (Ne.symm hb)]

section Reading

variable {σ : Type*} {fn : Functions σ} {src : Source fn} {f : FILE σ} {p : Pending}

theorem fgetsLoop_newline (k : ℕ) : fgetsLoop fn k 10 f = .ok ([], f) := by
  cases k with
  | zero => rfl
  | succ k => rfl

theorem fgetsLoop_open (h : Open src f p) (k : ℕ) {c : ℤ} (hc : c ≠ 10) :
    ∃ f', fgetsLoop fn k c f = .ok (p.bytes.take (lineLength k p.bytes), f') ∧
      Open src f' (p.drop (lineLength k p.bytes)) := by
  induction k generalizing f p c with
  | zero => exact ⟨f, rfl, by rwa [lineLength, drop_zero]⟩
  | succ k ih =>
    rw [fgetsLoop, if_neg hc]
    cases hp : p.bytes with
    | nil =>
      obtain ⟨f', hf, hopen⟩ := fgetc_end h hp
      refine ⟨f', ?_, by rwa [lineLength, drop_zero]⟩
      rw [hf]
      rfl
    | cons b l =>
      obtain ⟨f', hf, hopen⟩ := fgetc_head h hp
      rw [hf, lineLength]
      simp only [Except.bind, if_neg (toNat_ne_eof b), byteOf_toNat]
      split_ifs with hb
      · refine ⟨f', ?_, hopen⟩
        rw [hb]
        exact congrArg _ (fgetsLoop_newline k)
      · have hc' : (b.toNat : ℤ) ≠ 10 := fun h => hb (UInt8.toNat.inj (Int.ofNat.inj h))
        obtain ⟨f'', hr, hopen'⟩ := ih hopen hc'
        rw [drop_one_bytes hp, drop_drop, Nat.add_comm 1] at hopen'
        refine ⟨f'', ?_, hopen'⟩
        rw [hr, drop_one_bytes hp]
        rfl

theorem shift_open (h : Open src f p) (k : ℤ) : Open src { f with pos := f.pos + k } p := by
  cases h with
  | free hst hhold hleft => exact .free hst hhold hleft
  | held hst hhold hleft => exact .held hst hhold hleft

theorem fgets_open (h : Open src f p) (n : ℤ) :
    ∃ f', fgets fn n f = .ok (some (p.bytes.take (lineLength n.toNat p.bytes) ++ [0]), f') ∧
      Open src f' (p.drop (lineLength n.toNat p.bytes)) := by
  obtain ⟨f', hr, hopen⟩ := fgetsLoop_open (shift_open h 1) n.toNat (c := EOF) (by decide)
  obtain ⟨st, hst⟩ := h.stream_some
  refine ⟨f', ?_, hopen⟩
  rw [fgets, hst]
  simp only [hst] at hr ⊢
  rw [hr]
  rfl

/-- What a call is to do with room for `n` bytes: nothing but return `NULL` if no byte is ahead,
and otherwise take a line of less than `n` bytes and terminate it. -/
def Right (src : Source fn) (f : FILE σ) (p : Pending) (n : ℤ) : Prop :=
  ∃ r f' q, fgets fn n f = .ok (r, f') ∧ Open src f' q ∧
    if p.bytes = [] then r = none ∧ q.bytes = []
    else ∃ k, LongestLine (n - 1).toNat p.bytes k ∧ r = some (p.bytes.take k ++ [0]) ∧
      q.bytes = p.bytes.drop k

/-- A caller that repeats the call until it returns `NULL`, with the lines that it gets. -/
inductive Reads (fn : Functions σ) (n : ℤ) : FILE σ → List Chars → FILE σ → Prop
  | stop {f f' : FILE σ} (h : fgets fn n f = .ok (none, f')) : Reads fn n f [] f'
  | more {f f' f'' : FILE σ} {s : Chars} {ss : List Chars} (h : fgets fn n f = .ok (some s, f'))
      (later : Reads fn n f' ss f'') : Reads fn n f (s :: ss) f''

theorem not_reads (h : Open src f p) (n : ℤ) : ¬∃ ss f', Reads fn n f ss f' := by
  rintro ⟨ss, f', hreads⟩
  induction hreads generalizing p with
  | stop hnull =>
    obtain ⟨f', hr, -⟩ := fgets_open h n
    rw [hr] at hnull
    cases hnull
  | more hsome hlater ih =>
    obtain ⟨f', hr, hopen⟩ := fgets_open h n
    rw [hr] at hsome
    cases hsome
    exact ih hopen

theorem fgets_right_iff (h : Open src f p) {n : ℤ} (hn : 1 ≤ n) :
    Right src f p n ↔ p.bytes ≠ [] ∧
      ((p.bytes.length : ℤ) < n ∨ 10 ∈ p.bytes.take (n - 1).toNat) := by
  obtain ⟨f', hr, hopen⟩ := fgets_open h n
  obtain ⟨m, rfl⟩ : ∃ m : ℕ, n = m + 1 := ⟨(n - 1).toNat, by omega⟩
  have hsucc : ((m : ℤ) + 1).toNat = m + 1 := by omega
  have hpred : ((m : ℤ) + 1 - 1).toNat = m := by omega
  have hlen : ((p.bytes.length : ℤ) < (m : ℤ) + 1) ↔ p.bytes.length ≤ m := by omega
  rw [hsucc] at hr hopen
  rw [hpred, hlen, ← lineLength_succ, Right, hpred]
  by_cases hp : p.bytes = []
  · simp only [if_pos hp]
    refine iff_of_false ?_ fun hne => hne.1 hp
    rintro ⟨r, g, q, hg, -, rfl, -⟩
    rw [hr] at hg
    cases hg
  · simp only [if_neg hp, longestLine_iff]
    rw [and_iff_right hp]
    constructor
    · rintro ⟨r, g, q, hg, -, k, rfl, rfl, -⟩
      rw [hr] at hg
      have hbytes := Option.some.inj (congrArg Prod.fst (Except.ok.inj hg))
      have htake := congrArg List.length (List.append_cancel_right hbytes)
      rwa [List.length_take, List.length_take, min_eq_left (lineLength_line _ _).2.1,
        min_eq_left (lineLength_line _ _).2.1] at htake
    · intro heq
      rw [heq] at hr hopen
      exact ⟨_, f', _, hr, hopen, _, rfl, rfl, rfl⟩

end Reading

/-- `fgets` writes one byte too many where the line is as long as the room, and no caller that waits
for `NULL` comes to an end. -/
theorem fgets_iff {σ : Type*} {fn : Functions σ} {src : Source fn} {f : FILE σ} {p : Pending}
    (h : Open src f p) {n : ℤ} (hn : 1 ≤ n) :
    (Right src f p n ↔ p.bytes ≠ [] ∧
      ((p.bytes.length : ℤ) < n ∨ 10 ∈ p.bytes.take (n - 1).toNat)) ∧
      ¬∃ ss f', Reads fn n f ss f' :=
  ⟨fgets_right_iff h hn, not_reads h n⟩

/-- A file that is empty, and one of two bytes that is read with room for two. -/
theorem fgets_overruns :
    let A : Realloc := ⟨fun data _ _ => data⟩
    let fs : Filesystem := { Stdio.boot with entries := fun _ => ⟨[], fun _ => 97, 2, 1024⟩ }
    ¬Right (entrySource A) (createFile ⟨⟨Stdio.boot, 0, 0⟩, 0⟩) ⟨[], false⟩ 80 ∧
      ¬Right (entrySource A) (createFile ⟨⟨fs, 0, 0⟩, 0⟩) ⟨[97, 97], false⟩ 2 := by
  intro A fs
  constructor
  · intro h
    exact ((fgets_right_iff (create_open A Stdio.boot 0 0 0) (n := 80) (by decide)).mp h).1 rfl
  · intro h
    obtain ⟨-, hlen | hmem⟩ := (fgets_right_iff (create_open A fs 0 0 0) (n := 2) (by decide)).mp h
    · exact absurd hlen (by decide)
    · exact absurd hmem (by decide)

theorem fgets_iff_short :
    let A : Realloc := ⟨fun data _ _ => data⟩
    let fs : Filesystem := { Stdio.boot with entries := fun _ => ⟨[], fun _ => 10, 1, 1024⟩ }
    (Right (entrySource A) (createFile ⟨⟨fs, 0, 0⟩, 0⟩) ⟨[10], false⟩ 80 ↔
      ([10] : Chars) ≠ [] ∧
        ((([10] : Chars).length : ℤ) < 80 ∨ 10 ∈ ([10] : Chars).take (80 - 1 : ℤ).toNat)) ∧
      ¬∃ ss f', Reads (entryFunctions A) 80 (createFile ⟨⟨fs, 0, 0⟩, 0⟩) ss f' := by
  intro A fs
  exact fgets_iff (create_open A fs 0 0 0) (by decide)

end Jiauliyan.LineReads
