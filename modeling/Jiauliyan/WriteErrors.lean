import Jiauliyan.FileOps

namespace Jiauliyan.WriteErrors

open Jiauliyan.StringCompare Jiauliyan.FileOps
open Jiauliyan.Stdio (EOF byteOf)

section Functions

variable {σ : Type*} (put : UInt8 → σ → ℤ × σ)

/-- The character goes to the stream, and one is returned. -/
def streamPutchar (c : UInt8) (st : StreamS σ) : ℤ × StreamS σ :=
  (1, { st with data := (put c st.data).2 })

def fputc (c : ℤ) (f : FILE σ) : ℤ × FILE σ :=
  match f.stream with
  | none => (EOF, f)
  | some st =>
    let (n, st') := streamPutchar put (byteOf c) st
    (n, { f with pos := f.pos + 1, stream := some st' })

def fwrite (p : ℕ → UInt8) (size nmemb : ℕ) (b : ℤ) (f : FILE σ) : ℕ × FILE σ :=
  Stdio.fwrite (fputc put) p size 0 nmemb b f

def streamNoPut (_ : UInt8) (s : σ) : ℤ × σ := (EOF, s)

/-- The bytes are offered in order up to the first that is refused: the number of those accepted,
and what the stream is then. -/
def feed : Chars → σ → ℕ × σ
  | [], s => (0, s)
  | c :: l, s =>
    if (put c s).1 = EOF then (0, (put c s).2)
    else ((feed l (put c s).2).1 + 1, (feed l (put c s).2).2)

def advanced (f : FILE σ) (st : StreamS σ) (k : ℕ) (s : σ) : FILE σ :=
  { f with pos := f.pos + k, stream := some { st with data := s } }

def FputcRight (c : ℤ) (f : FILE σ) (st : StreamS σ) : Prop :=
  fputc put c f =
    if (put (byteOf c) st.data).1 = EOF then (EOF, advanced f st 0 (put (byteOf c) st.data).2)
    else ((byteOf c).toNat, advanced f st 1 (put (byteOf c) st.data).2)

/-- The bytes from `i` on. -/
def block (p : ℕ → UInt8) (i k : ℕ) : Chars := (List.range' i k).map p

def FwriteRight (p : ℕ → UInt8) (size nmemb : ℕ) (b : ℤ) (f : FILE σ) (st : StreamS σ) : Prop :=
  fwrite put p size nmemb b f =
    ((feed put (block p 0 (size * nmemb)) st.data).1 / size,
      advanced f st (feed put (block p 0 (size * nmemb)) st.data).1
        (feed put (block p 0 (size * nmemb)) st.data).2)

end Functions

section Writing

variable {σ : Type*} {put : UInt8 → σ → ℤ × σ} {f : FILE σ} {st : StreamS σ}

theorem fputc_ok {fn : FileOps.Functions σ} (hfn : ∀ c s, fn.put c s = some (put c s).2) (c : ℤ)
    (f : FILE σ) : FileOps.fputc fn c f = .ok (fputc put c f) := by
  rw [FileOps.fputc, fputc]
  cases f.stream with
  | none => rfl
  | some st =>
    simp only [FileOps.streamPutchar, hfn]
    rfl

theorem fwriteItem_ok {op : ℤ → FILE σ → Except Fault (ℤ × FILE σ)} {op' : ℤ → FILE σ → ℤ × FILE σ}
    (hop : ∀ c f, op c f = .ok (op' c f)) (p : ℕ → UInt8) (i k : ℕ) (b : ℤ) (f : FILE σ) :
    Stdio.fwriteItem (fun c => attempt (op c)) p i k b (.ok f) =
      ((Stdio.fwriteItem op' p i k b f).1, .ok (Stdio.fwriteItem op' p i k b f).2) := by
  induction k generalizing i b f with
  | zero => rfl
  | succ k ih =>
    rw [Stdio.fwriteItem, Stdio.fwriteItem, attempt, hop]
    simp only
    by_cases hb : (op' (p i).toNat f).1 = EOF
    · simp only [if_pos hb]
    · simp only [if_neg hb, ih]

theorem blocks_ok {op : ℤ → FILE σ → Except Fault (ℤ × FILE σ)} {op' : ℤ → FILE σ → ℤ × FILE σ}
    (hop : ∀ c f, op c f = .ok (op' c f)) (p : ℕ → UInt8) (size i n : ℕ) (b : ℤ) (f : FILE σ) :
    Stdio.fwrite (fun c => attempt (op c)) p size i n b (.ok f) =
      ((Stdio.fwrite op' p size i n b f).1, .ok (Stdio.fwrite op' p size i n b f).2) := by
  induction n generalizing i b f with
  | zero => rfl
  | succ n ih =>
    rw [Stdio.fwrite, Stdio.fwrite, fwriteItem_ok hop]
    simp only
    by_cases hb : (Stdio.fwriteItem op' p (i * size) size b f).1 = EOF
    · simp only [if_pos hb]
    · simp only [if_neg hb, ih]

theorem fwrite_ok {fn : FileOps.Functions σ} (hfn : ∀ c s, fn.put c s = some (put c s).2)
    (p : ℕ → UInt8) (size nmemb : ℕ) (b : ℤ) (f : FILE σ) :
    FileOps.fwrite fn p size nmemb b f = .ok (fwrite put p size nmemb b f) := by
  rw [FileOps.fwrite, blocks_ok (fputc_ok hfn)]
  rfl

def given (put : UInt8 → σ → ℤ × σ) (l : Chars) (s : σ) : σ := l.foldl (fun s c => (put c s).2) s

theorem advanced_stream (f : FILE σ) (st : StreamS σ) (k : ℕ) (s : σ) :
    (advanced f st k s).stream = some { st with data := s } := rfl

theorem advanced_advanced (f : FILE σ) (st : StreamS σ) (k k' : ℕ) (s s' : σ) :
    advanced (advanced f st k s) { st with data := s } k' s' = advanced f st (k + k') s' := by
  simp only [advanced, Int.natCast_add, Int.add_assoc]

theorem advanced_zero (hst : f.stream = some st) : advanced f st 0 st.data = f := by
  rw [advanced, Int.natCast_zero, Int.add_zero, ← hst]

theorem fputc_open (hst : f.stream = some st) (c : ℤ) :
    fputc put c f = (1, advanced f st 1 (put (byteOf c) st.data).2) := by
  rw [fputc, hst]
  rfl

theorem fwriteItem_open (p : ℕ → UInt8) (i k : ℕ) (b : ℤ) (hst : f.stream = some st) :
    Stdio.fwriteItem (fputc put) p i k b f =
      (if k = 0 then b else 1, advanced f st k (given put (block p i k) st.data)) := by
  induction k generalizing i b f st with
  | zero => exact congrArg _ (advanced_zero hst).symm
  | succ k ih =>
    rw [Stdio.fwriteItem, fputc_open hst]
    simp only [if_neg (show ¬(1 : ℤ) = EOF by decide), Stdio.byteOf_toNat]
    rw [ih (i + 1) 1 (advanced_stream f st 1 _), advanced_advanced, if_neg (Nat.succ_ne_zero k),
      Nat.add_comm 1, ite_self]
    rfl

theorem fwrite_open (p : ℕ → UInt8) {size : ℕ} (hsize : 1 ≤ size) (i n : ℕ) (b : ℤ)
    (hst : f.stream = some st) :
    Stdio.fwrite (fputc put) p size i n b f =
      (i + n, advanced f st (size * n) (given put (block p (i * size) (size * n)) st.data)) := by
  induction n generalizing i b f st with
  | zero => exact congrArg _ (advanced_zero hst).symm
  | succ n ih =>
    have hmul : size * (n + 1) = size + size * n := by rw [Nat.mul_succ, Nat.add_comm]
    have hblock : block p (i * size) (size * (n + 1)) =
        block p (i * size) size ++ block p ((i + 1) * size) (size * n) := by
      rw [block, block, block, ← List.map_append, hmul, Nat.succ_mul, List.range'_append_1]
    rw [Stdio.fwrite, fwriteItem_open p (i * size) size b hst, if_neg (by omega)]
    simp only [if_neg (show ¬(1 : ℤ) = EOF by decide)]
    rw [ih (i + 1) 1 (advanced_stream f st size _), advanced_advanced, hblock, hmul, given, given,
      given, List.foldl_append, Nat.add_assoc, Nat.add_comm 1]

theorem feed_all {l : Chars} {s : σ} (h : (feed put l s).1 = l.length) :
    (feed put l s).2 = given put l s := by
  induction l generalizing s with
  | nil => rfl
  | cons c l ih =>
    rw [feed] at h ⊢
    by_cases hc : (put c s).1 = EOF
    · rw [if_pos hc] at h
      cases h
    · rw [if_neg hc] at h ⊢
      exact ih (Nat.succ.inj h)

theorem block_length (p : ℕ → UInt8) (i k : ℕ) : (block p i k).length = k := by
  rw [block, List.length_map, List.length_range']

/-- `fputc` returns one for whatever becomes of the character, and `fwrite` the number of all
elements. -/
theorem errors_iff (hst : f.stream = some st) (c : ℤ) (p : ℕ → UInt8) {size : ℕ} (hsize : 1 ≤ size)
    (nmemb : ℕ) (b : ℤ) :
    (FputcRight put c f st ↔ (put (byteOf c) st.data).1 ≠ EOF ∧ byteOf c = 1) ∧
      (FwriteRight put p size nmemb b f st ↔
        (feed put (block p 0 (size * nmemb)) st.data).1 = size * nmemb) := by
  constructor
  · rw [FputcRight, fputc_open hst]
    split_ifs with hput
    · refine iff_of_false (fun h => ?_) fun h => h.1 hput
      have hfst : (1 : ℤ) = EOF := congrArg Prod.fst h
      exact absurd hfst (by decide)
    · rw [and_iff_right hput, Prod.mk.injEq, and_iff_left rfl]
      constructor
      · intro h
        exact UInt8.toNat.inj (Int.ofNat.inj h.symm)
      · intro h
        rw [h]
        rfl
  · rw [FwriteRight, fwrite, fwrite_open p hsize 0 nmemb b hst, Nat.zero_add, Nat.zero_mul]
    constructor
    · intro h
      have hpos := congrArg (fun r => r.2.pos) h
      simp only [advanced] at hpos
      omega
    · intro h
      have hall := feed_all (h.trans (block_length p 0 _).symm)
      rw [hall, h, Nat.mul_div_cancel_left _ hsize]

end Writing

/-- Writes to a stream that refuses every byte are reported as done. -/
theorem errors_lost : ¬FputcRight streamNoPut 65 (createFile ⟨(), 0⟩) ⟨(), 0⟩ ∧
    ¬FwriteRight streamNoPut (fun _ => 65) 1 1 0 (createFile ⟨(), 0⟩) ⟨(), 0⟩ := by
  constructor
  · intro h
    have hfst := congrArg Prod.fst h
    exact absurd hfst (by decide)
  · intro h
    have hfst := congrArg Prod.fst h
    exact absurd hfst (by decide)

theorem errors_iff_refused :
    (FputcRight streamNoPut 65 (createFile ⟨(), 0⟩) ⟨(), 0⟩ ↔
        ((streamNoPut (byteOf 65) ()).1 : ℤ) ≠ EOF ∧ byteOf 65 = 1) ∧
      (FwriteRight streamNoPut (fun _ => 65) 2 3 0 (createFile ⟨(), 0⟩) ⟨(), 0⟩ ↔
        (feed streamNoPut (block (fun _ => 65) 0 (2 * 3)) ()).1 = 2 * 3) :=
  errors_iff rfl 65 (fun _ => 65) (by decide) 3 0

end Jiauliyan.WriteErrors
