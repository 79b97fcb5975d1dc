import Jiauliyan.Execution
import Jiauliyan.FileOps

namespace Jiauliyan.FilePosition

open Jiauliyan.Execution Jiauliyan.StringCompare Jiauliyan.FileOps
open Jiauliyan.Stdio (EOF byteOf Realloc Filesystem fwrite_keeps)

def cursor (f : FILE EntryStream) : ℤ :=
  match f.stream with
  | none => 0
  | some st => st.data.pos

def held (f : FILE EntryStream) : List ℤ := if f.hold ≠ EOF then [f.hold] else []

/-- The bytes of an entry from a position on. -/
def rest (s : EntryStream) : List ℤ :=
  (List.range ((s.fs.entries s.entry).size - s.pos.toNat)).map fun i =>
    ((s.fs.entries s.entry).data (s.pos.toNat + i)).toNat

def ahead (f : FILE EntryStream) : List ℤ :=
  match f.stream with
  | none => []
  | some st => held f ++ rest st.data

/-- The operations that move the position. -/
def Moves : Op → Prop
  | .fgetc | .ungetc _ | .fread _ _ _ | .fgets _ | .fputc _ | .fputs _ | .fwrite _ _ _ _ => True
  | .fseek _ whence => whence = 0
  | _ => False

def ranOut (f : FILE EntryStream) : Op → Bool
  | .fgetc => (ahead f).length < 1
  | .fread size nmemb _ => (ahead f).length < size * nmemb
  | .fgets n => (ahead f).length < n.toNat && !(ahead f).contains 10
  | _ => false

def ended (f : FILE EntryStream) (op : Op) (b : Bool) : Bool :=
  match op with
  | .fgetc | .fread _ _ _ | .fgets _ => ranOut f op
  | .ungetc c => if f.hold = EOF ∧ c ≠ EOF then false else b
  | .fseek _ _ => false
  | _ => b

/-- One call, with what `feof` is to say at each end. -/
def Step (A : Realloc) (s : FILE EntryStream × Bool) (op : Op) (t : FILE EntryStream × Bool) :
    Prop :=
  Moves op ∧ (∃ r, call (entryFunctions A) s.1 op = .ok (r, t.1)) ∧ t.2 = ended s.1 op s.2

/-- The bookkeeping is right after an operation. -/
structure Kept (op : Op) (t : FILE EntryStream × Bool) : Prop where
  pos : ftell t.1 = cursor t.1 - (held t.1).length
  eof : feof t.1 = t.2
  discards : ∀ offset whence, op = .fseek offset whence → t.1.hold = EOF

/-- Nothing is read beyond the end, `fgets` and `fputs` are not used, and `fseek`
does not move. -/
def Good (f : FILE EntryStream) : Op → Prop
  | .fgetc => 1 ≤ (ahead f).length
  | .fread size nmemb _ => size * nmemb ≤ (ahead f).length
  | .fgets _ | .fputs _ => False
  | .fseek offset _ => f.hold = EOF ∧ offset = cursor f
  | _ => True

structure At (f : FILE EntryStream) (l : List ℤ) (d : ℤ) (e : Bool) : Prop where
  stream : ∃ st, f.stream = some st ∧ 0 ≤ st.data.pos
  ahead : ahead f = l
  drift : f.pos = cursor f - (held f).length + d
  eof : f.eof = e

section Calls

variable (A : Realloc)

theorem get_cons {s : EntryStream} {c : ℤ} {l : List ℤ} (hpos : 0 ≤ s.pos) (h : rest s = c :: l) :
    (entryFunctions A).get s = some (c, { s with pos := s.pos + 1 }) ∧
      rest { s with pos := s.pos + 1 } = l ∧ c ≠ EOF := by
  obtain ⟨fs, entry, pos⟩ := s
  obtain ⟨p, rfl⟩ := Int.eq_ofNat_of_zero_le hpos
  have hend : ¬(fs.entries entry).size ≤ p := by
    intro hle
    simp [rest, Nat.sub_eq_zero_of_le hle] at h
  obtain ⟨n, hn⟩ : ∃ n, (fs.entries entry).size - p = n + 1 :=
    ⟨(fs.entries entry).size - p - 1, by omega⟩
  have hn' : (fs.entries entry).size - (p + 1) = n := by omega
  have hneg : ¬(p : ℤ) < 0 := by omega
  have hsucc : ((p : ℤ) + 1).toNat = p + 1 := by omega
  simp only [rest, Int.toNat_natCast, hn, List.range_succ_eq_map, List.map_cons, List.map_map,
    Nat.add_zero, List.cons.injEq] at h
  obtain ⟨hc, hl⟩ := h
  refine ⟨?_, ?_, ?_⟩
  · simp [entryFunctions, Stdio.fileEntryGet, hneg, hend, hc]
  · rw [← hl]
    simp only [rest, hsucc, hn']
    refine List.map_congr_left fun i _ => ?_
    simp only [Function.comp_apply, Nat.succ_eq_add_one]
    congr 3
    omega
  · rw [← hc, EOF]
    omega

theorem get_nil {s : EntryStream} (hpos : 0 ≤ s.pos) (h : rest s = []) :
    (entryFunctions A).get s = some (EOF, s) := by
  obtain ⟨fs, entry, pos⟩ := s
  obtain ⟨p, rfl⟩ := Int.eq_ofNat_of_zero_le hpos
  have hend : (fs.entries entry).size ≤ p := by
    simpa [rest, Nat.sub_eq_zero_iff_le] using h
  have hneg : ¬(p : ℤ) < 0 := by omega
  simp [entryFunctions, Stdio.fileEntryGet, hneg, hend]

variable {f : FILE EntryStream} {l : List ℤ} {d : ℤ} {e : Bool}

theorem held_eof (h : f.hold = EOF) : held f = [] := if_neg (not_not.mpr h)

theorem held_char (h : f.hold ≠ EOF) : held f = [f.hold] := if_pos h

theorem fgetc_cons {c : ℤ} (h : At f (c :: l) d e) :
    ∃ f', fgetc (entryFunctions A) f = .ok (c, f') ∧ At f' l d e ∧ c ≠ EOF := by
  obtain ⟨⟨st, hs, hpos⟩, ha, hd, he⟩ := h
  have hcur : cursor f = st.data.pos := by simp [cursor, hs]
  have hah : held f ++ rest st.data = c :: l := by simpa [ahead, hs] using ha
  rw [hcur] at hd
  by_cases hh : f.hold = EOF
  · -- the character comes from the stream
    rw [held_eof hh, List.nil_append] at hah
    rw [held_eof hh] at hd
    obtain ⟨hget, hrest, hc⟩ := get_cons A hpos hah
    have hne : (c == EOF) = false := by simpa using hc
    refine ⟨{ f with
      pos := f.pos + 1
      stream := some { st with data := { st.data with pos := st.data.pos + 1 } } },
      ?_, ⟨⟨_, rfl, ?_⟩, ?_, ?_, he⟩, hc⟩
    · simp [fgetc, hs, hh, streamGet, hget, Except.map, hne]
    · exact Int.add_nonneg hpos (by decide)
    · simp [ahead, held, hh, hrest]
    · simp only [cursor, held, hh, ne_eq, not_true_eq_false, if_false]
      omega
  · -- the character was held back
    rw [held_char hh, List.singleton_append, List.cons.injEq] at hah
    rw [held_char hh] at hd
    refine ⟨{ f with pos := f.pos + 1, hold := EOF }, ?_, ⟨⟨st, hs, hpos⟩, ?_, ?_, he⟩, ?_⟩
    · rw [← hah.1]
      simp [fgetc, hs, hh]
    · simp [ahead, held, hs, hah.2]
    · simp only [cursor, held, hs, ne_eq, not_true_eq_false, if_false, List.length_nil]
      simp only [List.length_cons, List.length_nil] at hd
      omega
    · rw [← hah.1]
      exact hh

theorem fgetc_nil (h : At f [] d e) :
    ∃ f', fgetc (entryFunctions A) f = .ok (EOF, f') ∧ At f' [] (d + 1) true := by
  obtain ⟨⟨st, hs, hpos⟩, ha, hd, -⟩ := h
  have hcur : cursor f = st.data.pos := by simp [cursor, hs]
  obtain ⟨hheld, hrest⟩ := List.append_eq_nil_iff.mp
    (show held f ++ rest st.data = [] by simpa [ahead, hs] using ha)
  have hh : f.hold = EOF := by
    by_contra hne
    rw [held_char hne] at hheld
    cases hheld
  have hget := get_nil A hpos hrest
  rw [hcur, hheld] at hd
  refine ⟨{ f with pos := f.pos + 1, eof := true }, ?_, ⟨⟨st, hs, hpos⟩, ?_, ?_, rfl⟩⟩
  · simp [fgetc, hs, hh, streamGet, hget, Except.map]
  · simp [ahead, held, hs, hh, hrest]
  · simp only [cursor, held, hs, hh, ne_eq, not_true_eq_false, if_false]
    simp only [List.length_nil] at hd ⊢
    omega

theorem freadItem_at (k : ℕ) (b : ℤ) (h : At f l d e) :
    ∃ b' p f', Stdio.freadItem (attempt (fgetc (entryFunctions A))) k b (.ok f) = (b', p, .ok f') ∧
      if k ≤ l.length then At f' (l.drop k) d e ∧ (0 < k → b' ≠ EOF) ∧ (k = 0 → b' = b)
      else At f' [] (d + 1) true ∧ b' = EOF := by
  induction k generalizing f l b with
  | zero => exact ⟨b, [], f, rfl, h, fun hk => absurd hk (Nat.lt_irrefl 0), fun _ => rfl⟩
  | succ k ih =>
    cases l with
    | nil =>
      obtain ⟨f', hf, hat⟩ := fgetc_nil A h
      exact ⟨EOF, [], f', by simp [Stdio.freadItem, attempt, hf], hat, rfl⟩
    | cons c l =>
      obtain ⟨f', hf, hat, hc⟩ := fgetc_cons A h
      obtain ⟨b', p, f'', hr, hi⟩ := ih c hat
      refine ⟨b', byteOf c :: p, f'', by simp [Stdio.freadItem, attempt, hf, hc, hr], ?_⟩
      by_cases hk : k ≤ l.length
      · rw [if_pos hk] at hi
        obtain ⟨hat', hne, h0⟩ := hi
        have hk' : k + 1 ≤ (c :: l).length := Nat.succ_le_succ hk
        rw [if_pos hk']
        refine ⟨hat', fun _ => ?_, fun h => absurd h (Nat.succ_ne_zero k)⟩
        obtain rfl | hpos := Nat.eq_zero_or_pos k
        · rw [h0 rfl]
          exact hc
        · exact hne hpos
      · rw [if_neg hk] at hi
        have hk' : ¬k + 1 ≤ (c :: l).length := fun hle => hk (Nat.le_of_succ_le_succ hle)
        rw [if_neg hk']
        exact hi

theorem blocks_at (size nmemb : ℕ) (b : ℤ) (h : At f l d e) :
    ∃ n p f', Stdio.fread (attempt (fgetc (entryFunctions A))) size nmemb b (.ok f) =
        (n, p, .ok f') ∧
      if size * nmemb ≤ l.length then ∃ l', At f' l' d e else At f' [] (d + 1) true := by
  induction nmemb generalizing f l b with
  | zero =>
    refine ⟨0, [], f, rfl, ?_⟩
    rw [Nat.mul_zero, if_pos (Nat.zero_le _)]
    exact ⟨l, h⟩
  | succ nmemb ih =>
    obtain ⟨b', p, f', hr, hi⟩ := freadItem_at A size b h
    have hmul : size * (nmemb + 1) = size * nmemb + size := Nat.mul_succ size nmemb
    by_cases hk : size ≤ l.length
    · rw [if_pos hk] at hi
      obtain ⟨hat, hne, -⟩ := hi
      by_cases hb : b' = EOF
      · -- only an empty block leaves `b` as it was
        have h0 : size = 0 := Nat.eq_zero_of_not_pos fun hpos => hne hpos hb
        refine ⟨0, p, f', by simp [Stdio.fread, hr, hb], ?_⟩
        rw [h0, Nat.zero_mul, if_pos (Nat.zero_le _)]
        exact ⟨_, hat⟩
      · obtain ⟨n, p', f'', hr', hi'⟩ := ih b' hat
        refine ⟨n + 1, p ++ p', f'', by simp [Stdio.fread, hr, hb, hr'], ?_⟩
        have hiff : size * (nmemb + 1) ≤ l.length ↔ size * nmemb ≤ (l.drop size).length := by
          rw [List.length_drop, hmul]
          omega
        simpa only [hiff] using hi'
    · rw [if_neg hk] at hi
      have hlong : ¬size * (nmemb + 1) ≤ l.length := by
        rw [hmul]
        omega
      refine ⟨0, p, f', by simp [Stdio.fread, hr, hi.2], ?_⟩
      rw [if_neg hlong]
      exact hi.1

theorem fread_at (size nmemb : ℕ) (b : ℤ) (h : At f l d e) :
    ∃ r f', fread (entryFunctions A) size nmemb b f = .ok (r, f') ∧
      if size * nmemb ≤ l.length then ∃ l', At f' l' d e else At f' [] (d + 1) true := by
  obtain ⟨n, p, f', hr, hi⟩ := blocks_at A size nmemb b h
  exact ⟨(n, p), f', by simp [fread, hr, Except.map], hi⟩

theorem At.shift (h : At f l d e) (k : ℤ) : At { f with pos := f.pos + k } l (d + k) e := by
  obtain ⟨hst, ha, hd, he⟩ := h
  refine ⟨hst, ha, ?_, he⟩
  have hc : cursor { f with pos := f.pos + k } = cursor f := rfl
  have hh : held { f with pos := f.pos + k } = held f := rfl
  rw [hc, hh]
  simp only
  omega

theorem fgetsLoop_at (k : ℕ) (c : ℤ) (h : At f l d e) :
    ∃ str f' l' d' e', fgetsLoop (entryFunctions A) k c f = .ok (str, f') ∧ At f' l' d' e' ∧
      d ≤ d' := by
  induction k generalizing f l c with
  | zero => exact ⟨[], f, l, d, e, rfl, h, Int.le_refl d⟩
  | succ k ih =>
    by_cases hc : c = 10
    · exact ⟨[], f, l, d, e, by simp [fgetsLoop, hc], h, Int.le_refl d⟩
    cases l with
    | nil =>
      obtain ⟨f', hf, hat⟩ := fgetc_nil A h
      exact ⟨[], f', [], d + 1, true, by simp [fgetsLoop, hc, hf, Except.bind], hat, by omega⟩
    | cons c' l =>
      obtain ⟨f', hf, hat, hc'⟩ := fgetc_cons A h
      obtain ⟨str, f'', l', d', e', hr, hat', hd⟩ := ih c' hat
      exact ⟨byteOf c' :: str, f'', l', d', e',
        by simp [fgetsLoop, hc, hf, hc', hr, Except.bind, Except.map], hat', hd⟩

theorem fgets_at (n : ℤ) (h : At f l d e) :
    ∃ r f' l' d' e', fgets (entryFunctions A) n f = .ok (r, f') ∧ At f' l' d' e' ∧ d < d' := by
  obtain ⟨str, f', l', d', e', hr, hat, hd⟩ := fgetsLoop_at A n.toNat EOF (h.shift 1)
  obtain ⟨_ | st, pos, eof, hold⟩ := f
  · obtain ⟨st, hs, -⟩ := h.stream
    cases hs
  · exact ⟨some (str ++ [0]), f', l', d', e', by simp [fgets, hr, Except.map], hat, by omega⟩

theorem put_at (c : UInt8) {s : EntryStream} (h : 0 ≤ s.pos) :
    ∃ fs, (entryFunctions A).put c s = some { s with fs := fs, pos := s.pos + 1 } := by
  obtain ⟨fs, entry, pos⟩ := s
  obtain ⟨p, rfl⟩ := Int.eq_ofNat_of_zero_le h
  have hneg : ¬(p : ℤ) < 0 := by omega
  exact ⟨_, by simp [entryFunctions, Stdio.fileEntryPut, hneg]; rfl⟩

theorem putstring_at (string : Chars) {st : StreamS EntryStream} (h : 0 ≤ st.data.pos) :
    ∃ fs, streamPutstring (entryFunctions A) string st = .ok { st with
      data := { st.data with fs := fs, pos := st.data.pos + string.length } } := by
  induction string generalizing st with
  | nil => exact ⟨st.data.fs, by simp [streamPutstring]⟩
  | cons c string ih =>
    obtain ⟨fs, hput⟩ := put_at A c h
    obtain ⟨fs', hrest⟩ := @ih { st with data := { st.data with fs := fs, pos := st.data.pos + 1 } }
      (Int.add_nonneg h (by decide))
    have hpos : st.data.pos + 1 + string.length = st.data.pos + (c :: string).length := by
      rw [List.length_cons]
      omega
    refine ⟨fs', ?_⟩
    rw [← hpos]
    simp [streamPutstring, streamPutchar, hput, Except.bind, hrest]

theorem At.put (h : At f l d e) {st : StreamS EntryStream} (hs : f.stream = some st)
    (fs : Filesystem) (n : ℕ) (m : ℤ) :
    ∃ l', At { f with
      pos := f.pos + m
      stream := some { st with data := { st.data with fs := fs, pos := st.data.pos + n } } }
      l' (d + (m - n)) e := by
  obtain ⟨⟨st', hs', hpos⟩, -, hd, he⟩ := h
  obtain rfl : st = st' := Option.some.inj (hs.symm.trans hs')
  have hc : cursor f = st.data.pos := by simp [cursor, hs]
  rw [hc] at hd
  refine ⟨_, ⟨_, rfl, Int.add_nonneg hpos (Int.natCast_nonneg n)⟩, rfl, ?_, he⟩
  simp only [cursor, held]
  simp only [held] at hd
  omega

theorem fputc_at (c : ℤ) (h : At f l d e) :
    ∃ r f' l', fputc (entryFunctions A) c f = .ok (r, f') ∧ At f' l' d e := by
  obtain ⟨st, hs, hpos⟩ := h.stream
  obtain ⟨fs, hput⟩ := put_at A (byteOf c) hpos
  obtain ⟨l', hat⟩ := h.put hs fs 1 1
  have hd : d + (1 - (1 : ℕ)) = d := by omega
  rw [hd] at hat
  exact ⟨1, _, l', by simp [fputc, hs, streamPutchar, hput, Except.map], hat⟩

theorem fputs_at (string : Chars) (h : At f l d e) :
    ∃ r f' l', fputs (entryFunctions A) string f = .ok (r, f') ∧ At f' l' (d + 1) e := by
  obtain ⟨st, hs, hpos⟩ := h.stream
  obtain ⟨fs, hput⟩ := putstring_at A (content string) hpos
  obtain ⟨l', hat⟩ := h.put hs fs (content string).length (strlen string + 1)
  have hd : d + (strlen string + 1 - ((content string).length : ℕ)) = d + 1 := by
    rw [strlen_eq]
    omega
  rw [hd] at hat
  exact ⟨strlen string, _, l', by simp [fputs, hs, hput, Except.map], hat⟩

theorem fwrite_at (p : ℕ → UInt8) (size nmemb : ℕ) (b : ℤ) (h : At f l d e) :
    ∃ r f' l', fwrite (entryFunctions A) p size nmemb b f = .ok (r, f') ∧ At f' l' d e := by
  have hput : ∀ c s, (∃ f' l', s = .ok f' ∧ At f' l' d e) →
      ∃ f' l', (attempt (fputc (entryFunctions A) c) s).2 = .ok f' ∧ At f' l' d e := by
    rintro c s ⟨f', l', rfl, hat⟩
    obtain ⟨r, f'', l'', hr, hat'⟩ := fputc_at A c hat
    exact ⟨f'', l'', by simp [attempt, hr], hat'⟩
  obtain ⟨f', l', hr, hat⟩ := fwrite_keeps hput p size 0 nmemb b ⟨f, l, rfl, h⟩
  refine ⟨(Stdio.fwrite (fun c => attempt (fputc (entryFunctions A) c)) p size 0 nmemb b
    (.ok f)).1, f', l', ?_, hat⟩
  simp only [fwrite, hr, Except.map]

omit A in
theorem ungetc_at (c : ℤ) (h : At f l d e) : ∃ l', At (ungetc c f).2 l' d e := by
  by_cases hc : f.hold ≠ EOF ∨ c = EOF
  · exact ⟨l, by simpa [ungetc, hc] using h⟩
  · obtain ⟨hst, -, hd, he⟩ := h
    obtain ⟨hhold, hne⟩ := not_or.mp hc
    rw [held_eof (not_not.mp hhold)] at hd
    refine ⟨FilePosition.ahead { f with pos := f.pos - 1, hold := c }, ?_⟩
    simp only [ungetc, if_neg hc]
    refine ⟨hst, rfl, ?_, he⟩
    have hcur : cursor { f with pos := f.pos - 1, hold := c } = cursor f := rfl
    rw [hcur, held_char hne]
    simp only [List.length_cons, List.length_nil] at hd ⊢
    omega

end Calls

section Bookkeeping

variable {A : Realloc} {f g : FILE EntryStream} {l : List ℤ} {d : ℤ} {b e : Bool} {op : Op}

theorem At.kept (h : At g l 0 e) (hop : ∀ offset whence, op ≠ .fseek offset whence) :
    Kept op (g, e) := by
  refine ⟨?_, h.eof, fun offset whence heq => absurd heq (hop offset whence)⟩
  have hd := h.drift
  simp only [ftell]
  omega

theorem At.not_kept (h : At g l d e) (hd : d ≠ 0) : ¬Kept op (g, b) := by
  intro hk
  have hpos := hk.pos
  have hdrift := h.drift
  simp only [ftell] at hpos
  omega

/-- Where the bookkeeping is right and the end was not met. -/
def Even (s : FILE EntryStream × Bool) : Prop := s.2 = false ∧ ∃ l, At s.1 l 0 false

def Settles (f : FILE EntryStream) (op : Op) (t : FILE EntryStream × Bool) : Prop :=
  (Good f op ∧ Kept op t ∧ Even t) ∨ (¬Good f op ∧ ¬Kept op t)

theorem At.settles (hgood : Good f op) (h : At g l 0 false)
    (hop : ∀ offset whence, op ≠ .fseek offset whence) : Settles f op (g, false) :=
  .inl ⟨hgood, h.kept hop, rfl, l, h⟩

theorem At.breaks (hbad : ¬Good f op) (h : At g l d e) (hd : d ≠ 0) : Settles f op (g, b) :=
  .inr ⟨hbad, h.not_kept hd⟩

theorem fgetc_settles {r : Reply} (h : At f l 0 false)
    (hr : call (entryFunctions A) f .fgetc = .ok (r, g)) :
    Settles f .fgetc (g, ended f .fgetc b) := by
  have hl := h.ahead
  cases l with
  | nil =>
    obtain ⟨f', hf, hat⟩ := fgetc_nil A h
    simp only [call, hf, Except.map, Except.ok.injEq, Prod.mk.injEq] at hr
    obtain ⟨-, rfl⟩ := hr
    exact hat.breaks (by simp [Good, hl]) (by decide)
  | cons c l =>
    obtain ⟨f', hf, hat, -⟩ := fgetc_cons A h
    simp only [call, hf, Except.map, Except.ok.injEq, Prod.mk.injEq] at hr
    obtain ⟨-, rfl⟩ := hr
    have he : ended f .fgetc b = false := by simp [ended, ranOut, hl]
    rw [he]
    exact hat.settles (by simp [Good, hl]) nofun

theorem fread_settles {r : Reply} {size nmemb : ℕ} {b' : ℤ} (h : At f l 0 false)
    (hr : call (entryFunctions A) f (.fread size nmemb b') = .ok (r, g)) :
    Settles f (.fread size nmemb b') (g, ended f (.fread size nmemb b') b) := by
  have hl := h.ahead
  obtain ⟨p, f', hf, hi⟩ := fread_at A size nmemb b' h
  simp only [call, hf, Except.map, Except.ok.injEq, Prod.mk.injEq] at hr
  obtain ⟨-, rfl⟩ := hr
  by_cases hk : size * nmemb ≤ l.length
  · rw [if_pos hk] at hi
    obtain ⟨l', hat⟩ := hi
    have he : ended f (.fread size nmemb b') b = false := by
      simpa [ended, ranOut, hl] using hk
    rw [he]
    exact hat.settles (by simpa only [Good, hl] using hk) nofun
  · rw [if_neg hk] at hi
    exact hi.breaks (by simpa only [Good, hl] using hk) (by decide)

theorem fseek_settles {r : Reply} {offset whence : ℤ} (h : At f l 0 false)
    (hr : call (entryFunctions A) f (.fseek offset whence) = .ok (r, g)) :
    Settles f (.fseek offset whence) (g, ended f (.fseek offset whence) b) := by
  obtain ⟨⟨st, hs, hpos⟩, ha, hd, he⟩ := h
  have hcur : cursor f = st.data.pos := by simp [cursor, hs]
  simp only [call, fseek, hs, Except.map, Except.ok.injEq, Prod.mk.injEq] at hr
  obtain ⟨-, rfl⟩ := hr
  have hended : ended f (.fseek offset whence) b = false := rfl
  rw [hended]
  by_cases hgood : Good f (.fseek offset whence)
  · obtain ⟨hhold, rfl⟩ := hgood
    rw [held_eof hhold] at hd
    have hstay : { f with stream := some { st with
        data := (entryFunctions A).seek (cursor f) whence st.data } } = f := by
      rw [hcur]
      simp only [entryFunctions]
      rw [← hs]
    rw [hstay]
    refine .inl ⟨⟨hhold, rfl⟩, ⟨?_, he, fun _ _ _ => hhold⟩, rfl, l, ⟨st, hs, hpos⟩, ha, ?_, he⟩
    · show f.pos = cursor f - (held f).length
      rw [held_eof hhold]
      omega
    · rw [held_eof hhold]
      exact hd
  · refine .inr ⟨hgood, fun hk => hgood ?_⟩
    have hhold : f.hold = EOF := hk.discards offset whence rfl
    have hft : f.pos = offset - (held f).length := hk.pos
    rw [held_eof hhold] at hd hft
    exact ⟨hhold, by omega⟩

theorem step_settles {s t : FILE EntryStream × Bool} (hs : Even s) (h : Step A s op t) :
    Settles s.1 op t := by
  obtain ⟨f, b⟩ := s
  obtain ⟨g, b'⟩ := t
  obtain ⟨hb, l, hat⟩ := hs
  obtain ⟨hmoves, ⟨r, hr⟩, hended⟩ := h
  simp only at hb hr hended hat ⊢
  subst hb hended
  cases op with
  | fgetc => exact fgetc_settles hat hr
  | fread size nmemb b' => exact fread_settles hat hr
  | fseek offset whence => exact fseek_settles hat hr
  | ungetc c =>
    obtain ⟨l', hat'⟩ := ungetc_at c hat
    simp only [call, Except.ok.injEq, Prod.mk.injEq] at hr
    obtain ⟨-, rfl⟩ := hr
    have he : ended f (.ungetc c) false = false := by simp [ended]
    rw [he]
    exact hat'.settles trivial nofun
  | fgets n =>
    obtain ⟨_, f', l', d', e', hf, hat', hd⟩ := fgets_at A n hat
    simp only [call, hf, Except.map, Except.ok.injEq, Prod.mk.injEq] at hr
    obtain ⟨-, rfl⟩ := hr
    exact hat'.breaks id (by omega)
  | fputc c =>
    obtain ⟨_, f', l', hf, hat'⟩ := fputc_at A c hat
    simp only [call, hf, Except.map, Except.ok.injEq, Prod.mk.injEq] at hr
    obtain ⟨-, rfl⟩ := hr
    exact hat'.settles trivial nofun
  | fputs string =>
    obtain ⟨_, f', l', hf, hat'⟩ := fputs_at A string hat
    simp only [call, hf, Except.map, Except.ok.injEq, Prod.mk.injEq] at hr
    obtain ⟨-, rfl⟩ := hr
    exact hat'.breaks id (by decide)
  | fwrite p size nmemb b' =>
    obtain ⟨_, f', l', hf, hat'⟩ := fwrite_at A p size nmemb b' hat
    simp only [call, hf, Except.map, Except.ok.injEq, Prod.mk.injEq] at hr
    obtain ⟨-, rfl⟩ := hr
    exact hat'.settles trivial nofun
  | _ => exact hmoves.elim

theorem create_even (fs : Filesystem) (entry : ℕ) (ferr : ℤ) :
    Even (createFile ⟨⟨fs, entry, 0⟩, ferr⟩, false) :=
  ⟨rfl, _, ⟨⟨_, rfl, Int.le_refl 0⟩, rfl, rfl, rfl⟩⟩

end Bookkeeping

theorem position_kept_iff (A : Realloc) (fs : Filesystem) (entry : ℕ) (ferr : ℤ) (ops : List Op)
    (t : FILE EntryStream × Bool) :
    Run (fun s op t => Step A s op t ∧ Kept op t) (createFile ⟨⟨fs, entry, 0⟩, ferr⟩, false) ops t ↔
      Run (fun s op t => Step A s op t ∧ Good s.1 op)
        (createFile ⟨⟨fs, entry, 0⟩, ferr⟩, false) ops t := by
  refine Run.congr (P := Even) (fun s op t hs h => ?_) (fun s op t hs => ?_)
    (create_even fs entry ferr)
  · obtain ⟨-, -, heven⟩ | ⟨-, hnot⟩ := step_settles hs h.1
    · exact heven
    · exact absurd h.2 hnot
  · refine and_congr_right fun hstep => ?_
    obtain ⟨hgood, hkept, -⟩ | ⟨hbad, hnot⟩ := step_settles hs hstep
    · exact iff_of_true hkept hgood
    · exact iff_of_false hnot hbad

/-- `fputs` of one character moves the position by two. -/
theorem position_ahead :
    ∃ A fs entry ferr ops t, Run (Step A) (createFile ⟨⟨fs, entry, 0⟩, ferr⟩, false) ops t ∧
      ¬Run (fun s op t => Step A s op t ∧ Kept op t)
        (createFile ⟨⟨fs, entry, 0⟩, ferr⟩, false) ops t := by
  let A : Realloc := ⟨fun data _ _ => data⟩
  obtain ⟨-, l, hat⟩ := create_even Stdio.boot 0 0
  obtain ⟨r, f', l', hf, hat'⟩ := fputs_at A [0x61, 0] hat
  have hr : call (entryFunctions A) (createFile ⟨⟨Stdio.boot, 0, 0⟩, 0⟩) (.fputs [0x61, 0]) =
      .ok (.int r, f') := by
    simp only [call, hf, Except.map]
  have hstep : Step A (createFile ⟨⟨Stdio.boot, 0, 0⟩, 0⟩, false) (.fputs [0x61, 0]) (f', false) :=
    ⟨trivial, ⟨_, hr⟩, rfl⟩
  refine ⟨A, Stdio.boot, 0, 0, [.fputs [0x61, 0]], (f', false), Run.cons hstep (Run.nil _),
    fun h => ?_⟩
  cases h with
  | cons hst hrun =>
    cases hrun
    exact hat'.not_kept (by decide) hst.2

end Jiauliyan.FilePosition
