import Jiauliyan.FilePosition

namespace Jiauliyan.PendingBytes

open Jiauliyan.Memory Jiauliyan.FileOps
open Jiauliyan.Stdio (EOF byteOf byteOf_toNat Realloc Filesystem)

variable {σ : Type*}

section Blocks

variable (fn : Functions σ) (ptr size : ℕ)

def freadElement (i : ℕ) : ℕ → ℕ → ℤ → FILE σ × Mem → Except Fault (ℤ × FILE σ × Mem)
  | 0, _, b, s => .ok (b, s)
  | k + 1, j, _, (f, m) =>
    (fgetc fn f).bind fun (b, f') =>
      if b = EOF then .ok (b, f', m)
      else
        freadElement i k (j + 1) b
          (f', Function.update m (u32 (ptr + u32 (i * size + j))) (byteOf b))

def freadElements : ℕ → ℕ → ℤ → FILE σ × Mem → Except Fault (ℕ × FILE σ × Mem)
  | 0, i, _, s => .ok (i, s)
  | n + 1, i, b, s =>
    (freadElement fn ptr size i size 0 b s).bind fun (b', s') =>
      if b' = EOF then .ok (i, s') else freadElements n (i + 1) b' s'

def freadTo (nmemb : ℕ) (b : ℤ) (s : FILE σ × Mem) : Except Fault (ℕ × FILE σ × Mem) :=
  freadElements fn ptr size nmemb 0 b s

end Blocks

def stores (m : Mem) (p : ℕ) : ℕ → List UInt8 → Mem
  | _, [] => m
  | k, b :: l => stores (Function.update m (u32 (p + k)) b) p (k + 1) l

theorem stores_append (m : Mem) (p k : ℕ) (l l' : List UInt8) :
    stores m p k (l ++ l') = stores (stores m p k l) p (k + l.length) l' := by
  induction l generalizing m k with
  | nil => rfl
  | cons b l ih =>
    rw [List.cons_append, stores, ih, stores, List.length_cons, Nat.add_assoc, Nat.add_comm 1]

/-- The memory from `p` on is the bytes in order, and nothing else changes. -/
structure Stored (m m' : Mem) (p : ℕ) (l : List UInt8) : Prop where
  bytes : ∀ i b, l[i]? = some b → m' (u32 (p + i)) = b
  frame : ∀ x, (∀ i < l.length, x ≠ u32 (p + i)) → m' x = m x

theorem stores_frame (m : Mem) (p k : ℕ) (l : List UInt8) {x : ℕ}
    (hx : ∀ i < l.length, x ≠ u32 (p + (k + i))) : stores m p k l x = m x := by
  induction l generalizing m k with
  | nil => rfl
  | cons b l ih =>
    have hne : x ≠ u32 (p + k) := hx 0 (Nat.succ_pos _)
    rw [stores, ih, Function.update_of_ne hne]
    intro i hi
    have hne := hx (i + 1) (Nat.succ_lt_succ hi)
    rwa [show k + (i + 1) = k + 1 + i by omega] at hne

theorem stores_get (m : Mem) (p k : ℕ) {l : List UInt8} (hl : l.length ≤ 4294967296) {i : ℕ}
    {b : UInt8} (hb : l[i]? = some b) : stores m p k l (u32 (p + (k + i))) = b := by
  induction l generalizing m k i with
  | nil => cases hb
  | cons c l ih =>
    rw [List.length_cons] at hl
    rw [stores]
    cases i with
    | zero =>
      obtain rfl := Option.some.inj hb
      rw [stores_frame, Nat.add_zero, Function.update_self]
      intro i hi
      simp only [u32]
      omega
    | succ i =>
      rw [show k + (i + 1) = k + 1 + i by omega]
      exact ih _ _ (by omega) hb

theorem stores_stored (m : Mem) (p : ℕ) {l : List UInt8} (hl : l.length ≤ 4294967296) :
    Stored m (stores m p 0 l) p l := by
  refine ⟨fun i b hb => ?_, fun x hx => ?_⟩
  · have hget := stores_get m p 0 hl hb
    rwa [Nat.zero_add] at hget
  · apply stores_frame
    intro i hi
    rw [Nat.zero_add]
    exact hx i hi

section Blocks

variable (fn : Functions σ) (ptr size : ℕ)

theorem freadElement_eq (i k j : ℕ) (b : ℤ) (f : FILE σ) (m : Mem) :
    freadElement fn ptr size i k j b (f, m) =
      (Stdio.freadItem (attempt (fgetc fn)) k b (.ok f)).2.2.map fun f' =>
        ((Stdio.freadItem (attempt (fgetc fn)) k b (.ok f)).1, f',
          stores m ptr (i * size + j) (Stdio.freadItem (attempt (fgetc fn)) k b (.ok f)).2.1) := by
  induction k generalizing j b f m with
  | zero => rfl
  | succ k ih =>
    rw [freadElement, Stdio.freadItem, attempt]
    cases fgetc fn f with
    | error e => rfl
    | ok r =>
      obtain ⟨b', f'⟩ := r
      simp only [Except.bind]
      by_cases hb : b' = EOF
      · rw [if_pos hb, if_pos hb]
        rfl
      · have hplace : u32 (ptr + u32 (i * size + j)) = u32 (ptr + (i * size + j)) :=
          Nat.add_mod_mod ptr _ _
        rw [if_neg hb, if_neg hb, ih, hplace]
        rfl

theorem freadItem_length (get : Except Fault (FILE σ) → ℤ × Except Fault (FILE σ)) {k : ℕ}
    {b : ℤ} {s : Except Fault (FILE σ)} (h : (Stdio.freadItem get k b s).1 ≠ EOF) :
    (Stdio.freadItem get k b s).2.1.length = k := by
  induction k generalizing b s with
  | zero => rfl
  | succ k ih =>
    rw [Stdio.freadItem] at h ⊢
    by_cases hb : (get s).1 = EOF
    · simp [hb] at h
    · simp only [hb, if_false, List.length_cons] at h ⊢
      rw [ih h]

theorem freadItem_fault {k : ℕ} {b : ℤ} {f : FILE σ} (e : Fault)
    (h : (Stdio.freadItem (attempt (fgetc fn)) k b (.ok f)).2.2 = .error e) :
    (Stdio.freadItem (attempt (fgetc fn)) k b (.ok f)).1 = EOF := by
  induction k generalizing b f with
  | zero => cases h
  | succ k ih =>
    rw [Stdio.freadItem, attempt] at h ⊢
    cases hget : fgetc fn f with
    | error e' => rfl
    | ok r =>
      obtain ⟨b', f'⟩ := r
      rw [hget] at h
      simp only at h ⊢
      by_cases hb : b' = EOF
      · rw [if_pos hb] at h
        cases h
      · rw [if_neg hb] at h ⊢
        exact ih h

theorem freadElements_eq (n i : ℕ) (b : ℤ) (f : FILE σ) (m : Mem) :
    freadElements fn ptr size n i b (f, m) =
      (Stdio.fread (attempt (fgetc fn)) size n b (.ok f)).2.2.map fun f' =>
        (i + (Stdio.fread (attempt (fgetc fn)) size n b (.ok f)).1, f',
          stores m ptr (i * size) (Stdio.fread (attempt (fgetc fn)) size n b (.ok f)).2.1) := by
  induction n generalizing i b f m with
  | zero => rfl
  | succ n ih =>
    rw [freadElements, freadElement_eq, Nat.add_zero, Stdio.fread]
    have hfull := freadItem_length (attempt (fgetc fn)) (k := size) (b := b) (s := .ok f)
    have hfault := freadItem_fault fn (k := size) (b := b) (f := f)
    generalize Stdio.freadItem (attempt (fgetc fn)) size b (.ok f) = r at hfull hfault
    obtain ⟨b', p, s⟩ := r
    cases s with
    | error e =>
      obtain rfl : b' = EOF := hfault e rfl
      rfl
    | ok f' =>
      simp only [Except.map, Except.bind]
      by_cases hb : b' = EOF
      · rw [if_pos hb, if_pos hb]
        rfl
      · rw [if_neg hb, if_neg hb, ih]
        simp only [stores_append, hfull hb, Nat.succ_mul, Nat.add_assoc, Nat.add_comm 1]
        rfl

theorem freadTo_eq (nmemb : ℕ) (b : ℤ) (f : FILE σ) (m : Mem) :
    freadTo fn ptr size nmemb b (f, m) =
      (fread fn size nmemb b f).map fun r => (r.1.1, r.2, stores m ptr 0 r.1.2) := by
  rw [freadTo, freadElements_eq, Nat.zero_mul, fread]
  simp only [Nat.zero_add]
  cases (Stdio.fread (attempt (fgetc fn)) size nmemb b (.ok f)).2.2 with
  | error e => rfl
  | ok f' => rfl

end Blocks

/-- The bytes that are left to read, and whether the first of them is held back. -/
structure Pending where
  bytes : List UInt8
  held : Bool

/-- Without its first `n` bytes. -/
def Pending.drop (p : Pending) (n : ℕ) : Pending := ⟨p.bytes.drop n, p.held && n == 0⟩

inductive Call
  | fgetc
  | ungetc (c : UInt8)
  | fread (ptr size nmemb : ℕ) (b : ℤ) (pos : 1 ≤ size) (fits : size * nmemb < 4294967296)

inductive Does : Pending × Mem → Call → ℤ → Pending × Mem → Prop
  | fgetc_end {p : Pending} {m : Mem} (h : p.bytes = []) : Does (p, m) .fgetc EOF (p, m)
  | fgetc_head {p : Pending} {m : Mem} {b : UInt8} {l : List UInt8} (h : p.bytes = b :: l) :
      Does (p, m) .fgetc b.toNat (p.drop 1, m)
  | ungetc_free {p : Pending} {m : Mem} {c : UInt8} (h : p.held = false) :
      Does (p, m) (.ungetc c) c.toNat (⟨c :: p.bytes, true⟩, m)
  | ungetc_held {p : Pending} {m : Mem} {c : UInt8} (h : p.held = true) :
      Does (p, m) (.ungetc c) EOF (p, m)
  | fread {p : Pending} {m m' : Mem} {ptr size nmemb n : ℕ} {b : ℤ} {pos : 1 ≤ size}
      {fits : size * nmemb < 4294967296} (h : n = min (size * nmemb) p.bytes.length)
      (stored : Stored m m' ptr (p.bytes.take n)) :
      Does (p, m) (.fread ptr size nmemb b pos fits) (n / size : ℕ) (p.drop n, m')

inductive Runs : Pending × Mem → List Call → List ℤ → Pending × Mem → Prop
  | nil {s : Pending × Mem} : Runs s [] [] s
  | cons {s t u : Pending × Mem} {c : Call} {cs : List Call} {r : ℤ} {rs : List ℤ}
      (first : Does s c r t) (later : Runs t cs rs u) : Runs s (c :: cs) (r :: rs) u

def call (fn : Functions σ) : Call → FILE σ × Mem → Except Fault (ℤ × FILE σ × Mem)
  | .fgetc, (f, m) => (fgetc fn f).map fun r => (r.1, r.2, m)
  | .ungetc c, (f, m) => .ok ((ungetc c.toNat f).1, (ungetc c.toNat f).2, m)
  | .fread ptr size nmemb b _ _, s => (freadTo fn ptr size nmemb b s).map fun r => (r.1, r.2)

def calls (fn : Functions σ) : List Call → FILE σ × Mem → Except Fault (List ℤ × FILE σ × Mem)
  | [], s => .ok ([], s)
  | c :: cs, s =>
    (call fn c s).bind fun r => (calls fn cs r.2).map fun rs => (r.1 :: rs.1, rs.2)

/-- What `get` does to the bytes that a stream has left. -/
structure Source (fn : Functions σ) where
  Left : σ → List UInt8 → Prop
  get_nil : ∀ {s}, Left s [] → ∃ s', fn.get s = some (EOF, s') ∧ Left s' []
  get_cons : ∀ {s b l}, Left s (b :: l) → ∃ s', fn.get s = some ((b.toNat : ℤ), s') ∧ Left s' l

section Reading

variable {fn : Functions σ} (src : Source fn) {f : FILE σ} {p : Pending} {l : List UInt8}
  {b : UInt8}

/-- A file with its bytes ahead. -/
inductive Open (f : FILE σ) : Pending → Prop
  | free {st : StreamS σ} {l : List UInt8} (stream : f.stream = some st) (hold : f.hold = EOF)
      (left : src.Left st.data l) : Open f ⟨l, false⟩
  | held {st : StreamS σ} {b : UInt8} {l : List UInt8} (stream : f.stream = some st)
      (hold : f.hold = b.toNat) (left : src.Left st.data l) : Open f ⟨b :: l, true⟩

theorem toNat_ne_eof (b : UInt8) : (b.toNat : ℤ) ≠ EOF := by
  rw [EOF]
  omega

variable {src}

theorem drop_one_bytes (hp : p.bytes = b :: l) : (p.drop 1).bytes = l := by
  rw [Pending.drop, hp, List.drop_one, List.tail_cons]

theorem drop_zero (p : Pending) : p.drop 0 = p := by
  rw [Pending.drop, List.drop_zero, beq_self_eq_true, Bool.and_true]

theorem drop_drop (p : Pending) (m n : ℕ) : (p.drop m).drop n = p.drop (m + n) := by
  simp only [Pending.drop, List.drop_drop, Bool.and_assoc, Pending.mk.injEq, true_and]
  cases m with
  | zero => simp
  | succ m =>
    have hne : (m + 1 + n == 0) = false := by simp
    simp [hne]

theorem drop_past {n : ℕ} (h : p.bytes.length < n) : p.drop n = ⟨[], false⟩ := by
  have hne : (n == 0) = false := beq_false_of_ne (Nat.ne_zero_of_lt h)
  rw [Pending.drop, List.drop_of_length_le h.le, hne, Bool.and_false]

theorem Open.stream_some (h : Open src f p) : ∃ st, f.stream = some st := by
  cases h with
  | free hst hhold hleft => exact ⟨_, hst⟩
  | held hst hhold hleft => exact ⟨_, hst⟩

theorem Open.drop_nil (h : Open src f p) (hp : p.bytes = []) (n : ℕ) : p.drop n = p := by
  cases h with
  | free hst hhold hleft =>
    obtain rfl := hp
    rw [Pending.drop, List.drop_nil, Bool.false_and]
  | held hst hhold hleft => cases hp

theorem Open.drop_min (h : Open src f p) (n : ℕ) : p.drop (min n p.bytes.length) = p.drop n := by
  obtain hle | hlt := le_or_gt n p.bytes.length
  · rw [min_eq_left hle]
  · rw [min_eq_right hlt.le]
    by_cases hp : p.bytes = []
    · rw [h.drop_nil hp, h.drop_nil hp]
    · have hne : (p.bytes.length == 0) = false :=
        beq_false_of_ne fun h0 => hp (List.eq_nil_of_length_eq_zero h0)
      rw [drop_past hlt, Pending.drop, List.drop_length, hne, Bool.and_false]

theorem fgetc_head (h : Open src f p) (hp : p.bytes = b :: l) :
    ∃ f', fgetc fn f = .ok ((b.toNat : ℤ), f') ∧ Open src f' (p.drop 1) := by
  cases h with
  | @free st _ hst hhold hleft =>
    obtain rfl := hp
    obtain ⟨s', hget, hleft'⟩ := src.get_cons hleft
    refine ⟨{ f with
      pos := f.pos + 1
      stream := some { st with data := s' }
      eof := f.eof || (b.toNat : ℤ) == EOF }, ?_, .free rfl hhold hleft'⟩
    simp [fgetc, hst, hhold, streamGet, hget, Except.map]
  | held hst hhold hleft =>
    obtain ⟨rfl, rfl⟩ := List.cons.inj hp
    refine ⟨{ f with pos := f.pos + 1, hold := EOF }, ?_, .free hst rfl hleft⟩
    simp [fgetc, hst, hhold, toNat_ne_eof]

theorem fgetc_end (h : Open src f p) (hp : p.bytes = []) :
    ∃ f', fgetc fn f = .ok (EOF, f') ∧ Open src f' p := by
  cases h with
  | @free st _ hst hhold hleft =>
    obtain rfl := hp
    obtain ⟨s', hget, hleft'⟩ := src.get_nil hleft
    refine ⟨{ f with pos := f.pos + 1, stream := some { st with data := s' }, eof := true }, ?_,
      .free rfl hhold hleft'⟩
    simp [fgetc, hst, hhold, streamGet, hget, Except.map]
  | held hst hhold hleft => cases hp

theorem ungetc_free (h : Open src f p) (hp : p.held = false) (c : UInt8) :
    (ungetc c.toNat f).1 = c.toNat ∧ Open src (ungetc c.toNat f).2 ⟨c :: p.bytes, true⟩ := by
  cases h with
  | free hst hhold hleft =>
    rw [ungetc, if_neg (not_or.mpr ⟨not_not.mpr hhold, toNat_ne_eof c⟩)]
    exact ⟨rfl, .held hst rfl hleft⟩
  | held hst hhold hleft => cases hp

theorem ungetc_held (h : Open src f p) (hp : p.held = true) (c : UInt8) :
    ungetc c.toNat f = (EOF, f) := by
  cases h with
  | free hst hhold hleft => cases hp
  | @held st b' _ hst hhold hleft =>
    rw [ungetc, if_pos (.inl (hhold ▸ toNat_ne_eof b'))]

theorem freadItem_open (h : Open src f p) (k : ℕ) (b : ℤ) :
    ∃ b' f', Stdio.freadItem (attempt (fgetc fn)) k b (.ok f) = (b', p.bytes.take k, .ok f') ∧
      Open src f' (p.drop k) ∧ (0 < k → (b' = EOF ↔ p.bytes.length < k)) := by
  induction k generalizing f p b with
  | zero =>
    refine ⟨b, f, rfl, ?_, fun h => absurd h (Nat.lt_irrefl 0)⟩
    rwa [drop_zero]
  | succ k ih =>
    cases hp : p.bytes with
    | nil =>
      obtain ⟨f', hf, hopen⟩ := fgetc_end h hp
      refine ⟨EOF, f', ?_, ?_, fun _ => iff_of_true rfl (Nat.succ_pos k)⟩
      · simp [Stdio.freadItem, attempt, hf]
      · rwa [hopen.drop_nil hp]
    | cons c l =>
      obtain ⟨f', hf, hopen⟩ := fgetc_head h hp
      obtain ⟨b', f'', hr, hopen', hend⟩ := ih hopen c.toNat
      rw [drop_drop, Nat.add_comm 1] at hopen'
      rw [drop_one_bytes hp] at hr hend
      refine ⟨b', f'', ?_, hopen', fun _ => ?_⟩
      · simp [Stdio.freadItem, attempt, hf, toNat_ne_eof, hr, byteOf_toNat]
      · obtain rfl | hk := Nat.eq_zero_or_pos k
        · -- the last character read is the one before
          obtain rfl : b' = c.toNat := congrArg Prod.fst hr.symm
          exact iff_of_false (toNat_ne_eof c) (by rw [List.length_cons]; omega)
        · rw [hend hk, List.length_cons, Nat.succ_lt_succ_iff]

theorem fread_open (h : Open src f p) {size : ℕ} (hsize : 1 ≤ size) (nmemb : ℕ) (b : ℤ) :
    ∃ f', Stdio.fread (attempt (fgetc fn)) size nmemb b (.ok f) =
        (min (size * nmemb) p.bytes.length / size, p.bytes.take (size * nmemb), .ok f') ∧
      Open src f' (p.drop (size * nmemb)) := by
  induction nmemb generalizing f p b with
  | zero =>
    refine ⟨f, ?_, ?_⟩
    · rw [Stdio.fread, Nat.mul_zero, Nat.zero_min, Nat.zero_div, List.take_zero]
    · rwa [Nat.mul_zero, drop_zero]
  | succ nmemb ih =>
    obtain ⟨b', f', hr, hopen, hend⟩ := freadItem_open h size b
    have hmul : size * (nmemb + 1) = size + size * nmemb := by
      rw [Nat.mul_succ, Nat.add_comm]
    by_cases hlt : p.bytes.length < size
    · -- the element is broken off
      have hlong : p.bytes.length < size * (nmemb + 1) := by omega
      have hb : b' = EOF := (hend hsize).mpr hlt
      refine ⟨f', ?_, ?_⟩
      · rw [min_eq_right hlong.le, Nat.div_eq_of_lt hlt, List.take_of_length_le hlong.le,
          Stdio.fread, hr, List.take_of_length_le hlt.le]
        exact if_pos hb
      · rwa [drop_past hlong, ← drop_past hlt]
    · obtain ⟨f'', hr', hopen'⟩ := ih hopen b'
      have hb : b' ≠ EOF := fun h => hlt ((hend hsize).mp h)
      refine ⟨f'', ?_, ?_⟩
      · have hlen : (p.drop size).bytes.length = p.bytes.length - size := List.length_drop
        have hcount : min (size * (nmemb + 1)) p.bytes.length / size =
            min (size * nmemb) (p.bytes.length - size) / size + 1 := by
          rw [← Nat.add_div_right _ hsize]
          congr 1
          omega
        rw [Stdio.fread, hr]
        simp only [if_neg hb, hr', hlen]
        rw [hcount, hmul, List.take_add]
        rfl
      · rwa [hmul, ← drop_drop]

theorem call_does (h : Open src f p) (m : Mem) (c : Call) :
    ∃ r f' m' q, call fn c (f, m) = .ok (r, f', m') ∧ Does (p, m) c r (q, m') ∧
      Open src f' q := by
  cases c with
  | fgetc =>
    cases hp : p.bytes with
    | nil =>
      obtain ⟨f', hf, hopen⟩ := fgetc_end h hp
      exact ⟨EOF, f', m, p, by rw [call, hf]; rfl, .fgetc_end hp, hopen⟩
    | cons b l =>
      obtain ⟨f', hf, hopen⟩ := fgetc_head h hp
      exact ⟨b.toNat, f', m, _, by rw [call, hf]; rfl, .fgetc_head hp, hopen⟩
  | ungetc c =>
    cases hp : p.held with
    | false =>
      obtain ⟨hr, hopen⟩ := ungetc_free h hp c
      exact ⟨c.toNat, _, m, _, by rw [call, hr], .ungetc_free hp, hopen⟩
    | true =>
      exact ⟨EOF, f, m, p, by rw [call, ungetc_held h hp], .ungetc_held hp, h⟩
  | fread ptr size nmemb b hsize hfits =>
    obtain ⟨f', hr, hopen⟩ := fread_open h hsize nmemb b
    have hlen : (p.bytes.take (size * nmemb)).length ≤ 4294967296 :=
      (List.length_take_le _ _).trans hfits.le
    have hstored := stores_stored m ptr hlen
    rw [List.take_eq_take_min] at hstored
    refine ⟨_, f', _, _, ?_, .fread rfl hstored, ?_⟩
    · rw [call, freadTo_eq, fread, hr, List.take_eq_take_min]
      rfl
    · rwa [h.drop_min]

end Reading

def entryBytes (s : EntryStream) : List UInt8 :=
  (List.range ((s.fs.entries s.entry).size - s.pos.toNat)).map fun i =>
    (s.fs.entries s.entry).data (s.pos.toNat + i)

def entrySource (A : Realloc) : Source (entryFunctions A) where
  Left s l := 0 ≤ s.pos ∧ FilePosition.rest s = l.map fun b => (b.toNat : ℤ)
  get_nil h := ⟨_, FilePosition.get_nil A h.1 h.2, h⟩
  get_cons h :=
    have hget := FilePosition.get_cons A h.1 h.2
    ⟨_, hget.1, Int.add_nonneg h.1 (by decide), hget.2.1⟩

theorem create_open (A : Realloc) (fs : Filesystem) (entry pos : ℕ) (ferr : ℤ) :
    Open (entrySource A) (createFile ⟨⟨fs, entry, pos⟩, ferr⟩)
      ⟨entryBytes ⟨fs, entry, pos⟩, false⟩ := by
  refine .free rfl rfl ⟨Int.natCast_nonneg pos, ?_⟩
  rw [FilePosition.rest, entryBytes, List.map_map]
  rfl

/-- Whatever calls are made, they do to the bytes ahead what they do to a list. -/
theorem calls_run {fn : Functions σ} {src : Source fn} {f : FILE σ} {p : Pending}
    (h : Open src f p) (m : Mem) (cs : List Call) :
    ∃ rs f' m' q, calls fn cs (f, m) = .ok (rs, f', m') ∧ Runs (p, m) cs rs (q, m') ∧
      Open src f' q := by
  induction cs generalizing f p m with
  | nil => exact ⟨[], f, m, p, rfl, .nil, h⟩
  | cons c cs ih =>
    obtain ⟨r, f', m', q, hc, hdoes, hopen⟩ := call_does h m c
    obtain ⟨rs, f'', m'', q', hcs, hruns, hopen'⟩ := ih hopen m'
    refine ⟨r :: rs, f'', m'', q', ?_, .cons hdoes hruns, hopen'⟩
    rw [calls, hc]
    simp only [Except.bind, hcs]
    rfl

theorem calls_run_file :
    let A : Realloc := ⟨fun data _ _ => data⟩
    let fs : Filesystem := { Stdio.boot with entries := fun _ => ⟨[], fun _ => 255, 3, 1024⟩ }
    ∃ rs f' m' q, calls (entryFunctions A)
        [.fread 16 2 2 0 (by decide) (by decide), .fgetc, .ungetc 9, .fgetc]
        (createFile ⟨⟨fs, 0, 0⟩, 0⟩, fun _ => 0) = .ok (rs, f', m') ∧
      Runs (⟨[255, 255, 255], false⟩, fun _ => 0)
        [.fread 16 2 2 0 (by decide) (by decide), .fgetc, .ungetc 9, .fgetc] rs (q, m') ∧
      Open (entrySource A) f' q := by
  intro A fs
  exact calls_run (create_open A fs 0 0 0) _ _

end Jiauliyan.PendingBytes
