import Jiauliyan.Execution
import Jiauliyan.FileOps

namespace Jiauliyan.ClosedFile

open Jiauliyan.Execution Jiauliyan.StringCompare Jiauliyan.FileOps
open Jiauliyan.Stdio (EOF byteOf fread_keeps fwrite_keeps)

variable {σ : Type*} (fn : Functions σ)

def next (f : FILE σ) (op : Op) : Option (FILE σ) :=
  match call fn f op with
  | .error _ => none
  | .ok (_, f') => some f'

def Failed : Op → Reply → Prop
  | .fclose, .int r | .fgetc, .int r | .fputc _, .int r | .fputs _, .int r | .ungetc _, .int r =>
    r = EOF
  | .fgets _, .string s => s = none
  | .fread _ _ _, .block n _ => n = 0
  | .fwrite _ _ _ _, .count n => n = 0
  | .fseek _ _, .int r | .ferror, .int r => r ≠ 0
  | .ftell, .int r => r = -1
  | .fgetpos, .position r _ => r = EOF
  | .feof, _ | .clearerr, _ => True
  | .vfprintf _, .int r => r < 0
  | _, _ => False

def NullSafe {α : Type*} (x : Except Fault α) : Prop := ∀ e, x = .error e → e ≠ .nullStream

def Sound (f : FILE σ) (op : Op) : Prop :=
  NullSafe (call fn f op) ∧
    (f.stream = none → ∀ r f', call fn f op = .ok (r, f') → Failed op r)

def Borne (f : FILE σ) : Op → Prop
  | .fread size nmemb b | .fwrite _ size nmemb b => nmemb = 0 ∨ 0 < size ∨ b = EOF
  | .ungetc c => f.hold ≠ EOF ∨ c = EOF
  | .ftell => f.pos = -1
  | .fseek _ _ | .ferror | .clearerr => False
  | .vfprintf a => a.output.bytes = [] ∧ a.output.fault = true
  | _ => True

def Spares (f : FILE σ) (op : Op) : Prop := f.stream = none → Borne f op

theorem NullSafe.ok {α : Type*} (a : α) : NullSafe (.ok a) := nofun

theorem NullSafe.error {α : Type*} {e : Fault} (h : e ≠ .nullStream) :
    NullSafe (.error e : Except Fault α) := by
  intro e' he
  cases he
  exact h

theorem NullSafe.bind {α β : Type*} {x : Except Fault α} {k : α → Except Fault β}
    (hx : NullSafe x) (hk : ∀ a, NullSafe (k a)) : NullSafe (x.bind k) := by
  cases x with
  | error e => exact NullSafe.error (hx e rfl)
  | ok a => exact hk a

theorem NullSafe.map {α β : Type*} {x : Except Fault α} (hx : NullSafe x) (g : α → β) :
    NullSafe (x.map g) := by
  cases x with
  | error e => exact NullSafe.error (hx e rfl)
  | ok a => exact NullSafe.ok (g a)

theorem streamPutchar_safe (c : UInt8) (st : StreamS σ) : NullSafe (streamPutchar fn c st) := by
  unfold streamPutchar
  cases fn.put c st.data with
  | none => exact NullSafe.error nofun
  | some data => exact NullSafe.ok _

theorem streamPutstring_safe (s : Chars) (st : StreamS σ) :
    NullSafe (streamPutstring fn s st) := by
  induction s generalizing st with
  | nil => exact NullSafe.ok st
  | cons c s ih => exact (streamPutchar_safe fn c st).bind ih

theorem fgetc_safe (f : FILE σ) : NullSafe (fgetc fn f) := by
  unfold fgetc
  cases f.stream with
  | none => exact NullSafe.ok _
  | some st =>
    by_cases hh : f.hold ≠ EOF
    · simp only [if_pos hh]
      exact NullSafe.ok _
    · simp only [if_neg hh]
      refine NullSafe.map ?_ _
      unfold streamGet
      cases fn.get st.data with
      | none => exact NullSafe.error nofun
      | some r => exact NullSafe.ok _

theorem fgetsLoop_safe (k : ℕ) (c : ℤ) (f : FILE σ) : NullSafe (fgetsLoop fn k c f) := by
  induction k generalizing c f with
  | zero => exact NullSafe.ok _
  | succ k ih =>
    rw [fgetsLoop]
    split_ifs
    · exact NullSafe.ok _
    · refine (fgetc_safe fn f).bind fun r => ?_
      simp only
      split_ifs
      · exact NullSafe.ok _
      · exact (ih r.1 r.2).map _

theorem fgets_safe (n : ℤ) (f : FILE σ) : NullSafe (fgets fn n f) := by
  unfold fgets
  cases f.stream with
  | none => exact NullSafe.ok _
  | some st => exact (fgetsLoop_safe fn n.toNat EOF _).map _

theorem fputc_safe (c : ℤ) (f : FILE σ) : NullSafe (fputc fn c f) := by
  unfold fputc
  cases f.stream with
  | none => exact NullSafe.ok _
  | some st => exact (streamPutchar_safe fn (byteOf c) st).map _

theorem fputs_safe (string : Chars) (f : FILE σ) : NullSafe (fputs fn string f) := by
  unfold fputs
  cases f.stream with
  | none => exact NullSafe.ok _
  | some st => exact (streamPutstring_safe fn (content string) st).map _

theorem attempt_safe {op : FILE σ → Except Fault (ℤ × FILE σ)} (hop : ∀ f, NullSafe (op f))
    {s : Except Fault (FILE σ)} (hs : NullSafe s) : NullSafe (attempt op s).2 := by
  cases s with
  | error e => exact hs
  | ok f =>
    have hf := hop f
    rw [attempt]
    cases hr : op f with
    | error e => exact NullSafe.error (hf e hr)
    | ok r => exact NullSafe.ok _

theorem fread_safe (size nmemb : ℕ) (b : ℤ) (f : FILE σ) :
    NullSafe (fread fn size nmemb b f) :=
  NullSafe.map (fread_keeps (P := NullSafe) (fun _ hs => attempt_safe (fgetc_safe fn) hs)
    size nmemb b (NullSafe.ok f)) _

theorem fwrite_safe (p : ℕ → UInt8) (size nmemb : ℕ) (b : ℤ) (f : FILE σ) :
    NullSafe (fwrite fn p size nmemb b f) :=
  NullSafe.map (fwrite_keeps (P := NullSafe) (fun c _ hs => attempt_safe (fputc_safe fn c) hs)
    p size 0 nmemb b (NullSafe.ok f)) _

theorem call_open {f : FILE σ} {st : StreamS σ} (h : f.stream = some st) (op : Op) :
    NullSafe (call fn f op) := by
  cases op with
  | fgetc => exact (fgetc_safe fn f).map _
  | fgets n => exact (fgets_safe fn n f).map _
  | fread size nmemb b => exact (fread_safe fn size nmemb b f).map _
  | fputc c => exact (fputc_safe fn c f).map _
  | fputs string => exact (fputs_safe fn string f).map _
  | fwrite p size nmemb b => exact (fwrite_safe fn p size nmemb b f).map _
  | fseek offset whence =>
    simp only [call, fseek, h]
    exact NullSafe.ok _
  | ferror =>
    simp only [call, ferror, h]
    exact NullSafe.ok _
  | clearerr =>
    simp only [call, clearerr, h]
    exact NullSafe.ok _
  | vfprintf a =>
    simp only [call, vfprintf, h]
    refine NullSafe.map ((streamPutstring_safe fn a.output.bytes st).bind fun st' => ?_) _
    split_ifs
    · exact NullSafe.error nofun
    · exact NullSafe.ok _
  | _ => exact NullSafe.ok _

section Dead

variable {τ : Type*}

theorem fread_dead {get : τ → ℤ × τ} {s : τ} (h : get s = (EOF, s)) (size nmemb : ℕ) (b : ℤ) :
    Stdio.fread get size nmemb b s =
      (if nmemb = 0 ∨ 0 < size ∨ b = EOF then 0 else nmemb, [], s) := by
  induction nmemb with
  | zero => rfl
  | succ nmemb ih =>
    cases size with
    | zero =>
      by_cases hb : b = EOF
      · simp [Stdio.fread, Stdio.freadItem, hb]
      · have hn : (if nmemb = 0 then 0 else nmemb) = nmemb := by
          split_ifs with h0
          · exact h0.symm
          · rfl
        simp [Stdio.fread, Stdio.freadItem, hb, ih, hn]
    | succ size => simp [Stdio.fread, Stdio.freadItem, h]

theorem fwrite_dead {put : ℤ → τ → ℤ × τ} {s : τ} (h : ∀ c, put c s = (EOF, s)) (p : ℕ → UInt8)
    (size i nmemb : ℕ) (b : ℤ) :
    Stdio.fwrite put p size i nmemb b s =
      (if nmemb = 0 ∨ 0 < size ∨ b = EOF then i else i + nmemb, s) := by
  induction nmemb generalizing i with
  | zero => rfl
  | succ nmemb ih =>
    cases size with
    | zero =>
      by_cases hb : b = EOF
      · simp [Stdio.fwrite, Stdio.fwriteItem, hb]
      · have hn : (if nmemb = 0 then i + 1 else i + 1 + nmemb) = i + (nmemb + 1) := by
          split_ifs <;> omega
        simp [Stdio.fwrite, Stdio.fwriteItem, hb, ih, hn]
    | succ size => simp [Stdio.fwrite, Stdio.fwriteItem, h]

end Dead

theorem sound_ok {f f' : FILE σ} {op : Op} {r : Reply} (h : f.stream = none)
    (hc : call fn f op = .ok (r, f')) : Sound fn f op ↔ Failed op r := by
  rw [Sound, hc]
  constructor
  · exact fun hs => hs.2 h r f' rfl
  · intro hr
    refine ⟨NullSafe.ok _, fun _ r' f'' he => ?_⟩
    cases he
    exact hr

theorem sound_error {f : FILE σ} {op : Op} {e : Fault} (hc : call fn f op = .error e) :
    Sound fn f op ↔ e ≠ .nullStream := by
  rw [Sound, hc]
  exact ⟨fun hs => hs.1 e rfl, fun he => ⟨NullSafe.error he, nofun⟩⟩

theorem sound_null {f : FILE σ} {op : Op} (hc : call fn f op = .error .nullStream) :
    ¬Sound fn f op := fun hs => (sound_error fn hc).mp hs rfl

theorem dead_zero {size nmemb : ℕ} {b : ℤ} :
    (if nmemb = 0 ∨ 0 < size ∨ b = EOF then 0 else nmemb) = 0 ↔
      nmemb = 0 ∨ 0 < size ∨ b = EOF := by
  constructor
  · intro h0
    split_ifs at h0 with hc
    · exact hc
    · exact Or.inl h0
  · exact fun hc => if_pos hc

theorem sound_closed {f : FILE σ} (h : f.stream = none) (op : Op) :
    Sound fn f op ↔ Borne f op := by
  cases op with
  | fclose =>
    have hc : call fn f .fclose = .ok (.int EOF, f) := by simp [call, fclose, h]
    exact (sound_ok fn h hc).trans (iff_of_true rfl trivial)
  | fgetc =>
    have hc : call fn f .fgetc = .ok (.int EOF, f) := by simp [call, fgetc, h, Except.map]
    exact (sound_ok fn h hc).trans (iff_of_true rfl trivial)
  | fgets n =>
    have hc : call fn f (.fgets n) = .ok (.string none, f) := by simp [call, fgets, h, Except.map]
    exact (sound_ok fn h hc).trans (iff_of_true rfl trivial)
  | fread size nmemb b =>
    have hget : attempt (fgetc fn) (.ok f) = (EOF, .ok f) := by simp [attempt, fgetc, h]
    have hc : call fn f (.fread size nmemb b) =
        .ok (.block (if nmemb = 0 ∨ 0 < size ∨ b = EOF then 0 else nmemb) [], f) := by
      simp only [call, fread, fread_dead hget, Except.map]
    exact (sound_ok fn h hc).trans dead_zero
  | fputc c =>
    have hc : call fn f (.fputc c) = .ok (.int EOF, f) := by simp [call, fputc, h, Except.map]
    exact (sound_ok fn h hc).trans (iff_of_true rfl trivial)
  | fputs string =>
    have hc : call fn f (.fputs string) = .ok (.int EOF, f) := by simp [call, fputs, h, Except.map]
    exact (sound_ok fn h hc).trans (iff_of_true rfl trivial)
  | fwrite p size nmemb b =>
    have hput (c : ℤ) : attempt (fputc fn c) (.ok f) = (EOF, .ok f) := by simp [attempt, fputc, h]
    have hc : call fn f (.fwrite p size nmemb b) =
        .ok (.count (if nmemb = 0 ∨ 0 < size ∨ b = EOF then 0 else nmemb), f) := by
      simp only [call, fwrite, fwrite_dead hput, Except.map, Nat.zero_add]
    exact (sound_ok fn h hc).trans dead_zero
  | ungetc c =>
    by_cases hr : f.hold ≠ EOF ∨ c = EOF
    · have hc : call fn f (.ungetc c) = .ok (.int EOF, f) := by simp only [call, ungetc, if_pos hr]
      exact (sound_ok fn h hc).trans (iff_of_true rfl hr)
    · have hc : call fn f (.ungetc c) = .ok (.int c, { f with pos := f.pos - 1, hold := c }) := by
        simp only [call, ungetc, if_neg hr]
      exact (sound_ok fn h hc).trans (iff_of_false (fun he => hr (Or.inr he)) hr)
  | fseek offset whence =>
    have hc : call fn f (.fseek offset whence) = .error .nullStream := by
      simp [call, fseek, h, Except.map]
    exact iff_of_false (sound_null fn hc) id
  | ftell =>
    have hc : call fn f .ftell = .ok (.int f.pos, f) := rfl
    exact sound_ok fn h hc
  | fgetpos =>
    have hc : call fn f .fgetpos = .ok (.position EOF none, f) := by simp [call, fgetpos, h]
    exact (sound_ok fn h hc).trans (iff_of_true rfl trivial)
  | feof =>
    have hc : call fn f .feof = .ok (.flag f.eof, f) := rfl
    exact (sound_ok fn h hc).trans (iff_of_true trivial trivial)
  | ferror =>
    have hc : call fn f .ferror = .error .nullStream := by simp [call, ferror, h, Except.map]
    exact iff_of_false (sound_null fn hc) id
  | clearerr =>
    have hc : call fn f .clearerr = .error .nullStream := by simp [call, clearerr, h, Except.map]
    exact iff_of_false (sound_null fn hc) id
  | vfprintf a =>
    by_cases hb : a.output.bytes = []
    · by_cases hf : a.output.fault = true
      · have hc : call fn f (.vfprintf a) = .error .division := by
          simp [call, vfprintf, h, hb, hf, Except.map]
        exact (sound_error fn hc).trans (iff_of_true nofun ⟨hb, hf⟩)
      · have hc : call fn f (.vfprintf a) = .ok (.int 0, f) := by
          simp [call, vfprintf, h, hb, hf, Except.map]
        have h0 : ¬(0 : ℤ) < 0 := by decide
        exact (sound_ok fn h hc).trans (iff_of_false h0 fun hs => hf hs.2)
    · have hc : call fn f (.vfprintf a) = .error .nullStream := by
        simp [call, vfprintf, h, hb, Except.map]
      exact iff_of_false (sound_null fn hc) fun hs => hb hs.1

theorem sound_iff (f : FILE σ) (op : Op) : Sound fn f op ↔ Spares f op := by
  cases h : f.stream with
  | some st =>
    have hne : f.stream ≠ none := by simp [h]
    exact iff_of_true ⟨call_open fn h op, fun hn => absurd hn hne⟩ fun hn => absurd hn hne
  | none =>
    rw [sound_closed fn h op]
    exact ⟨fun hb _ => hb, fun hs => hs h⟩

theorem closed_file_iff (st : StreamS σ) (ops : List Op) :
    Along (next fn) (Sound fn) (createFile st) ops ↔
      Along (next fn) Spares (createFile st) ops :=
  Along.congr (sound_iff fn) (createFile st) ops

/-- `fseek` on a file that was closed. -/
theorem closed_file_dereferenced :
    ∃ A s ops,
      ¬Along (next (entryFunctions A)) (Sound (entryFunctions A)) (createFile ⟨s, 0⟩) ops := by
  refine ⟨⟨fun data _ _ => data⟩, ⟨Stdio.boot, 0, 0⟩,
    [.fclose, .fseek 0 0], fun h => ?_⟩
  exact sound_null _ rfl (h.2 _ rfl).1

end Jiauliyan.ClosedFile
