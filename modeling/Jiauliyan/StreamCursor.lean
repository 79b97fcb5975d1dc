import Jiauliyan.Bytestreams
import Jiauliyan.Cursors

namespace Jiauliyan.StreamCursor

open Jiauliyan.Execution Jiauliyan.StringCompare Jiauliyan.Stdio Jiauliyan.Bytestreams
open Jiauliyan.Cursors

def byteStep (A : Allocator) (bs : Bytestream) : Op Unit UInt8 → ℤ × Bytestream
  | .put _ c => bytestreamPut A bs c
  | .get _ => bytestreamGet bs
  | .seek _ pos => (0, bytestreamSeek bs pos)

/-- The streams on one file entry, of which there can be several, by their
positions. -/
structure Opened where
  fs : Filesystem
  pos : ℕ → ℕ

def fileStep (A : Allocator) (e : ℕ) (s : Opened) : Op ℕ UInt8 → ℤ × Opened
  | .put k c =>
    let (fs', st) := fileEntryPut A s.fs ⟨e, s.pos k⟩ c
    (c.toNat, ⟨fs', Function.update s.pos k st.pos⟩)
  | .get k =>
    let (r, st) := fileEntryGet s.fs ⟨e, s.pos k⟩
    (r, ⟨s.fs, Function.update s.pos k st.pos⟩)
  | .seek k pos => (0, ⟨s.fs, Function.update s.pos k (fileEntrySeek ⟨e, s.pos k⟩ pos).pos⟩)

/-- A file that was just created, and streams that were just opened on it. -/
def created (fs : Filesystem) (filename : Chars) (i : ℕ) : Opened :=
  ⟨createEntry fs filename i, fun _ => 0⟩

def ByteStep (A : Allocator) (bs : Bytestream) (a : Op Unit UInt8 × ℤ) (bs' : Bytestream) : Prop :=
  byteStep A bs a.1 = (a.2, bs')

def FileStep (A : Allocator) (e : ℕ) (s : Opened) (a : Op ℕ UInt8 × ℤ) (t : Opened) : Prop :=
  fileStep A e s a.1 = (a.2, t)

def byteBuffer (bs : Bytestream) : Buffer Unit UInt8 :=
  ⟨bs.buf, bs.size, bs.capacity, fun _ => bs.pos⟩

def fileBuffer (e : ℕ) (s : Opened) : Buffer ℕ UInt8 :=
  ⟨(s.fs.entries e).data, (s.fs.entries e).size, (s.fs.entries e).max, s.pos⟩

section Streams

variable {K : Type*} [DecidableEq K]

/-- What a stream function returns for the reply of the array. -/
def returned : Op K UInt8 → Option UInt8 → ℤ
  | .put _ c, _ => c.toNat
  | .get _, none => EOF
  | .get _, some c => c.toNat
  | .seek _ _, _ => 0

/-- An operation on a stream does and returns what it does on an array with
cursors, in which skipped places hold 0, and stays inside of the buffer. -/
def Agrees (b : Buffer K UInt8) (a : Op K UInt8 × ℤ) (b' : Buffer K UInt8) : Prop :=
  Simulates 0 b a.1 b' ∧ a.2 = returned a.1 ((b.cells 0).step a.1).1

def CellStep (s : Cells K UInt8) (a : Op K UInt8 × ℤ) (t : Cells K UInt8) : Prop :=
  t = (s.step a.1).2 ∧ a.2 = returned a.1 (s.step a.1).1

/-- A `put` leaves no gap that does not hold 0, and none longer than the growth. -/
def Covered (A : Allocator) (b : Buffer K UInt8) (op : Op K UInt8) : Prop :=
  Reaches A.realloc BUFSIZ 0 b op

/-- A `put` leaves no gap. -/
def Gapless (b : Buffer K UInt8) (op : Op K UInt8) : Prop :=
  ∀ k c, op = .put k c → b.cursor k ≤ b.size

theorem agrees_iff (A : Allocator) {b : Buffer K UInt8} (hb : b.Fits) (op : Op K UInt8) :
    Agrees b (op, returned op (b.step A.realloc BUFSIZ op).1) (b.step A.realloc BUFSIZ op).2 ↔
      Covered A b op := by
  rw [Covered, ← simulates_iff A.keeps hb op]
  exact and_iff_left (congrArg (returned op) (step_reply b op))

end Streams

theorem update_unit (k : Unit) (p q : ℕ) :
    Function.update (fun _ : Unit => p) k q = fun _ => q := by
  funext x
  rw [Subsingleton.elim x k, Function.update_self]

theorem byteStep_buffer (A : Allocator) (bs : Bytestream) (op : Op Unit UInt8) :
    byteBuffer (byteStep A bs op).2 = ((byteBuffer bs).step A.realloc BUFSIZ op).2 ∧
      (byteStep A bs op).1 = returned op ((byteBuffer bs).step A.realloc BUFSIZ op).1 := by
  cases op with
  | put k c =>
    refine ⟨?_, rfl⟩
    by_cases hfull : bs.capacity ≤ bs.pos
    · rw [byteStep, bytestreamPut_full A hfull]
      simp [byteBuffer, Buffer.step, Buffer.room, hfull, update_unit]
    · rw [byteStep, bytestreamPut_room A (Nat.not_le.mp hfull)]
      simp [byteBuffer, Buffer.step, Buffer.room, hfull, update_unit]
  | get k =>
    by_cases hlt : bs.pos < bs.size
    · have hend : ¬bs.size ≤ bs.pos := Nat.not_le.mpr hlt
      have hb : (byteBuffer bs).step A.realloc BUFSIZ (.get k) = _ := if_pos hlt
      rw [byteStep, bytestreamGet, if_neg hend, hb]
      exact ⟨congrArg (Buffer.mk _ _ _) (update_unit k bs.pos (bs.pos + 1)).symm, rfl⟩
    · have hb : (byteBuffer bs).step A.realloc BUFSIZ (.get k) = _ := if_neg hlt
      rw [byteStep, bytestreamGet, if_pos (Nat.not_lt.mp hlt), hb]
      exact ⟨rfl, rfl⟩
  | seek k pos =>
    exact ⟨congrArg (Buffer.mk _ _ _) (update_unit k bs.pos pos).symm, rfl⟩

theorem room_expand (A : Allocator) (e : ℕ) (s : Opened) (k : ℕ) :
    (fileBuffer e s).room A.realloc BUFSIZ k =
      ⟨(Stdio.expand A (s.pos k) (s.fs.entries e)).data, (s.fs.entries e).size,
        (Stdio.expand A (s.pos k) (s.fs.entries e)).max, s.pos⟩ := by
  unfold Buffer.room Stdio.expand fileBuffer
  dsimp only
  split_ifs <;> rfl

theorem fileStep_buffer (A : Allocator) (e : ℕ) (s : Opened) (op : Op ℕ UInt8) :
    fileBuffer e (fileStep A e s op).2 = ((fileBuffer e s).step A.realloc BUFSIZ op).2 ∧
      (fileStep A e s op).1 = returned op ((fileBuffer e s).step A.realloc BUFSIZ op).1 := by
  cases op with
  | put k c =>
    refine ⟨?_, rfl⟩
    have hsize : (Stdio.expand A (s.pos k) (s.fs.entries e)).size = (s.fs.entries e).size := by
      unfold Stdio.expand
      split_ifs <;> rfl
    have hmax : (if (s.fs.entries e).size < s.pos k + 1 then s.pos k + 1
        else (s.fs.entries e).size) = max (s.fs.entries e).size (s.pos k + 1) := by
      split_ifs <;> omega
    rw [Buffer.step, room_expand]
    simp only [fileStep, fileEntryPut, fileBuffer, Function.update_self, hsize, hmax]
  | get k =>
    by_cases hlt : s.pos k < (s.fs.entries e).size
    · have hend : ¬(s.fs.entries e).size ≤ s.pos k := Nat.not_le.mpr hlt
      have hb : (fileBuffer e s).step A.realloc BUFSIZ (.get k) = _ := if_pos hlt
      rw [fileStep, fileEntryGet, if_neg hend, hb]
      exact ⟨rfl, rfl⟩
    · have hb : (fileBuffer e s).step A.realloc BUFSIZ (.get k) = _ := if_neg hlt
      rw [fileStep, fileEntryGet, if_pos (Nat.not_lt.mp hlt), hb]
      exact ⟨congrArg (Buffer.mk _ _ _) (Function.update_eq_self k s.pos), rfl⟩
  | seek k pos => exact ⟨rfl, rfl⟩

section Runs

variable {S K : Type*} [DecidableEq K] (A : Allocator) (buffer : S → Buffer K UInt8)
  (act : S → Op K UInt8 → ℤ × S)
  (hact : ∀ s op, buffer (act s op).2 = ((buffer s).step A.realloc BUFSIZ op).2 ∧
    (act s op).1 = returned op ((buffer s).step A.realloc BUFSIZ op).1)

include hact in
theorem run_agrees_iff {s t : S} {acts : List (Op K UInt8 × ℤ)} (hs : (buffer s).Fits) :
    Run (fun s a t => act s a.1 = (a.2, t) ∧ Agrees (buffer s) a (buffer t)) s acts t ↔
      Run (fun s a t => act s a.1 = (a.2, t) ∧ Covered A (buffer s) a.1) s acts t := by
  refine Run.congr (P := fun s => (buffer s).Fits) (fun s a t hs h => ?_) (fun s a t hs => ?_) hs
  · obtain ⟨hstep, hagree, -⟩ := h
    obtain ⟨hb, -⟩ := hact s a.1
    rw [hstep] at hb
    exact hagree.fits hs (hb ▸ step_capacity (buffer s) a.1)
  · refine and_congr_right fun hstep => ?_
    obtain ⟨hb, hr⟩ := hact s a.1
    rw [hstep] at hb hr
    rw [← agrees_iff A hs a.1, ← hb, ← hr]

include hact in
theorem gapless_run {s t : S} {acts : List (Op K UInt8 × ℤ)} (hs : (buffer s).Fits)
    (h : Run (fun s a t => act s a.1 = (a.2, t) ∧ Gapless (buffer s) a.1) s acts t) :
    Run CellStep ((buffer s).cells 0) acts ((buffer t).cells 0) := by
  induction h with
  | nil s => exact Run.nil _
  | @cons s t u a as hst _ ih =>
    obtain ⟨hstep, hgap⟩ := hst
    obtain ⟨hb, hr⟩ := hact s a.1
    rw [hstep] at hb hr
    have hcov : Covered A (buffer s) a.1 := reaches_of_le (by decide) hs hgap
    obtain ⟨hsim, hret⟩ := (agrees_iff A hs a.1).mpr hcov
    rw [← hb] at hsim
    have hfit := hsim.fits hs (hb ▸ step_capacity (buffer s) a.1)
    exact Run.cons ⟨hsim.cells, hr.trans hret⟩ (ih hfit)

end Runs

theorem streams_refine_iff (A : Allocator) :
    (∀ buf capacity acts bs,
      Run (fun s a t => ByteStep A s a t ∧ Agrees (byteBuffer s) a (byteBuffer t))
        (bytestreamCreate buf capacity) acts bs ↔
      Run (fun s a t => ByteStep A s a t ∧ Covered A (byteBuffer s) a.1)
        (bytestreamCreate buf capacity) acts bs) ∧
    (∀ fs filename i acts s,
      Run (fun s a t => FileStep A fs.allocated s a t ∧
          Agrees (fileBuffer fs.allocated s) a (fileBuffer fs.allocated t))
        (created fs filename i) acts s ↔
      Run (fun s a t => FileStep A fs.allocated s a t ∧
          Covered A (fileBuffer fs.allocated s) a.1)
        (created fs filename i) acts s) := by
  refine ⟨fun buf capacity acts bs => ?_, fun fs filename i acts s => ?_⟩
  · exact run_agrees_iff A byteBuffer (byteStep A) (byteStep_buffer A) (Nat.zero_le _)
  · refine run_agrees_iff A (fileBuffer fs.allocated) (fileStep A fs.allocated)
      (fileStep_buffer A fs.allocated) ?_
    simp [created, createEntry, fileBuffer, Buffer.Fits]

theorem gapless_streams (A : Allocator) :
    (∀ buf capacity acts bs,
      Run (fun s a t => ByteStep A s a t ∧ Gapless (byteBuffer s) a.1)
        (bytestreamCreate buf capacity) acts bs →
      Run CellStep (Cells.empty 0) acts ((byteBuffer bs).cells 0)) ∧
    (∀ fs filename i acts s,
      Run (fun s a t => FileStep A fs.allocated s a t ∧ Gapless (fileBuffer fs.allocated s) a.1)
        (created fs filename i) acts s →
      Run CellStep (Cells.empty 0) acts ((fileBuffer fs.allocated s).cells 0)) := by
  refine ⟨fun buf capacity acts bs h => ?_, fun fs filename i acts s h => ?_⟩
  · exact gapless_run A byteBuffer (byteStep A) (byteStep_buffer A) (Nat.zero_le _) h
  · have h0 : fileBuffer fs.allocated (created fs filename i) = ⟨fun _ => 0, 0, 0, fun _ => 0⟩ := by
      simp [created, createEntry, fileBuffer]
    have hr := gapless_run A (fileBuffer fs.allocated) (fileStep A fs.allocated)
      (fileStep_buffer A fs.allocated) (by rw [h0]; exact le_rfl) h
    rw [h0] at hr
    exact hr

/-- A `put` at 3000 grows a buffer of 1024 bytes to 2048. -/
theorem put_outside :
    ∃ A buf capacity acts bs a bs', Run (ByteStep A) (bytestreamCreate buf capacity) acts bs ∧
      ByteStep A bs a bs' ∧ ¬Agrees (byteBuffer bs) a (byteBuffer bs') := by
  refine ⟨⟨⟨fun data _ _ => data⟩, fun _ _ _ _ _ _ => rfl⟩, fun _ => 0, 1024,
    [(.seek () 3000, 0)], _, (.put () 65, 65), _, Run.cons rfl (Run.nil _), rfl, fun h => ?_⟩
  have hin := h.1.inside 3000 (List.mem_singleton.mpr rfl)
  revert hin
  decide

end Jiauliyan.StreamCursor
