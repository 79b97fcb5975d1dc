import Mathlib.Data.List.Forall2
import Jiauliyan.ImageConvert

namespace Jiauliyan.ImageTransfer

open Jiauliyan.Console (Terminal)
open Jiauliyan.Vga (Op)
open Jiauliyan.TerminalRefinement (Colours request)
open Jiauliyan.ImageConvert

def setColour (set : UInt8 → Op) (color : ℤ) : List Op :=
  if 0x0 ≤ color ∧ color ≤ 0xF then [set (UInt8.ofNat color.toNat)] else []

def luaVgaSetfg (color : ℤ) : List Op := setColour .setfg color

def luaVgaSetbg (color : ℤ) : List Op := setColour .setbg color

/-- One turn of the loop: the bytes at `i - 2`, `i - 1` and `i`. -/
def turn (b₂ b₁ ch : UInt8) : List Op :=
  let anc : ℤ := 0x61
  let bg := b₂.toNat - anc
  let fg := b₁.toNat - anc
  if ch ≠ 0x0A then luaVgaSetbg bg ++ (luaVgaSetfg fg ++ [.putchar ch]) else []

def image : Bytes → List Op
  | b₂ :: b₁ :: ch :: d => turn b₂ b₁ ch ++ image d
  | _ => []

def recolour (c : Colours) : Op → Colours
  | .setfg fg => { c with fg := Fin.ofNat 16 fg.toNat }
  | .setbg bg => { c with bg := Fin.ofNat 16 bg.toNat }
  | _ => c

def paints : Colours → List Op → List (UInt8 × Colours)
  | _, [] => []
  | c, .putchar ch :: ops => (ch, c) :: paints c ops
  | c, op :: ops => paints (recolour c op) ops

/-- The script prints a body for the output that `ts` makes up, and the image
command paints its text from it and nothing else. -/
def RoundTrips (screen : Colours) (ts : List Token) : Prop :=
  ∃ body, Prints (ts.flatMap Token.bytes) body ∧
    paints screen (image body) = (cells ⟨0, 0⟩ ts).filter (·.1 ≠ 0x0A)

def letter (f : Fin 16) : UInt8 := UInt8.ofNat (0x61 + f.val)

/-- Every text byte names the background of the screen and is written in it
on it. -/
def Uniform (bg : Fin 16) (l : List (UInt8 × Colours)) : Prop :=
  ∀ x ∈ l, x = (letter bg, ⟨bg, bg⟩)

/-- Every text byte names its background, and the two colours change places
from one to the next. -/
def Alternates : Colours → List (UInt8 × Colours) → Prop
  | _, [] => True
  | c, x :: l => x = (letter c.bg, c) ∧ Alternates ⟨c.bg, c.fg⟩ l

def shade (b : UInt8) (f : Fin 16) : Fin 16 :=
  if 0x61 ≤ b.toNat ∧ b.toNat ≤ 0x70 then Fin.ofNat 16 (b - 0x61).toNat else f

section Turns

variable {c : Colours} {d : Bytes}

theorem request_recolour (t : Terminal Colours) (op : Op) :
    (request t op).attr = recolour t.attr op := by
  have hmove : ∀ (x : ℕ) (t : Terminal Colours), (t.moveTo 80 x).attr = t.attr := by
    intro x t
    rw [Terminal.moveTo]
    split
    · rfl
    · exact t.lineFeed_attr
  cases op with
  | putchar ch =>
    simp only [request, recolour, Terminal.write]
    split_ifs
    · rfl
    · exact hmove _ t
    · rfl
    · exact t.lineFeed_attr
    · exact hmove _ (t.place ch)
    · rfl
  | setfg fg | setbg bg | cls => rfl

theorem requests_recolour (t : Terminal Colours) (ops : List Op) :
    (ops.foldl request t).attr = ops.foldl recolour t.attr := by
  induction ops generalizing t with
  | nil => rfl
  | cons op ops ih => rw [List.foldl_cons, ih, request_recolour, List.foldl_cons]

theorem paints_append (c : Colours) (ops ops' : List Op) :
    paints c (ops ++ ops') = paints c ops ++ paints (ops.foldl recolour c) ops' := by
  induction ops generalizing c with
  | nil => rfl
  | cons op ops ih =>
    cases op with
    | putchar ch => exact congrArg _ (ih c)
    | setfg fg | setbg bg | cls => exact ih _

theorem setColour_byte (set : UInt8 → Op) (b : UInt8) :
    setColour set (b.toNat - 0x61) =
      if 0x61 ≤ b.toNat ∧ b.toNat ≤ 0x70 then [set (b - 0x61)] else [] := by
  by_cases hb : 0x61 ≤ b.toNat ∧ b.toNat ≤ 0x70
  · have hrange : (0x0 : ℤ) ≤ b.toNat - 0x61 ∧ (b.toNat : ℤ) - 0x61 ≤ 0xF := by omega
    have hsub : UInt8.ofNat ((b.toNat : ℤ) - 0x61).toNat = b - 0x61 := by
      apply UInt8.toNat.inj
      have h61 : (0x61 : UInt8).toNat = 0x61 := rfl
      have hle : (0x61 : UInt8) ≤ b := by
        rw [UInt8.le_iff_toNat_le, h61]
        exact hb.1
      rw [UInt8.toNat_sub_of_le _ _ hle, UInt8.toNat_ofNat', h61]
      omega
    rw [setColour, if_pos hrange, if_pos hb, hsub]
  · have hrange : ¬((0x0 : ℤ) ≤ b.toNat - 0x61 ∧ (b.toNat : ℤ) - 0x61 ≤ 0xF) := by omega
    rw [setColour, if_neg hrange, if_neg hb]

theorem setfg_shade (b : UInt8) (c : Colours) :
    (luaVgaSetfg (b.toNat - 0x61)).foldl recolour c = { c with fg := shade b c.fg } ∧
      paints c (luaVgaSetfg (b.toNat - 0x61)) = [] := by
  rw [luaVgaSetfg, setColour_byte, shade]
  split <;> exact ⟨rfl, rfl⟩

theorem setbg_shade (b : UInt8) (c : Colours) :
    (luaVgaSetbg (b.toNat - 0x61)).foldl recolour c = { c with bg := shade b c.bg } ∧
      paints c (luaVgaSetbg (b.toNat - 0x61)) = [] := by
  rw [luaVgaSetbg, setColour_byte, shade]
  split <;> exact ⟨rfl, rfl⟩

theorem image_paint (b₂ b₁ : UInt8) {ch : UInt8} (hch : ch ≠ 0x0A) (d : Bytes) (c : Colours) :
    paints c (image (b₂ :: b₁ :: ch :: d)) =
      (ch, ⟨shade b₁ c.fg, shade b₂ c.bg⟩) ::
        paints ⟨shade b₁ c.fg, shade b₂ c.bg⟩ (image d) := by
  obtain ⟨hbg, hpbg⟩ := setbg_shade b₂ c
  obtain ⟨hfg, hpfg⟩ := setfg_shade b₁ { c with bg := shade b₂ c.bg }
  simp only [image, turn, if_pos hch, paints_append, hbg, hpbg, hfg, hpfg, List.nil_append,
    List.foldl_append]
  rfl

theorem image_newline (b₂ b₁ : UInt8) (d : Bytes) : image (b₂ :: b₁ :: 0x0A :: d) = image d := by
  simp [image, turn]

theorem image_newlines (q : ℕ) (d : Bytes) :
    image (List.replicate (3 * q) 0x0A ++ d) = image d := by
  induction q with
  | zero => rfl
  | succ q ih =>
    have hthree : List.replicate (3 * (q + 1)) (0x0A : UInt8) ++ d =
        0x0A :: 0x0A :: 0x0A :: (List.replicate (3 * q) 0x0A ++ d) := by
      rw [Nat.mul_succ, List.replicate_succ, List.replicate_succ, List.replicate_succ]
      rfl
    rw [hthree, image_newline, ih]

theorem shade_letter (f g : Fin 16) : shade (letter f) g = f := by
  revert f g
  decide

theorem letter_ne_newline (f : Fin 16) : letter f ≠ 0x0A := by
  revert f
  decide

theorem shade_newline (f : Fin 16) : shade 0x0A f = f := rfl

end Turns

section Grid

variable {s : Colours} {l l' : List (UInt8 × Colours)}

def lateOne : Colours → UInt8 → List (UInt8 × Colours) → List (UInt8 × Colours)
  | _, _, [] => []
  | s, p, (ch, c) :: l =>
    (letter c.fg, ⟨c.bg, shade p s.bg⟩) :: lateOne ⟨c.bg, shade p s.bg⟩ ch l

def lateTwo : Colours → UInt8 → UInt8 → List (UInt8 × Colours) → List (UInt8 × Colours)
  | _, _, _, [] => []
  | s, p, q, (ch, c) :: l =>
    (letter c.bg, ⟨shade q s.fg, shade p s.bg⟩) ::
      lateTwo ⟨shade q s.fg, shade p s.bg⟩ (letter c.fg) ch l

theorem encoded_append (x : UInt8 × Colours) (l : List (UInt8 × Colours)) (d : Bytes) :
    encoded (x :: l) ++ d = letter x.2.bg :: letter x.2.fg :: x.1 :: (encoded l ++ d) := rfl

theorem paints_aligned (s : Colours) (l : List (UInt8 × Colours)) :
    paints s (image (encoded l ++ [0x0A])) = l.filter (·.1 ≠ 0x0A) := by
  induction l generalizing s with
  | nil => rfl
  | cons x l ih =>
    rw [encoded_append]
    by_cases hx : x.1 = 0x0A
    · rw [hx, image_newline, ih, List.filter_cons_of_neg (by simp [hx])]
    · rw [image_paint _ _ hx, shade_letter, shade_letter, ih,
        List.filter_cons_of_pos (by simp [hx])]

theorem paints_lateOne (s : Colours) (p : UInt8) (l : List (UInt8 × Colours)) :
    paints s (image (p :: (encoded l ++ [0x0A]))) = lateOne s p l := by
  induction l generalizing s p with
  | nil => rfl
  | cons x l ih =>
    rw [encoded_append, image_paint _ _ (letter_ne_newline x.2.fg), shade_letter, ih]
    rfl

theorem paints_lateTwo (s : Colours) (p q : UInt8) (l : List (UInt8 × Colours)) :
    paints s (image (p :: q :: (encoded l ++ [0x0A]))) = lateTwo s p q l := by
  induction l generalizing s p q with
  | nil => rfl
  | cons x l ih =>
    rw [encoded_append, image_paint _ _ (letter_ne_newline x.2.bg), ih]
    rfl

theorem uniform_cons {f : Fin 16} {x : UInt8 × Colours} :
    Uniform f (x :: l) ↔ x = (letter f, ⟨f, f⟩) ∧ Uniform f l := List.forall_mem_cons

theorem lateOne_eq_iff (s : Colours) (p : UInt8) (l : List (UInt8 × Colours)) :
    lateOne s p l = l ↔ Uniform (shade p s.bg) l := by
  induction l generalizing s p with
  | nil => simp [lateOne, Uniform]
  | cons x l ih =>
    obtain ⟨ch, fg, bg⟩ := x
    rw [lateOne, List.cons.injEq, ih, uniform_cons]
    constructor
    · rintro ⟨hx, hl⟩
      obtain ⟨rfl, hc⟩ := Prod.mk.inj hx
      obtain ⟨hfg, rfl⟩ := Colours.mk.inj hc
      have he : shade p s.bg = fg := hfg
      rw [shade_letter, ← he] at hl
      rw [← he]
      exact ⟨rfl, hl⟩
    · rintro ⟨hx, hl⟩
      obtain ⟨rfl, hc⟩ := Prod.mk.inj hx
      obtain ⟨rfl, rfl⟩ := Colours.mk.inj hc
      rw [shade_letter]
      exact ⟨rfl, hl⟩

theorem lateTwo_eq_iff (s : Colours) (p q : UInt8) (l : List (UInt8 × Colours)) :
    lateTwo s p q l = l ↔ Alternates ⟨shade q s.fg, shade p s.bg⟩ l := by
  induction l generalizing s p q with
  | nil => simp [lateTwo, Alternates]
  | cons x l ih =>
    obtain ⟨ch, fg, bg⟩ := x
    rw [lateTwo, List.cons.injEq, ih, Alternates]
    constructor
    · rintro ⟨hx, hl⟩
      obtain ⟨rfl, hc⟩ := Prod.mk.inj hx
      obtain ⟨rfl, rfl⟩ := Colours.mk.inj hc
      simp only [shade_letter] at hl
      exact ⟨rfl, hl⟩
    · rintro ⟨hx, hl⟩
      obtain ⟨rfl, hc⟩ := Prod.mk.inj hx
      obtain ⟨rfl, rfl⟩ := Colours.mk.inj hc
      rw [shade_letter, shade_letter]
      exact ⟨rfl, hl⟩

theorem lateOne_painted (s : Colours) (p : UInt8) (l : List (UInt8 × Colours)) :
    List.Forall₂ (fun x _ => x.1 ≠ 0x0A) (lateOne s p l) l := by
  induction l generalizing s p with
  | nil => exact List.Forall₂.nil
  | cons x l ih => exact List.Forall₂.cons (letter_ne_newline _) (ih _ _)

theorem lateTwo_painted (s : Colours) (p q : UInt8) (l : List (UInt8 × Colours)) :
    List.Forall₂ (fun x _ => x.1 ≠ 0x0A) (lateTwo s p q l) l := by
  induction l generalizing s p q with
  | nil => exact List.Forall₂.nil
  | cons x l ih => exact List.Forall₂.cons (letter_ne_newline _) (ih _ _ _)

theorem eq_filter_iff (h : List.Forall₂ (fun x _ => x.1 ≠ 0x0A) l' l) :
    l' = l.filter (·.1 ≠ 0x0A) ↔ l' = l := by
  constructor
  · intro he
    have hall : (l.filter (·.1 ≠ 0x0A)).length = l.length := by rw [← he, h.length_eq]
    rw [he]
    exact List.filter_eq_self.mpr (List.length_filter_eq_length_iff.mp hall)
  · rintro rfl
    have hne := List.forall₂_same.mp h
    exact (List.filter_eq_self.mpr fun x hx => by simpa using hne x hx).symm

theorem lateOne_filter (s : Colours) (l : List (UInt8 × Colours)) :
    lateOne s 0x0A l = l.filter (·.1 ≠ 0x0A) ↔ Uniform s.bg l := by
  rw [eq_filter_iff (lateOne_painted _ _ _), lateOne_eq_iff, shade_newline]

theorem lateTwo_filter (s : Colours) (l : List (UInt8 × Colours)) :
    lateTwo s 0x0A 0x0A l = l.filter (·.1 ≠ 0x0A) ↔ Alternates s l := by
  rw [eq_filter_iff (lateTwo_painted _ _ _ _), lateTwo_eq_iff, shade_newline, shade_newline]

theorem paints_grid (s : Colours) (k : ℕ) (l : List (UInt8 × Colours)) :
    paints s (image (List.replicate k 0x0A ++ encoded l ++ [0x0A])) = l.filter (·.1 ≠ 0x0A) ↔
      k % 3 = 0 ∨ k % 3 = 1 ∧ Uniform s.bg l ∨ k % 3 = 2 ∧ Alternates s l := by
  have hk : k = 3 * (k / 3) + k % 3 := by omega
  have hlt : k % 3 < 3 := Nat.mod_lt k (by decide)
  have hpaints : paints s (image (List.replicate k 0x0A ++ encoded l ++ [0x0A])) =
      paints s (image (List.replicate (k % 3) 0x0A ++ (encoded l ++ [0x0A]))) := by
    conv_lhs => rw [hk, List.replicate_add, List.append_assoc, List.append_assoc, image_newlines]
  rw [hpaints]
  generalize k % 3 = r at hlt
  match r, hlt with
  | 0, _ => simpa using paints_aligned s l
  | 1, _ =>
    have h := lateOne_filter s l
    rw [← paints_lateOne] at h
    simpa using h
  | 2, _ =>
    have h := lateTwo_filter s l
    rw [← paints_lateTwo] at h
    simpa using h

end Grid

/-- Only the empty lines that the script prints for `\033[s` shift the grid, by
one byte each. -/
theorem image_round_trips_iff (screen : Colours) (ts : List Token) :
    RoundTrips screen ts ↔
      (∀ t ∈ ts, t.Numbered) ∧ (cells ⟨0, 0⟩ ts ≠ [] → Admits (ts.flatMap Token.bytes)) ∧
        (saves ts % 3 = 0 ∨ saves ts % 3 = 1 ∧ Uniform screen.bg (cells ⟨0, 0⟩ ts) ∨
          saves ts % 3 = 2 ∧ Alternates screen (cells ⟨0, 0⟩ ts)) := by
  rw [← paints_grid, RoundTrips]
  constructor
  · rintro ⟨body, hp, he⟩
    obtain ⟨hnum, hadmits, rfl⟩ := (prints_iff ts body).mp hp
    exact ⟨hnum, hadmits, he⟩
  · rintro ⟨hnum, hadmits, he⟩
    exact ⟨_, (prints_iff ts _).mpr ⟨hnum, hadmits, rfl⟩, he⟩

def shifted : List Token := [.save, .text ⟨0x41, by decide⟩]

theorem shifted_image_lost : ¬RoundTrips ⟨15, 8⟩ shifted := by
  rintro ⟨body, hp, he⟩
  obtain ⟨-, -, rfl⟩ := (prints_iff shifted body).mp hp
  exact absurd (congrArg (List.map Prod.fst) he) (by decide)

end Jiauliyan.ImageTransfer
