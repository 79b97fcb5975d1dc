import Mathlib.Data.List.Infix
import Mathlib.Data.Nat.Notation

namespace Jiauliyan.Framing

abbrev Bytes := List UInt8

def be16 (n : ℕ) : Bytes := [UInt8.ofNat (n / 256), UInt8.ofNat n]

def word16 (a b : UInt8) : ℕ := a.toNat * 256 + b.toNat

/-- A payload behind its length in two bytes, high byte first. -/
def frame (p : Bytes) : Bytes := be16 p.length ++ p

def encode (ps : List Bytes) : Bytes := ps.flatMap frame

def splitFrame : Bytes → Option (Bytes × Bytes)
  | a :: b :: w =>
    if word16 a b ≤ w.length then some (w.take (word16 a b), w.drop (word16 a b)) else none
  | _ => none

variable {b p q r w : Bytes} {ps : List Bytes}

theorem word16_lt (a b : UInt8) : word16 a b < 65536 := by
  have ha := a.toNat_lt
  have hb := b.toNat_lt
  unfold word16
  omega

theorem word16_be16 {n : ℕ} (h : n < 65536) :
    word16 (UInt8.ofNat (n / 256)) (UInt8.ofNat n) = n := by
  simp only [word16, UInt8.toNat_ofNat']
  omega

theorem be16_word16 (a b : UInt8) : be16 (word16 a b) = [a, b] := by
  have ha := a.toNat_lt
  have hb := b.toNat_lt
  have hhigh : UInt8.ofNat (word16 a b / 256) = a := by
    apply UInt8.toNat.inj
    simp only [word16, UInt8.toNat_ofNat']
    omega
  have hlow : UInt8.ofNat (word16 a b) = b := by
    apply UInt8.toNat.inj
    simp only [word16, UInt8.toNat_ofNat']
    omega
  rw [be16, hhigh, hlow]

theorem frame_length (p : Bytes) : (frame p).length = p.length + 2 := by
  simp [frame, be16]

theorem encode_nil : encode [] = [] := rfl

theorem encode_cons (p : Bytes) (ps : List Bytes) : encode (p :: ps) = frame p ++ encode ps := rfl

theorem encode_append (ps qs : List Bytes) : encode (ps ++ qs) = encode ps ++ encode qs :=
  List.flatMap_append

theorem encode_snoc (ps : List Bytes) (p : Bytes) : encode (ps ++ [p]) = encode ps ++ frame p := by
  rw [encode_append, encode_cons, encode_nil, List.append_nil]

theorem splitFrame_frame (hp : p.length < 65536) (r : Bytes) :
    splitFrame (frame p ++ r) = some (p, r) := by
  have hle : p.length ≤ (p ++ r).length := by simp
  have h : splitFrame (frame p ++ r) =
      if word16 (UInt8.ofNat (p.length / 256)) (UInt8.ofNat p.length) ≤ (p ++ r).length then
        some ((p ++ r).take (word16 (UInt8.ofNat (p.length / 256)) (UInt8.ofNat p.length)),
          (p ++ r).drop (word16 (UInt8.ofNat (p.length / 256)) (UInt8.ofNat p.length)))
      else none := rfl
  rw [h, word16_be16 hp, if_pos hle, List.take_left, List.drop_left]

theorem splitFrame_eq (h : splitFrame b = some (p, r)) :
    b = frame p ++ r ∧ p.length < 65536 := by
  match b, h with
  | x :: y :: w, h =>
    have hlt := word16_lt x y
    by_cases hw : word16 x y ≤ w.length
    · simp only [splitFrame, hw, if_true, Option.some.injEq, Prod.mk.injEq] at h
      obtain ⟨rfl, rfl⟩ := h
      have hl : (w.take (word16 x y)).length = word16 x y := by
        rw [List.length_take]
        omega
      refine ⟨?_, by omega⟩
      rw [frame, hl, be16_word16, List.append_assoc, List.take_append_drop]
      rfl
    · simp [splitFrame, hw] at h

/-- A prefix of a stream that begins with a frame either stops short of the
frame's end or contains it whole. -/
theorem splitFrame_prefix (hp : p.length < 65536) (h : b <+: frame p ++ w) :
    splitFrame b = none ∨ ∃ r, b = frame p ++ r ∧ r <+: w := by
  obtain ⟨t, ht⟩ := h
  have hcut := List.append_eq_append_iff.mp ht
  obtain ⟨a, ha, -⟩ | ⟨r, hr, hw⟩ := hcut
  · cases hs : splitFrame b with
    | none => exact Or.inl rfl
    | some qr =>
      obtain ⟨hb, hq⟩ := splitFrame_eq (p := qr.1) (r := qr.2) hs
      -- the frame found in the prefix is the frame at the head of the stream
      have hsame : splitFrame (frame qr.1 ++ (qr.2 ++ a)) = splitFrame (frame p ++ []) := by
        rw [← List.append_assoc, ← hb, List.append_nil, ha]
      rw [splitFrame_frame hq, splitFrame_frame hp] at hsame
      have hpair := Option.some.inj hsame
      rw [Prod.mk.injEq] at hpair
      have hempty := List.append_eq_nil_iff.mp hpair.2
      refine Or.inr ⟨[], ?_, List.nil_prefix⟩
      rw [hb, hpair.1, hempty.1]
  · exact Or.inr ⟨r, hr, t, hw.symm⟩

theorem splitFrame_encode (hps : ∀ p ∈ ps, p.length < 65536) (h : b <+: encode ps) :
    splitFrame b = none ∨ ∃ p ps' r, ps = p :: ps' ∧ b = frame p ++ r ∧ r <+: encode ps' := by
  cases ps with
  | nil =>
    rw [encode_nil, List.prefix_nil] at h
    subst h
    exact Or.inl rfl
  | cons p ps =>
    rw [encode_cons] at h
    obtain hn | ⟨r, hb, hr⟩ := splitFrame_prefix (hps p List.mem_cons_self) h
    · exact Or.inl hn
    · exact Or.inr ⟨p, ps, r, rfl, hb, hr⟩

end Jiauliyan.Framing
