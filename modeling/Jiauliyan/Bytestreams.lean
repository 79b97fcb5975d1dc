import Jiauliyan.Stdio

namespace Jiauliyan.Bytestreams

open Jiauliyan.Stdio

def BUFSIZ : ℕ := 1024

structure Bytestream where
  buf : ℕ → UInt8
  size : ℕ
  capacity : ℕ
  pos : ℕ

/-- `buf` is the memory that `malloc` has found. -/
def bytestreamCreate (buf : ℕ → UInt8) (capacity : ℕ) : Bytestream := ⟨buf, 0, capacity, 0⟩

def bytestreamGet (bs : Bytestream) : ℤ × Bytestream :=
  if bs.size ≤ bs.pos then (EOF, bs)
  else ((bs.buf bs.pos).toNat, { bs with pos := bs.pos + 1 })

def expand (A : Realloc) (bs : Bytestream) : Bytestream :=
  if bs.capacity ≤ bs.pos then
    { bs with
      capacity := bs.capacity + BUFSIZ
      buf := A.realloc bs.buf bs.capacity (bs.capacity + BUFSIZ) }
  else bs

def bytestreamPut (A : Realloc) (bs : Bytestream) (c : UInt8) : ℤ × Bytestream :=
  let bs' := expand A bs
  (c.toNat,
    { bs' with
      size := if bs'.size < bs'.pos + 1 then bs'.pos + 1 else bs'.size
      buf := Function.update bs'.buf bs'.pos c
      pos := bs'.pos + 1 })

def bytestreamSeek (bs : Bytestream) (pos : ℕ) : Bytestream := { bs with pos := pos }

theorem bytestreamPut_room (A : Realloc) {bs : Bytestream} (h : bs.pos < bs.capacity)
    (c : UInt8) :
    (bytestreamPut A bs c).2 =
      ⟨Function.update bs.buf bs.pos c, max bs.size (bs.pos + 1), bs.capacity, bs.pos + 1⟩ := by
  have he : expand A bs = bs := if_neg (Nat.not_le.mpr h)
  have hm : (if bs.size < bs.pos + 1 then bs.pos + 1 else bs.size) = max bs.size (bs.pos + 1) := by
    split_ifs <;> omega
  rw [bytestreamPut, he, hm]

theorem bytestreamPut_full (A : Realloc) {bs : Bytestream} (h : bs.capacity ≤ bs.pos)
    (c : UInt8) :
    (bytestreamPut A bs c).2 =
      ⟨Function.update (A.realloc bs.buf bs.capacity (bs.capacity + BUFSIZ)) bs.pos c,
        max bs.size (bs.pos + 1), bs.capacity + BUFSIZ, bs.pos + 1⟩ := by
  have he : expand A bs = { bs with
      capacity := bs.capacity + BUFSIZ
      buf := A.realloc bs.buf bs.capacity (bs.capacity + BUFSIZ) } := if_pos h
  have hm : (if bs.size < bs.pos + 1 then bs.pos + 1 else bs.size) = max bs.size (bs.pos + 1) := by
    split_ifs <;> omega
  rw [bytestreamPut, he, hm]

end Jiauliyan.Bytestreams
