import Mathlib.Data.List.Monad
import Jiauliyan.CString

namespace Jiauliyan.Vga

open Jiauliyan.Memory Jiauliyan.CString

structure Screen where
  mem : Mem
  vgaptr : ℕ
  attrib : ℕ
  csrX : ℤ
  csrY : ℤ
  ports : List (ℕ × UInt8)

/-- The driver's globals before `vga_init`. -/
def boot (m : Mem) : Screen := ⟨m, 0, 0x0F, 0, 0, []⟩

/-- The unsigned value, or address, that a C expression wraps to. -/
def word (n : ℤ) : ℕ := (n % 4294967296).toNat

def blank (s : Screen) : ℕ := 0x20 ||| s.attrib <<< 8

def scroll (s : Screen) : Option Screen :=
  if 25 ≤ s.csrY then
    let temp : ℤ := word (s.csrY - 25 + 1)
    let m := memcpy s.mem s.vgaptr (word (s.vgaptr + 2 * (temp * 80)))
      (word ((25 - temp) * 80 * 2))
    (memsetw m (word (s.vgaptr + 2 * ((25 - temp) * 80))) (blank s) 80).map fun m' =>
      { s with mem := m', csrY := 25 - 1 }
  else some s

def outportb (port : ℕ) (data : ℕ) (s : Screen) : Screen :=
  { s with ports := s.ports ++ [(port, UInt8.ofNat data)] }

def moveCsr (s : Screen) : Screen :=
  let temp := word (s.csrY * 80 + s.csrX)
  outportb 0x3D5 temp (outportb 0x3D4 15 (outportb 0x3D5 (temp >>> 8) (outportb 0x3D4 14 s)))

def clsRows (s : Screen) : ℕ → Option Mem
  | 0 => some s.mem
  | i + 1 => (clsRows s i).bind fun m => memsetw m (word (s.vgaptr + 2 * (i * 80))) (blank s) 80

def vgaCls (s : Screen) : Option Screen :=
  (clsRows s 25).map fun m => moveCsr { s with mem := m, csrX := 0, csrY := 0 }

def vgaPlacechar (c : UInt8) (x y : ℤ) (s : Screen) : Screen :=
  { s with
    mem := store16 s.mem (word (s.vgaptr + 2 * (y * 80 + x))) (c.toNat ||| s.attrib <<< 8) }

def handleChar (c : UInt8) (s : Screen) : Screen :=
  let att := s.attrib <<< 8
  if schar c = 0x08 then
    if s.csrX ≠ 0 then { s with csrX := s.csrX - 1 } else s
  else if schar c = 0x09 then
    -- masking with `~(8 - 1)` clears the low three bits
    { s with csrX := (s.csrX + 8) / 8 * 8 }
  else if schar c = 0x0D then { s with csrX := 0 }
  else if schar c = 0x0A then { s with csrX := 0, csrY := s.csrY + 1 }
  else if 0x20 ≤ schar c then
    { s with
      mem := store16 s.mem (word (s.vgaptr + 2 * (s.csrY * 80 + s.csrX))) (c.toNat ||| att)
      csrX := s.csrX + 1 }
  else s

def wrapLine (s : Screen) : Screen :=
  if 80 ≤ s.csrX then { s with csrX := 0, csrY := s.csrY + 1 } else s

def vgaPutchar (c : UInt8) (s : Screen) : Option Screen :=
  (scroll (wrapLine (handleChar c s))).map moveCsr

def vgaSetbg (bg : UInt8) (s : Screen) : Screen :=
  { s with attrib := ((bg.toNat &&& 0x0F) <<< 4) ||| (s.attrib &&& 0x0F) }

def vgaSetfg (fg : UInt8) (s : Screen) : Screen :=
  { s with attrib := (s.attrib &&& 0xF0) ||| (fg.toNat &&& 0x0F) }

/-- The text memory, then a clear screen; the stream object made last has no
effect on either. -/
def vgaInit (s : Screen) : Option Screen := vgaCls { s with vgaptr := 0xB8000 }

inductive Op
  | putchar (c : UInt8)
  | setfg (fg : UInt8)
  | setbg (bg : UInt8)
  | cls

def call (s : Screen) : Op → Option Screen
  | .putchar c => vgaPutchar c s
  | .setfg fg => some (vgaSetfg fg s)
  | .setbg bg => some (vgaSetbg bg s)
  | .cls => vgaCls s

/-- The driver started on memory `m` and called in turn. -/
def session (m : Mem) (ops : List Op) : Option Screen :=
  (vgaInit (boot m)).bind fun s => ops.foldlM call s

end Jiauliyan.Vga
