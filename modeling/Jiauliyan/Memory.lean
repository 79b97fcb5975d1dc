import Mathlib.Logic.Function.Basic
import Mathlib.Data.Nat.Notation

namespace Jiauliyan.Memory

/-- Unsigned 32-bit arithmetic wraps. -/
def u32 (n : ℕ) : ℕ := n % 4294967296

theorem u32_eq {n : ℕ} (h : n < 4294967296) : u32 n = n := Nat.mod_eq_of_lt h

abbrev Mem := ℕ → UInt8

def store16 (m : Mem) (a v : ℕ) : Mem :=
  Function.update (Function.update m a (UInt8.ofNat v)) (a + 1) (UInt8.ofNat (v / 256))

def load16 (m : Mem) (a : ℕ) : ℕ := (m a).toNat + 256 * (m (a + 1)).toNat

/-- The little-endian 32-bit word at `a`. -/
def load32 (m : Mem) (a : ℕ) : ℕ :=
  (m a).toNat + 256 * (m (a + 1)).toNat + 65536 * (m (a + 2)).toNat + 16777216 * (m (a + 3)).toNat

def load64 (m : Mem) (a : ℕ) : ℕ := load32 m a + 4294967296 * load32 m (a + 4)

def store32 (m : Mem) (a v : ℕ) : Mem :=
  Function.update (Function.update (Function.update (Function.update m
    a (UInt8.ofNat v)) (a + 1) (UInt8.ofNat (v / 256)))
    (a + 2) (UInt8.ofNat (v / 65536))) (a + 3) (UInt8.ofNat (v / 16777216))

theorem load32_store32 (m : Mem) (a v : ℕ) : load32 (store32 m a v) a = u32 v := by
  simp [load32, store32, u32]
  omega

theorem store32_frame (m : Mem) {a x : ℕ} (v : ℕ) (h : x < a ∨ a + 4 ≤ x) :
    store32 m a v x = m x := by
  have h0 : x ≠ a := by omega
  have h1 : x ≠ a + 1 := by omega
  have h2 : x ≠ a + 2 := by omega
  have h3 : x ≠ a + 3 := by omega
  simp [store32, h0, h1, h2, h3]

theorem load32_congr {m m' : Mem} {a : ℕ} (h : ∀ x, a ≤ x → x < a + 4 → m' x = m x) :
    load32 m' a = load32 m a := by
  unfold load32
  rw [h a (by omega) (by omega), h (a + 1) (by omega) (by omega),
    h (a + 2) (by omega) (by omega), h (a + 3) (by omega) (by omega)]

theorem load32_store32_frame (m : Mem) {a b : ℕ} (v : ℕ) (h : b + 4 ≤ a ∨ a + 4 ≤ b) :
    load32 (store32 m a v) b = load32 m b :=
  load32_congr fun _ _ _ => store32_frame m v (by omega)

end Jiauliyan.Memory
