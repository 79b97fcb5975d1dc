import Jiauliyan.CString

namespace Jiauliyan.WordFill

open Jiauliyan.Execution Jiauliyan.Memory Jiauliyan.CString

/-- `(unsigned short) val`. -/
def ushort (val : ℤ) : ℕ := (val % 65536).toNat

/-- The first `n` words hold the value, and all other bytes are as they were. -/
structure Fills (m m' : Mem) (dest val n : ℕ) : Prop where
  words : ∀ j < n, load16 m' (wordAddr dest j) = val
  frame : ∀ x, (∀ j < n, x ≠ wordAddr dest j ∧ x ≠ wordAddr dest j + 1) → m' x = m x

section Fill

variable {m m' : Mem} {dest val n : ℕ}

theorem fills_of_stored (hv : val < 65536) (h : Stored m m' dest val 0 n) :
    Fills m m' dest val n where
  words j hj := by
    rw [load16, h.low j (Nat.zero_le j) hj, h.high j (Nat.zero_le j) hj, UInt8.toNat_ofNat',
      UInt8.toNat_ofNat']
    omega
  frame x hx := h.frame x fun j _ hj => hx j hj

theorem endless (hn : 65536 ≤ n) : ¬Exits (memsetwBody dest val n) (0, m) m' := by
  have hkeep : ∀ s : ℕ × Mem, s.1 < 65536 →
      ∃ t, memsetwBody dest val n s = .inl t ∧ t.1 < 65536 := by
    rintro ⟨i, m⟩ hi
    have hlt : (i : ℤ) < n := by
      dsimp only at hi
      omega
    refine ⟨((i + 1) % 65536, store16 m (u32 (dest + 2 * i)) val), ?_, Nat.mod_lt _ (by omega)⟩
    rw [memsetwBody, if_pos hlt]
  exact not_exits_of_kept hkeep (Nat.zero_lt_succ 65535)

end Fill

theorem memsetw_eq_some (m m' : Mem) (dest val n : ℕ) :
    memsetw m dest val n = some m' ↔ Exits (memsetwBody dest val n) (0, m) m' := by
  constructor
  · exact fun h => ⟨65537, h⟩
  · intro h
    have hn : n < 65536 := by
      by_contra hge
      exact endless (not_lt.mp hge) h
    obtain ⟨m'', hm'', -⟩ := memsetw_loop hn (Nat.zero_add n) (show n < 65537 by omega) m
    rw [memsetw, hm'', h.unique ⟨65537, hm''⟩]

/-- `memsetw` fills its words, and ends, up to the largest count of an `unsigned short`. -/
theorem memsetw_iff (m : Mem) (dest : ℕ) (val : ℤ) (count : ℕ) :
    (∃ m', Exits (memsetwBody dest (ushort val) count) (0, m) m' ∧
      Fills m m' dest (ushort val) count) ↔ count < 65536 := by
  constructor
  · rintro ⟨m', hexit, -⟩
    by_contra hge
    exact endless (not_lt.mp hge) hexit
  · intro hn
    have hv : ushort val < 65536 := by
      unfold ushort
      omega
    obtain ⟨m', hm', hstored⟩ := memsetw_loop hn (Nat.zero_add count) (Nat.lt_succ_self count) m
    exact ⟨m', ⟨count + 1, hm'⟩, fills_of_stored hv hstored⟩

theorem memsetw_endless : ¬∀ (m : Mem) (dest : ℕ) (val : ℤ) (count : ℕ),
    ∃ m', Exits (memsetwBody dest (ushort val) count) (0, m) m' ∧
      Fills m m' dest (ushort val) count := by
  intro h
  obtain ⟨m', hexit, -⟩ := h (fun _ => 0) 0xB8000 0x720 65536
  exact endless le_rfl hexit

end Jiauliyan.WordFill
