import Jiauliyan.Correlation
import Jiauliyan.Replies

namespace Jiauliyan.Segments

open Jiauliyan.Execution Jiauliyan.Framing Jiauliyan.Client Jiauliyan.Server
open Jiauliyan.Correlation (readSegments_encode)
open Jiauliyan.Replies (bind_ok markLen_ok)

variable {ε : Type}

/-- A byte string whose length two bytes hold. -/
abbrev Segment := { p : Bytes // p.length < 65536 }

/-- `mark_len` of each string, one after the other. -/
def marked : List Bytes → Py ε Bytes
  | [] => pure []
  | p :: ps => do
    let s ← markLen p
    let rest ← marked ps
    pure (s ++ rest)

/-- The loop of `read_segments`, with the rounds counted. -/
def segmentsBody (msg : Bytes) : ℕ × List Bytes × ℕ →
    (ℕ × List Bytes × ℕ) ⊕ (Except LuaError (List Bytes) × ℕ)
  | (i, m, n) =>
    if i ≤ msg.length ∧ 2 ≤ msg.length then
      match luaWord (byte msg i) (byte msg (i + 1)) with
      | .error e => .inr (.error e, n + 1)
      | .ok len => .inl (i + 2 + len, m ++ [sub msg (i + 2) (i + 2 + len - 1)], n + 1)
    else .inr (.ok m, n)

theorem marked_eq (ps : List Segment) (c : Console ε) :
    marked (ps.map Subtype.val) c = (.ok (encode (ps.map Subtype.val)), c) := by
  induction ps with
  | nil => rfl
  | cons p ps ih =>
    rw [List.map_cons, marked, bind_ok (markLen_ok p.property c), bind_ok ih, encode_cons]
    rfl

theorem segmentsBody_exits (msg : Bytes) {i n : ℕ} (m : List Bytes) (hi : 2 * n + 1 ≤ i)
    (hn : n ≤ msg.length / 2 + 1) :
    ∃ k, Exits (segmentsBody msg) (i, m, n) (readSegments msg i m, k) ∧
      k ≤ msg.length / 2 + 1 := by
  induction i, m using readSegments.induct msg generalizing n with
  | case1 i m hin e hword =>
    refine ⟨n + 1, exits_of_inr ?_, by omega⟩
    rw [segmentsBody, if_pos hin, hword, readSegments, if_pos hin, hword]
  | case2 i m hin len hword ih =>
    obtain ⟨k, hexit, hk⟩ := ih (show 2 * (n + 1) + 1 ≤ i + 2 + len by omega) (by omega)
    refine ⟨k, ?_, hk⟩
    rw [readSegments, if_pos hin, hword]
    refine exits_of_inl ?_ hexit
    rw [segmentsBody, if_pos hin, hword]
  | case3 i m hin =>
    refine ⟨n, exits_of_inr ?_, hn⟩
    rw [segmentsBody, if_neg hin, readSegments, if_neg hin]

/-- What `mark_len` has marked `read_segments` finds again, and it takes no more than half as many
rounds as any message has bytes, and one. -/
theorem segments_read (ε : Type) :
    (∀ (ps : List Segment) (c : Console ε), ∃ msg,
      marked (ps.map Subtype.val) c = (.ok msg, c) ∧
        readSegments msg 1 [] = .ok (ps.map Subtype.val)) ∧
    ∀ msg, ∃ n, Exits (segmentsBody msg) (1, [], 0) (readSegments msg 1 [], n) ∧
      n ≤ msg.length / 2 + 1 := by
  constructor
  · intro ps c
    have hlt : ∀ p ∈ ps.map Subtype.val, p.length < 65536 := by
      intro p hp
      obtain ⟨q, -, rfl⟩ := List.mem_map.mp hp
      exact q.property
    exact ⟨_, marked_eq ps c, readSegments_encode [] _ [] hlt⟩
  · exact fun msg => segmentsBody_exits msg [] le_rfl (Nat.zero_le _)

end Jiauliyan.Segments
