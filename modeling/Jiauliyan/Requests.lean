import Mathlib.Data.List.Infix
import Mathlib.Tactic.SplitIfs
import Jiauliyan.Replies

namespace Jiauliyan.Requests

open Jiauliyan.Execution Jiauliyan.Framing Jiauliyan.Server Jiauliyan.Replies

variable {ε : Type} {E : Externals ε}

/-- What the client can send: the length counts the message without the id. -/
structure Request where
  id : ℕ
  msg : Bytes
  id_lt : id < 65536
  msg_lt : msg.length < 65536

def Request.encode (r : Request) : Bytes := be16 r.msg.length ++ be16 r.id ++ r.msg

def encodeRequests (rs : List Request) : Bytes := rs.flatMap Request.encode

/-- The payload is JSON, and a library that fails on it raises something that
can be shown: the loop then goes on. -/
def Survives (E : Externals ε) (payload : Bytes) : Prop :=
  ∃ jd, E.loads payload = .ok jd ∧ ∀ x, Fails E jd x → E.printable x = true

/-- Moreover the payload does not name an unknown action. -/
def Answers (E : Externals ε) (payload : Bytes) : Prop :=
  ∃ jd, E.loads payload = .ok jd ∧ ¬Unrecognized E jd ∧ ∀ x, Fails E jd x → E.printable x = true

section Handling

variable {id : ℕ}

theorem dummy_sent (hid : id < 65536) (c : Console ε) :
    sendMessage id [123, 125] c =
      (.ok (), { c with written := c.written ++ [frame (be16 id ++ [123, 125])] }) := by
  rw [sendMessage_eq hid, if_pos (by simp [be16])]

theorem tryReceive_error (hid : id < 65536) {jd : Value} {c c' : Console ε} {e : PyErr ε}
    (h : onReceive E id jd c = (.error e, c')) :
    tryReceive E id jd c =
      printError E e { c' with written := c'.written ++ [frame (be16 id ++ [123, 125])] } := by
  rw [tryReceive, h]
  exact bind_ok (dummy_sent hid c') _

theorem printError_internal {e : PyErr ε} (he : Internal e) (c : Console ε) :
    printError E e c = (.ok (), { c with stdout := c.stdout ++ [.error e] }) := by
  cases e with
  | external x => exact absurd rfl (he x)
  | _ => rfl

theorem printError_external (x : ε) (c : Console ε) :
    printError E (.external x) c =
      if E.printable x = true then (.ok (), { c with stdout := c.stdout ++ [.error (.external x)] })
      else (.error .unicodeEncodeError, c) := by
  rw [printError]
  split_ifs <;> rfl

inductive Handling (E : Externals ε) (id : ℕ) (jd : Value) (c : Console ε) :
    Except (PyErr ε) Unit × Console ε → Prop
  | replied (msg : Bytes) (out : List (Out ε)) (hlen : (be16 id ++ msg).length < 65536)
      (hknown : ¬Unrecognized E jd) (hshow : ∀ x, Fails E jd x → E.printable x = true) :
      Handling E id jd c (.ok (), ⟨c.written ++ [frame (be16 id ++ msg)], out⟩)
  | silent (out : List (Out ε)) (hun : Unrecognized E jd) :
      Handling E id jd c (.ok (), ⟨c.written, out⟩)
  | died (e : PyErr ε) (c' : Console ε) (x : ε) (hx : Fails E jd x)
      (hshow : ¬E.printable x = true) :
      Handling E id jd c (.error e, c')

theorem tryReceive_handling (E : Externals ε) (hid : id < 65536) (jd : Value) (c : Console ε) :
    Handling E id jd c (tryReceive E id jd c) := by
  have hlen : (be16 id ++ [123, 125]).length < 65536 := by simp [be16]
  have ho := onReceive_outcome E hid jd c
  generalize hr : onReceive E id jd c = r at ho
  cases ho with
  | sent msg out hmsg hknown hok =>
    rw [tryReceive, hr]
    exact Handling.replied msg out hmsg hknown fun x hx => absurd hx (hok x)
  | silent out hun =>
    rw [tryReceive, hr]
    exact Handling.silent out hun
  | internal e out he hknown hok =>
    rw [tryReceive_error hid hr, printError_internal he]
    exact Handling.replied [123, 125] _ hlen hknown fun x hx => absurd hx (hok x)
  | failed x out hknown hx =>
    rw [tryReceive_error hid hr, printError_external]
    by_cases hp : E.printable x = true
    · rw [if_pos hp]
      refine Handling.replied [123, 125] _ hlen hknown fun y hy => ?_
      rwa [(hx y).mp hy]
    · rw [if_neg hp]
      exact Handling.died _ _ x ((hx x).mpr rfl) hp

theorem unrecognized_not_fails {jd : Value} (h : Unrecognized E jd) (x : ε) : ¬Fails E jd x := by
  obtain ⟨s, hs, hne, -⟩ := h
  apply not_fails_of_action
  rw [hs]
  intro heq
  cases heq
  exact hne rfl

theorem process_error {payload : Bytes} {x : ε} (h : E.loads payload = .error x) (c : Console ε) :
    process E id payload c = (.error (.external x), c) := by
  rw [process, h]
  exact bind_error (external_error x c) _

theorem process_ok {payload : Bytes} {jd : Value} (h : E.loads payload = .ok jd) (c : Console ε) :
    process E id payload c = tryReceive E id jd c := by
  rw [process, h]
  exact bind_ok (external_ok jd c) _

theorem process_handling (hid : id < 65536) {payload : Bytes} {jd : Value}
    (h : E.loads payload = .ok jd) (c : Console ε) :
    Handling E id jd c (process E id payload c) := by
  rw [process_ok h]
  exact tryReceive_handling E hid jd c

theorem process_cases (hid : id < 65536) (payload : Bytes) (c : Console ε) :
    (∃ x, E.loads payload = .error x ∧
      process E id payload c = (.error (.external x), c)) ∨
    ∃ jd, E.loads payload = .ok jd ∧ Handling E id jd c (process E id payload c) := by
  cases hl : E.loads payload with
  | error x => exact .inl ⟨x, rfl, process_error hl c⟩
  | ok jd => exact .inr ⟨jd, rfl, process_handling hid hl c⟩

theorem process_survives_iff (hid : id < 65536) (payload : Bytes) (c : Console ε) :
    (∃ c', process E id payload c = (.ok (), c')) ↔ Survives E payload := by
  unfold Survives
  obtain ⟨x, hl, hp⟩ | ⟨jd, hl, hh⟩ := process_cases hid payload c
  · rw [hl, hp]
    simp
  · rw [hl]
    generalize process E id payload c = r at hh
    cases hh with
    | replied msg out _ _ hshow => exact ⟨fun _ => ⟨jd, rfl, hshow⟩, fun _ => ⟨_, rfl⟩⟩
    | silent out hun =>
      exact ⟨fun _ => ⟨jd, rfl, fun x hx => absurd hx (unrecognized_not_fails hun x)⟩,
        fun _ => ⟨_, rfl⟩⟩
    | died e c' x hx hshow =>
      constructor
      · rintro ⟨_, h⟩
        cases h
      · rintro ⟨jd', hjd, hall⟩
        cases hjd
        exact absurd (hall x hx) hshow

theorem process_answers_iff (hid : id < 65536) (payload : Bytes) (c : Console ε) :
    (∃ c' msg, process E id payload c = (.ok (), c') ∧ (be16 id ++ msg).length < 65536 ∧
      c'.written = c.written ++ [frame (be16 id ++ msg)]) ↔ Answers E payload := by
  unfold Answers
  obtain ⟨x, hl, hp⟩ | ⟨jd, hl, hh⟩ := process_cases hid payload c
  · rw [hl, hp]
    simp
  · rw [hl]
    generalize process E id payload c = r at hh
    cases hh with
    | replied msg out hlen hknown hshow =>
      exact ⟨fun _ => ⟨jd, rfl, hknown, hshow⟩, fun _ => ⟨_, msg, rfl, hlen, rfl⟩⟩
    | silent out hun =>
      constructor
      · rintro ⟨c', msg, hc, -, hw⟩
        cases hc
        simp at hw
      · rintro ⟨jd', hjd, hknown, -⟩
        cases hjd
        exact absurd hun hknown
    | died e c' x hx hshow =>
      constructor
      · rintro ⟨_, _, h, -⟩
        cases h
      · rintro ⟨jd', hjd, -, hall⟩
        cases hjd
        exact absurd (hall x hx) hshow

end Handling

section Reading

variable {p : Pty} {n : ℕ}

theorem read_prefix {d later : Bytes} (hp : p.rest = d ++ later) (hn : d.length = n) (h0 : 0 < n) :
    ∃ k, 0 < k ∧ k ≤ n ∧ p.read n =
      some (d.take k, ⟨d.drop k ++ later, p.avail, p.consumed + k⟩) := by
  have hne : p.rest ≠ [] := by
    intro hnil
    rw [hp, List.append_eq_nil_iff] at hnil
    rw [hnil.1] at hn
    simp at hn
    omega
  have hk : min n (max 1 (p.avail p.consumed)) ≤ d.length := by omega
  refine ⟨min n (max 1 (p.avail p.consumed)), by omega, by omega, ?_⟩
  rw [Pty.read, if_neg hne]
  simp only [hp, List.take_append_of_le_length hk, List.drop_append_of_le_length hk,
    List.length_take, min_eq_left hk]

theorem readBody_loop {l : ℕ} {data d later : Bytes} {fuel : ℕ} (hp : p.rest = d ++ later)
    (hd : data.length + d.length = l + 2) (hf : d.length < fuel) :
    loop (readBody l) fuel (data, p) =
      some (some (data ++ d, ⟨later, p.avail, p.consumed + d.length⟩)) := by
  induction fuel generalizing data d p with
  | zero => omega
  | succ fuel ih =>
    by_cases h0 : d.length = 0
    · have hnil := List.eq_nil_of_length_eq_zero h0
      subst hnil
      have hstop : ¬(data.length < l + 2) := by omega
      rw [List.nil_append] at hp
      simp only [loop, readBody, hstop, if_false, List.append_nil, List.length_nil, Nat.add_zero,
        ← hp]
    · have hmore : data.length < l + 2 := by omega
      obtain ⟨k, hk0, hk, hread⟩ := read_prefix hp (show d.length = l + 2 - data.length by omega)
        (by omega)
      have htake : (d.take k).length = k := by
        rw [List.length_take]
        omega
      have hdrop : (d.drop k).length = d.length - k := List.length_drop
      have hrest : (⟨d.drop k ++ later, p.avail, p.consumed + k⟩ : Pty).rest =
          d.drop k ++ later := rfl
      have hnext := ih hrest (show (data ++ d.take k).length + (d.drop k).length = l + 2 by
        rw [List.length_append]; omega) (by omega)
      have hsum : p.consumed + k + (d.drop k).length = p.consumed + d.length := by omega
      simp only [loop, readBody, hmore, if_true, hread]
      rw [hnext]
      simp only [hsum, List.append_assoc, List.take_append_drop]

theorem read_header (a b : UInt8) (w : Bytes) (avail : ℕ → ℕ) (consumed : ℕ) :
    Pty.read 2 ⟨a :: b :: w, avail, consumed⟩ =
      if 2 ≤ avail consumed then some ([a, b], ⟨w, avail, consumed + 2⟩)
      else some ([a], ⟨b :: w, avail, consumed + 1⟩) := by
  have hne : a :: b :: w ≠ [] := by simp
  rw [Pty.read, if_neg hne]
  by_cases h : 2 ≤ avail consumed
  · have hk : min 2 (max 1 (avail consumed)) = 2 := by omega
    simp only [h, if_true, hk]
    rfl
  · have hk : min 2 (max 1 (avail consumed)) = 1 := by omega
    simp only [h, if_false, hk]
    rfl

end Reading

section Serving

variable (E) (s : Host ε) (r : Request) (later : Bytes)

theorem encode_length : r.encode.length = r.msg.length + 4 := by
  simp [Request.encode, be16]

theorem encode_split : r.encode ++ later =
    UInt8.ofNat (r.msg.length / 256) :: UInt8.ofNat r.msg.length ::
      (be16 r.id ++ (r.msg ++ later)) := by
  simp [Request.encode, be16]

/-- The server about to read `r`, with `later` behind it. -/
def Facing : Host ε := { s with pty := { s.pty with rest := r.encode ++ later } }

def Past (c : Console ε) : Host ε :=
  ⟨⟨later, s.pty.avail, s.pty.consumed + r.encode.length⟩, c, s.recovered ++ [(r.id, r.msg)]⟩

def launch (avail : ℕ → ℕ) : Host ε := ⟨⟨[], avail, 0⟩, ⟨[], []⟩, []⟩

theorem iteration_short (h : ¬2 ≤ s.pty.avail s.pty.consumed) :
    ∃ t, iteration E (Facing s r later) = .raised .indexError t := by
  have hread := read_header (UInt8.ofNat (r.msg.length / 256)) (UInt8.ofNat r.msg.length)
    (be16 r.id ++ (r.msg ++ later)) s.pty.avail s.pty.consumed
  rw [if_neg h, ← encode_split] at hread
  refine ⟨{ Facing s r later with pty :=
    ⟨UInt8.ofNat r.msg.length :: (be16 r.id ++ (r.msg ++ later)), s.pty.avail,
      s.pty.consumed + 1⟩ }, ?_⟩
  rw [iteration, Facing, hread]

theorem iteration_full (h : 2 ≤ s.pty.avail s.pty.consumed) :
    ∃ c : Console ε, c.written = s.console.written ∧ iteration E (Facing s r later) =
      match process E r.id r.msg c with
      | (.ok _, c') => .next (Past s r later c')
      | (.error e, c') => .raised e (Past s r later c') := by
  have hread := read_header (UInt8.ofNat (r.msg.length / 256)) (UInt8.ofNat r.msg.length)
    (be16 r.id ++ (r.msg ++ later)) s.pty.avail s.pty.consumed
  rw [if_pos h, ← encode_split] at hread
  have hlen : (be16 r.id ++ r.msg).length = r.msg.length + 2 := by
    simp [be16]
  have hp : (⟨be16 r.id ++ (r.msg ++ later), s.pty.avail, s.pty.consumed + 2⟩ : Pty).rest =
      (be16 r.id ++ r.msg) ++ later := (List.append_assoc _ _ _).symm
  have hd : ([] : Bytes).length + (be16 r.id ++ r.msg).length = r.msg.length + 2 := by
    rw [hlen, List.length_nil, Nat.zero_add]
  have hbody := readBody_loop hp hd (show _ < r.msg.length + 3 by omega)
  have hdata : [] ++ (be16 r.id ++ r.msg) =
      UInt8.ofNat (r.id / 256) :: UInt8.ofNat r.id :: r.msg := rfl
  have hsum : s.pty.consumed + 2 + (be16 r.id ++ r.msg).length =
      s.pty.consumed + r.encode.length := by
    rw [hlen, encode_length]
    omega
  simp only [hdata, hsum] at hbody
  refine ⟨⟨s.console.written, s.console.stdout ++
    [.text ("Receiving command of length " ++ toString r.msg.length)] ++
    [.data ("Command (length " ++ toString r.msg.length ++ "): ") r.msg]⟩, rfl, ?_⟩
  rw [iteration, Facing, hread]
  simp only [word16_be16 r.msg_lt, hbody, word16_be16 r.id_lt]
  rfl

def refusing : Externals Unit where
  loads _ := .error ()
  dumps _ := .error ()
  request _ _ _ _ := .error ()
  encodes _ := true
  printable _ := true

def notJson : Request := ⟨1, [120], by decide, by decide⟩

/-- A message that is not JSON ends the loop without a reply. -/
theorem iteration_not_json :
    ¬∃ t msg, iteration refusing (Facing (launch fun _ => 2) notJson []) = .next t ∧
      (be16 notJson.id ++ msg).length < 65536 ∧
      t.console.written = [frame (be16 notJson.id ++ msg)] ∧ t.pty.rest = [] := by
  rintro ⟨t, msg, ht, -⟩
  obtain ⟨c, -, hit⟩ := iteration_full refusing (launch fun _ => 2) notJson [] (by decide)
  rw [hit] at ht
  cases ht

/-- One iteration writes exactly one reply frame, under the id of the request,
and goes on to the next frame, exactly if the length arrives whole and the
payload is answered. -/
theorem iteration_replies_iff :
    (∃ t msg, iteration E (Facing s r later) = .next t ∧ (be16 r.id ++ msg).length < 65536 ∧
      t.console.written = s.console.written ++ [frame (be16 r.id ++ msg)] ∧ t.pty.rest = later) ↔
    2 ≤ s.pty.avail s.pty.consumed ∧ Answers E r.msg := by
  by_cases h : 2 ≤ s.pty.avail s.pty.consumed
  · obtain ⟨c, hc, hit⟩ := iteration_full E s r later h
    rw [hit, ← process_answers_iff r.id_lt r.msg c, ← hc]
    constructor
    · rintro ⟨t, msg, ht, hlen, hw, -⟩
      refine ⟨h, ?_⟩
      generalize process E r.id r.msg c = res at ht ⊢
      match res, ht with
      | (.ok _, c'), ht =>
        cases ht
        exact ⟨c', msg, rfl, hlen, hw⟩
    · rintro ⟨-, c', msg, hp, hlen, hw⟩
      rw [hp]
      exact ⟨_, msg, rfl, hlen, hw, rfl⟩
  · obtain ⟨t, ht⟩ := iteration_short E s r later h
    rw [ht]
    constructor
    · rintro ⟨t', msg, ht', -⟩
      cases ht'
    · rintro ⟨h', -⟩
      exact absurd h' h

/-- Every request of the list is read, in order, and nothing is raised. -/
def Recovers (rs : List Request) (s : Host ε) : Prop :=
  ∃ t, serve E rs.length { s with pty := { s.pty with rest := encodeRequests rs } } = .next t ∧
    t.recovered = s.recovered ++ rs.map fun r => (r.id, r.msg)

theorem iteration_outcome :
    (∃ c, iteration E (Facing s r later) = .next (Past s r later c)) ∨
      ∃ e t, iteration E (Facing s r later) = .raised e t := by
  by_cases h : 2 ≤ s.pty.avail s.pty.consumed
  · obtain ⟨c, -, hit⟩ := iteration_full E s r later h
    rw [hit]
    cases hp : process E r.id r.msg c with
    | mk res c' =>
      cases res with
      | ok => exact Or.inl ⟨c', rfl⟩
      | error e => exact Or.inr ⟨e, _, rfl⟩
  · obtain ⟨t, ht⟩ := iteration_short E s r later h
    exact Or.inr ⟨_, t, ht⟩

variable {E} {s} in
theorem serve_next {n : ℕ} {t : Host ε} (h : iteration E s = .next t) :
    serve E (n + 1) s = serve E n t := by
  rw [serve, h]

variable {E} {s} in
theorem serve_raised {n : ℕ} {e : PyErr ε} {t : Host ε} (h : iteration E s = .raised e t) :
    serve E (n + 1) s = .raised e t := by
  rw [serve, h]

theorem recovers_cons (rs : List Request) :
    Recovers E (r :: rs) s ↔
      ∃ c, iteration E (Facing s r (encodeRequests rs)) = .next (Past s r (encodeRequests rs) c) ∧
        Recovers E rs (Past s r (encodeRequests rs) c) := by
  have hstart : { s with pty := { s.pty with rest := encodeRequests (r :: rs) } } =
      Facing s r (encodeRequests rs) := rfl
  have hlist : ∀ c, (Past s r (encodeRequests rs) c).recovered ++ rs.map (fun r => (r.id, r.msg)) =
      s.recovered ++ (r :: rs).map fun r => (r.id, r.msg) := by
    intro c
    rw [Past, List.append_assoc]
    rfl
  unfold Recovers
  rw [hstart, List.length_cons]
  obtain ⟨c, hit⟩ | ⟨e, t, hit⟩ := iteration_outcome E s r (encodeRequests rs)
  · rw [serve_next hit]
    constructor
    · rintro ⟨t, ht, hrec⟩
      exact ⟨c, hit, t, ht, by rw [hrec, hlist]⟩
    · rintro ⟨c', hit', t, ht, hrec⟩
      have hc : Past s r (encodeRequests rs) c = Past s r (encodeRequests rs) c' :=
        Result.next.inj (hit.symm.trans hit')
      rw [hc]
      exact ⟨t, ht, by rw [hrec, hlist]⟩
  · rw [serve_raised hit]
    constructor
    · rintro ⟨t', ht, -⟩
      cases ht
    · rintro ⟨c, hit', -⟩
      rw [hit] at hit'
      cases hit'

/-- One request is read and survived exactly if its length arrives whole and
its payload survives. -/
theorem iteration_next_iff :
    (∃ c, iteration E (Facing s r later) = .next (Past s r later c)) ↔
      2 ≤ s.pty.avail s.pty.consumed ∧ Survives E r.msg := by
  by_cases h : 2 ≤ s.pty.avail s.pty.consumed
  · obtain ⟨c, -, hit⟩ := iteration_full E s r later h
    rw [hit, ← process_survives_iff r.id_lt r.msg c]
    generalize process E r.id r.msg c = res
    match res with
    | (.ok _, c') => exact ⟨fun _ => ⟨h, c', rfl⟩, fun _ => ⟨c', rfl⟩⟩
    | (.error e, c') =>
      constructor
      · rintro ⟨_, hn⟩
        cases hn
      · rintro ⟨_, _, hn⟩
        cases hn
  · obtain ⟨t, ht⟩ := iteration_short E s r later h
    rw [ht]
    constructor
    · rintro ⟨_, hn⟩
      cases hn
    · rintro ⟨h', -⟩
      exact absurd h' h

theorem recovers_iff_from (rs : List Request) :
    Recovers E rs s ↔
      (∀ k, k < rs.length →
        2 ≤ s.pty.avail (s.pty.consumed + (encodeRequests (rs.take k)).length)) ∧
        ∀ r ∈ rs, Survives E r.msg := by
  induction rs generalizing s with
  | nil =>
    constructor
    · intro _
      exact ⟨fun k hk => absurd hk (Nat.not_lt_zero k), fun r hr => absurd hr List.not_mem_nil⟩
    · intro _
      exact ⟨_, rfl, (List.append_nil _).symm⟩
  | cons r rs ih =>
    have hshift : ∀ k, (encodeRequests ((r :: rs).take (k + 1))).length =
        r.encode.length + (encodeRequests (rs.take k)).length := by
      intro k
      rw [List.take_succ_cons, encodeRequests, List.flatMap_cons, List.length_append]
      rfl
    have hrest : ∀ c, Recovers E rs (Past s r (encodeRequests rs) c) ↔
        (∀ k, k < rs.length → 2 ≤ s.pty.avail
          (s.pty.consumed + (encodeRequests ((r :: rs).take (k + 1))).length)) ∧
        ∀ q ∈ rs, Survives E q.msg := by
      intro c
      rw [ih]
      simp only [hshift, ← Nat.add_assoc]
      rfl
    rw [recovers_cons]
    constructor
    · rintro ⟨c, hnext, hrec⟩
      obtain ⟨h0, hr⟩ := (iteration_next_iff E s r (encodeRequests rs)).mp ⟨c, hnext⟩
      obtain ⟨hk, hall⟩ := (hrest c).mp hrec
      refine ⟨fun k hlt => ?_, fun q hq => ?_⟩
      · cases k with
        | zero => exact h0
        | succ k => exact hk k (Nat.lt_of_succ_lt_succ hlt)
      · obtain rfl | hq := List.mem_cons.mp hq
        · exact hr
        · exact hall q hq
    · rintro ⟨hk, hall⟩
      obtain ⟨c, hnext⟩ := (iteration_next_iff E s r (encodeRequests rs)).mpr
        ⟨hk 0 (Nat.succ_pos _), hall r List.mem_cons_self⟩
      exact ⟨c, hnext, (hrest c).mpr ⟨fun k hlt => hk (k + 1) (Nat.succ_lt_succ hlt),
        fun q hq => hall q (List.mem_cons_of_mem r hq)⟩⟩

def emptyObject : Request := ⟨1, [123, 125], by decide, by decide⟩

/-- A length that arrives byte by byte is not read. -/
theorem length_read_short :
    ¬Recovers { refusing with loads := fun _ => .ok (.object []) } [emptyObject]
      (launch fun _ => 1) := by
  intro h
  obtain ⟨hshort, -⟩ := (recovers_iff_from _ _ _).mp h
  have h1 : 2 ≤ 1 := hshort 0 (by decide)
  omega

/-- The server recovers what the client encoded, without raising, exactly if
every read of a length finds both of its bytes and every message survives. -/
theorem requests_recovered_iff (avail : ℕ → ℕ) (rs : List Request) :
    Recovers E rs (launch avail) ↔
      (∀ k, k < rs.length → 2 ≤ avail (encodeRequests (rs.take k)).length) ∧
        ∀ r ∈ rs, Survives E r.msg := by
  have h := recovers_iff_from E (launch avail) rs
  simpa only [launch, Nat.zero_add] using h

end Serving

end Jiauliyan.Requests
