import Mathlib.Logic.Function.Basic
import Jiauliyan.Framing

namespace Jiauliyan.Client

open Jiauliyan.Framing

inductive LuaError
  | arithmeticOnNil
  | invalidCharValue

/-- The JSON library: what decoding yields (a value and a message) unless it
raises, and which values count as true. -/
structure Json (ν : Type*) where
  decode : Option Bytes → Option (Option ν × Option Bytes)
  truthy : ν → Bool

inductive Line
  | badMessage
  | status (s : Option Bytes)

inductive VgaCall
  | setbg (c : ℕ)
  | setfg (c : ℕ)
  | placechar (c : Char) (x y : ℕ)

/-- The globals of the script. `handed` records the payloads that `handle_message` was
called on, `sent` what went out through `serial.send`. -/
structure Globals (ν : Type*) where
  loadBarI : ℕ
  vga : List VgaCall
  messageHeaders : ℕ → Option ν
  messageResponses : ℕ → Option Bytes
  serin : Bytes
  status : Option Bytes
  sendMessageId : ℕ
  printed : List Line
  handed : List Bytes
  sent : Bytes

variable {ν : Type*}

def boot : Globals ν := ⟨1, [], fun _ => none, fun _ => none, [], none, 1, [], [], []⟩

def byte (s : Bytes) (i : ℕ) : Option UInt8 := s[i - 1]?

def sub (s : Bytes) (i j : ℕ) : Bytes := (s.take j).drop (i - 1)

def subFrom (s : Bytes) (i : ℕ) : Bytes := s.drop (i - 1)

/-- `a*256 + b`, which raises on a missing byte. -/
def luaWord : Option UInt8 → Option UInt8 → Except LuaError ℕ
  | some a, some b => .ok (word16 a b)
  | _, _ => .error .arithmeticOnNil

def stringChar : List ℕ → Except LuaError Bytes
  | [] => .ok []
  | n :: ns =>
    if n < 256 then (stringChar ns).map (UInt8.ofNat n :: ·) else .error .invalidCharValue

def loadBarChar (i : ℕ) : Char := ['|', '\\', '-', '/'].getD (i - 1) '|'

def loadBar (s : Globals ν) : Globals ν :=
  { s with
    vga := s.vga ++
      [.setbg 0, .setfg 12, .placechar (loadBarChar s.loadBarI) 79 0, .setbg 8, .setfg 15]
    loadBarI := s.loadBarI % 4 + 1 }

/-- The loop of `read_segments` at index `i`, with the segments found so far. -/
def readSegments (msg : Bytes) (i : ℕ) (m : List Bytes) : Except LuaError (List Bytes) :=
  if i ≤ msg.length ∧ 2 ≤ msg.length then
    match luaWord (byte msg i) (byte msg (i + 1)) with
    | .error e => .error e
    | .ok len => readSegments msg (i + 2 + len) (m ++ [sub msg (i + 2) (i + 2 + len - 1)])
  else .ok m
termination_by msg.length + 1 - i

/-- The function that `handle_message` runs under `pcall`; `false` if it raised. -/
def decodeMessage (json : Json ν) (id : ℕ) (msg : Bytes) (s : Globals ν) : Bool × Globals ν :=
  match readSegments (subFrom msg 3) 1 [] with
  | .error _ => (false, s)
  | .ok m =>
    match json.decode m[0]? with
    | none => (false, s)
    | some (value, status) =>
      (true, { s with
        messageHeaders := Function.update s.messageHeaders id value
        status := status
        messageResponses := Function.update s.messageResponses id m[1]? })

def print (line : Line) (s : Globals ν) : Globals ν := { s with printed := s.printed ++ [line] }

def handleMessage (json : Json ν) (msg : Bytes) (s₀ : Globals ν) :
    Except LuaError (ℕ × Globals ν) :=
  let s := { s₀ with handed := s₀.handed ++ [msg] }
  match luaWord (byte msg 1) (byte msg 2) with
  | .error e => .error e
  | .ok id =>
    match decodeMessage json id msg s with
    | (false, s') => .ok (id, print .badMessage s')
    | (true, s') =>
      if (s'.messageHeaders id).any json.truthy then .ok (id, s')
      else .ok (id, print (.status s'.status) s')

/-- `chunk` is what `serial.receive_all` returns. -/
def pollForMessage (json : Json ν) (chunk : Bytes) (s₀ : Globals ν) :
    Except LuaError (ℤ × Globals ν) :=
  let s := { loadBar s₀ with serin := s₀.serin ++ chunk }
  if 2 < s.serin.length then
    match luaWord (byte s.serin 1) (byte s.serin 2) with
    | .error e => .error e
    | .ok l =>
      if l + 2 ≤ s.serin.length then
        match handleMessage json (sub s.serin 3 (l + 2)) s with
        | .error e => .error e
        | .ok (retid, s') => .ok (retid, { s' with serin := subFrom s'.serin (l + 3) })
      else .ok (-1, s)
  else .ok (-1, s)

/-- One poll after the other, each with its chunk. -/
def polls (json : Json ν) (chunks : List Bytes) (s : Globals ν) : Except LuaError (Globals ν) :=
  chunks.foldlM (fun s chunk => (pollForMessage json chunk s).map Prod.snd) s

/-- The results of these polls. -/
def pollIds (json : Json ν) : List Bytes → Globals ν → Except LuaError (List ℤ)
  | [], _ => .ok []
  | chunk :: chunks, s =>
    match pollForMessage json chunk s with
    | .error e => .error e
    | .ok (id, t) => (pollIds json chunks t).map (id :: ·)

/-- `handle_message` called on one payload after the other, with its results. -/
def handles (json : Json ν) (ps : List Bytes) (s : Globals ν) :
    Except LuaError (List ℤ × Globals ν) :=
  ps.foldlM (fun q p => (handleMessage json p q.2).map fun v => (q.1 ++ [(v.1 : ℤ)], v.2)) ([], s)

/-- The globals less the buffer and the load bar, which `handle_message` does not look at. -/
def outcome (s : Globals ν) : Globals ν := { s with loadBarI := 1, vga := [], serin := [] }

/-- What `send_message` gives to `serial.send`: the length of the message
without its id, the id, the message. -/
def requestBytes (msg : Bytes) (id : ℕ) : Except LuaError Bytes :=
  match stringChar [msg.length / 256, msg.length % 256], stringChar [id / 256, id % 256] with
  | .ok l, .ok i => .ok (l ++ i ++ msg)
  | .error e, _ => .error e
  | _, .error e => .error e

def finishMessage (s : Globals ν) : Globals ν :=
  { s with
    messageHeaders := Function.update s.messageHeaders s.sendMessageId none
    messageResponses := Function.update s.messageResponses s.sendMessageId none
    sendMessageId := s.sendMessageId + 1 }

variable {json : Json ν} {msg p r chunk : Bytes}

theorem stringChar_two {a b : ℕ} (ha : a < 256) (hb : b < 256) :
    stringChar [a, b] = .ok [UInt8.ofNat a, UInt8.ofNat b] := by
  simp [stringChar, ha, hb, Except.map]

theorem stringChar_be16 {n : ℕ} (h : n < 65536) : stringChar [n / 256, n % 256] = .ok (be16 n) := by
  have hmod : UInt8.ofNat (n % 256) = UInt8.ofNat n := by
    apply UInt8.toNat.inj
    simp
  rw [stringChar_two (by omega) (by omega), hmod, be16]

theorem requestBytes_ok {id : ℕ} (hm : msg.length < 65536) (hid : id < 65536) :
    requestBytes msg id = .ok (be16 msg.length ++ be16 id ++ msg) := by
  simp only [requestBytes, stringChar_be16 hm, stringChar_be16 hid]

theorem requestBytes_lt {id : ℕ} {request : Bytes} (h : requestBytes msg id = .ok request) :
    id < 65536 := by
  by_contra hge
  have hchar : stringChar [id / 256, id % 256] = .error .invalidCharValue := if_neg (by omega)
  unfold requestBytes at h
  rw [hchar] at h
  cases hm : stringChar [msg.length / 256, msg.length % 256] <;> rw [hm] at h <;> cases h

theorem luaWord_header (x y : UInt8) (w : Bytes) :
    luaWord (byte (x :: y :: w) 1) (byte (x :: y :: w) 2) = .ok (word16 x y) := rfl

theorem luaWord_short (h : msg.length < 2) :
    luaWord (byte msg 1) (byte msg 2) = .error .arithmeticOnNil := by
  match msg, h with
  | [], _ => rfl
  | [_], _ => rfl

/-- The header of the message does not decode to a value that counts as true. -/
def Undecodable (json : Json ν) (msg : Bytes) : Prop :=
  ∀ m, readSegments (subFrom msg 3) 1 [] = .ok m →
    ∀ v status, json.decode m[0]? = some (v, status) → v.any json.truthy = false

theorem decodeMessage_cases (json : Json ν) (id : ℕ) (msg : Bytes) (s : Globals ν) :
    (decodeMessage json id msg s = (false, s) ∧ Undecodable json msg) ∨
    ∃ m v status, decodeMessage json id msg s =
        (true, { s with
          messageHeaders := Function.update s.messageHeaders id v
          status := status
          messageResponses := Function.update s.messageResponses id m[1]? }) ∧
      readSegments (subFrom msg 3) 1 [] = .ok m ∧ json.decode m[0]? = some (v, status) := by
  unfold decodeMessage
  cases hm : readSegments (subFrom msg 3) 1 [] with
  | error e => exact Or.inl ⟨rfl, fun m h => by rw [hm] at h; cases h⟩
  | ok m =>
    cases hd : json.decode m[0]? with
    | none =>
      refine Or.inl ⟨by simp [hd], fun m' h v status hv => ?_⟩
      rw [hm] at h
      cases h
      rw [hd] at hv
      cases hv
    | some v => exact Or.inr ⟨m, v.1, v.2, by simp [hd], rfl, hd⟩

theorem undecodable_iff {m : List Bytes} {v : Option ν} {status : Option Bytes}
    (hm : readSegments (subFrom msg 3) 1 [] = .ok m) (hd : json.decode m[0]? = some (v, status)) :
    Undecodable json msg ↔ v.any json.truthy = false := by
  constructor
  · intro h
    exact h m hm v status hd
  · intro h m' hm' v' status' hd'
    rw [hm] at hm'
    cases hm'
    rw [hd] at hd'
    cases hd'
    exact h

structure Handled (json : Json ν) (msg : Bytes) (s t : Globals ν) : Prop where
  serin : t.serin = s.serin
  handed : t.handed = s.handed ++ [msg]
  sent : t.sent = s.sent
  nextId : t.sendMessageId = s.sendMessageId
  printed : ∃ line : Option Line,
    t.printed = s.printed ++ line.toList ∧ (line.isSome ↔ Undecodable json msg)

theorem handleMessage_ok (json : Json ν) (s : Globals ν) (h : 2 ≤ msg.length) :
    ∃ id t, handleMessage json msg s = .ok (id, t) ∧ Handled json msg s t := by
  match msg, h with
  | x :: y :: w, h =>
    unfold handleMessage
    rw [luaWord_header]
    obtain ⟨hd, hu⟩ | ⟨m, v, status, hd, hm, hv⟩ :=
      decodeMessage_cases json (word16 x y) (x :: y :: w)
        { s with handed := s.handed ++ [x :: y :: w] }
    · exact ⟨word16 x y, print .badMessage { s with handed := s.handed ++ [x :: y :: w] },
        by simp only [hd], rfl, rfl, rfl, rfl, some .badMessage, rfl, by simp [hu]⟩
    · have hu := undecodable_iff hm hv
      simp only [hd, Function.update_self]
      by_cases ht : v.any json.truthy = true
      · rw [if_pos ht]
        exact ⟨_, _, rfl, rfl, rfl, rfl, rfl, none, by simp, by simp [hu, ht]⟩
      · rw [if_neg ht]
        exact ⟨_, _, rfl, rfl, rfl, rfl, rfl, some (.status status), rfl, by simpa [hu] using ht⟩

theorem decodeMessage_outcome (json : Json ν) (id : ℕ) (msg : Bytes) (s : Globals ν) :
    decodeMessage json id msg (outcome s) =
      ((decodeMessage json id msg s).1, outcome (decodeMessage json id msg s).2) := by
  unfold decodeMessage
  cases readSegments (subFrom msg 3) 1 [] with
  | error e => rfl
  | ok m =>
    cases hd : json.decode m[0]? with
    | none => simp only [hd]
    | some v =>
      simp only [hd]
      rfl

theorem handleMessage_outcome (json : Json ν) (msg : Bytes) (s : Globals ν) :
    handleMessage json msg (outcome s) =
      (handleMessage json msg s).map fun v => (v.1, outcome v.2) := by
  unfold handleMessage
  cases luaWord (byte msg 1) (byte msg 2) with
  | error e => rfl
  | ok id =>
    have hd := decodeMessage_outcome json id msg { s with handed := s.handed ++ [msg] }
    have ho : outcome { s with handed := s.handed ++ [msg] } =
        { outcome s with handed := (outcome s).handed ++ [msg] } := rfl
    rw [ho] at hd
    simp only [hd]
    obtain ⟨b, t⟩ := decodeMessage json id msg { s with handed := s.handed ++ [msg] }
    cases b with
    | false => rfl
    | true =>
      by_cases ht : (t.messageHeaders id).any json.truthy = true
      · have ht' : ((outcome t).messageHeaders id).any json.truthy = true := ht
        simp only [ht, ht', if_true]
        rfl
      · have ht' : ¬((outcome t).messageHeaders id).any json.truthy = true := ht
        simp only [ht, ht', Bool.false_eq_true, if_false]
        rfl

theorem handles_snoc {ps : List Bytes} {p : Bytes} {ids : List ℤ} {id : ℕ} {s t u : Globals ν}
    (h : handles json ps s = .ok (ids, t)) (hp : handleMessage json p t = .ok (id, u)) :
    handles json (ps ++ [p]) s = .ok (ids ++ [(id : ℤ)], u) := by
  unfold handles at h ⊢
  rw [List.foldlM_append, h]
  show (handleMessage json p t).map _ >>= _ = _
  rw [hp]
  rfl

theorem handleMessage_short (json : Json ν) (s : Globals ν) (h : msg.length < 2) :
    handleMessage json msg s = .error .arithmeticOnNil := by
  unfold handleMessage
  rw [luaWord_short h]

theorem sub_payload (p r : Bytes) : sub (frame p ++ r) 3 (p.length + 2) = p := by
  have hlen := frame_length p
  have htake : (frame p ++ r).take (p.length + 2) = frame p := by
    rw [← hlen, List.take_left]
  rw [sub, htake]
  rfl

theorem subFrom_rest (p r : Bytes) : subFrom (frame p ++ r) (p.length + 3) = r := by
  have hlen : p.length + 3 - 1 = (frame p).length := by
    rw [frame_length]
    omega
  rw [subFrom, hlen, List.drop_left]

theorem luaWord_frame (hp : p.length < 65536) (r : Bytes) :
    luaWord (byte (frame p ++ r) 1) (byte (frame p ++ r) 2) = .ok p.length := by
  have h := luaWord_header (UInt8.ofNat (p.length / 256)) (UInt8.ofNat p.length) (p ++ r)
  rwa [word16_be16 hp] at h

def received (chunk : Bytes) (s : Globals ν) : Globals ν :=
  { loadBar s with serin := s.serin ++ chunk }

theorem pollForMessage_none (json : Json ν) (s : Globals ν)
    (h : splitFrame (s.serin ++ chunk) = none) :
    pollForMessage json chunk s = .ok (-1, received chunk s) := by
  unfold pollForMessage
  simp only [received]
  match s.serin ++ chunk, h with
  | [], _ => rfl
  | [_], _ => rfl
  | x :: y :: w, h =>
    by_cases hlen : 2 < (x :: y :: w).length
    · have hshort : ¬(word16 x y + 2 ≤ (x :: y :: w).length) := by
        intro hle
        have hw : word16 x y ≤ w.length := by simpa using hle
        simp [splitFrame, hw] at h
      simp only [hlen, if_true, luaWord_header, hshort, if_false]
    · simp only [hlen, if_false]

theorem pollForMessage_small (json : Json ν) (s : Globals ν) (h : (s.serin ++ chunk).length ≤ 2) :
    pollForMessage json chunk s = .ok (-1, received chunk s) :=
  if_neg (Nat.not_lt.mpr h)

theorem pollForMessage_frame (json : Json ν) (s : Globals ν) (h : s.serin ++ chunk = frame p ++ r)
    (hp : p.length < 65536) (hlen : 2 < (frame p ++ r).length) :
    pollForMessage json chunk s =
      match handleMessage json p (received chunk s) with
      | .error e => .error e
      | .ok (retid, t) => .ok (retid, { t with serin := subFrom t.serin (p.length + 3) }) := by
  have hle : p.length + 2 ≤ (frame p ++ r).length := by
    rw [List.length_append, frame_length]
    omega
  unfold pollForMessage
  simp only [received, h, hlen, if_true, luaWord_frame hp, hle, sub_payload]

structure HandsOver (json : Json ν) (p : Bytes) (id : ℕ) (s t : Globals ν) : Prop where
  handled : handleMessage json p (outcome s) = .ok (id, outcome t)
  handed : t.handed = s.handed ++ [p]
  sent : t.sent = s.sent
  nextId : t.sendMessageId = s.sendMessageId
  printed : ∃ line : Option Line,
    t.printed = s.printed ++ line.toList ∧ (line.isSome ↔ Undecodable json p)

theorem pollForMessage_some (json : Json ν) (s : Globals ν) (h : s.serin ++ chunk = frame p ++ r)
    (hp : p.length < 65536) (h2 : 2 ≤ p.length) :
    ∃ id t, pollForMessage json chunk s = .ok ((id : ℕ), t) ∧ t.serin = r ∧
      HandsOver json p id s t := by
  have hlen : 2 < (frame p ++ r).length := by
    rw [List.length_append, frame_length]
    omega
  obtain ⟨id, t, ht, hh⟩ := handleMessage_ok json (received chunk s) h2
  have hserin : t.serin = frame p ++ r := hh.serin.trans h
  refine ⟨id, { t with serin := subFrom t.serin (p.length + 3) }, ?_, ?_, ?_⟩
  · rw [pollForMessage_frame json s h hp hlen, ht]
  · simp only [hserin, subFrom_rest]
  · refine ⟨?_, hh.handed, hh.sent, hh.nextId, hh.printed⟩
    have ho := handleMessage_outcome json p (received chunk s)
    rw [ht] at ho
    exact ho

theorem pollForMessage_raises (json : Json ν) (s : Globals ν) (h : s.serin ++ chunk = frame p ++ r)
    (h2 : p.length < 2) (hlen : 2 < (frame p ++ r).length) :
    pollForMessage json chunk s = .error .arithmeticOnNil := by
  rw [pollForMessage_frame json s h (by omega) hlen, handleMessage_short json _ h2]

theorem pollForMessage_nextId {s t : Globals ν} {id : ℤ}
    (h : pollForMessage json chunk s = .ok (id, t)) :
    t.sendMessageId = s.sendMessageId := by
  cases hs : splitFrame (s.serin ++ chunk) with
  | none =>
    rw [pollForMessage_none json s hs] at h
    cases h
    rfl
  | some pr =>
    obtain ⟨hb, hp⟩ := splitFrame_eq (p := pr.1) (r := pr.2) hs
    by_cases hlen : 2 < (frame pr.1 ++ pr.2).length
    · by_cases h2 : 2 ≤ pr.1.length
      · obtain ⟨id', t', ht, -, hover⟩ := pollForMessage_some json s hb hp h2
        rw [ht] at h
        cases h
        exact hover.nextId
      · rw [pollForMessage_raises json s hb (Nat.lt_of_not_le h2) hlen] at h
        cases h
    · rw [← hb] at hlen
      rw [pollForMessage_small json s (Nat.le_of_not_lt hlen)] at h
      cases h
      rfl

theorem polls_cons (json : Json ν) (c : Bytes) (cs : List Bytes) (s : Globals ν) :
    polls json (c :: cs) s =
      match pollForMessage json c s with
      | .error e => .error e
      | .ok (_, t) => polls json cs t := by
  unfold polls
  rw [List.foldlM_cons]
  cases pollForMessage json c s <;> rfl

theorem pollIds_cons_ok {c : Bytes} {cs : List Bytes} {id : ℤ} {rs : List ℤ} {s t : Globals ν}
    (h : pollForMessage json c s = .ok (id, t)) (hr : pollIds json cs t = .ok rs) :
    pollIds json (c :: cs) s = .ok (id :: rs) := by
  simp only [pollIds, h, hr]
  rfl

theorem polls_append (json : Json ν) (cs ds : List Bytes) (s : Globals ν) :
    polls json (cs ++ ds) s =
      match polls json cs s with
      | .error e => .error e
      | .ok t => polls json ds t := by
  induction cs generalizing s with
  | nil => rfl
  | cons c cs ih =>
    rw [List.cons_append, polls_cons, polls_cons]
    cases pollForMessage json c s with
    | error e => rfl
    | ok v => exact ih v.2

end Jiauliyan.Client
