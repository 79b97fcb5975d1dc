import Mathlib.Data.List.Forall2
import Mathlib.Data.List.Nodup
import Jiauliyan.Execution
import Jiauliyan.Client

namespace Jiauliyan.Correlation

open Jiauliyan.Execution Jiauliyan.Framing Jiauliyan.Client

variable {ν : Type*}

/-- One `send_message(msg, true, callback)` with the reply the peer gives it.
`schedule` says how many bytes each poll finds; after it, all that is left. -/
structure Call (json : Json ν) where
  msg : Bytes
  short : msg.length < 65536
  header : Bytes
  body : Bytes
  fits : header.length + body.length + 6 < 65536
  value : ν
  status : Option Bytes
  decodes : json.decode (some header) = some (some value, status)
  schedule : List ℕ

def Call.reply {json : Json ν} (c : Call json) (request : Bytes) : Bytes :=
  frame ((request.drop 2).take 2 ++ encode [c.header, c.body])

/-- A finite run of calls: each call, the calls that its callback makes, the
calls after it. -/
inductive Script (json : Json ν)
  | done
  | send (c : Call json) (nested rest : Script json)

def Script.calls {json : Json ν} : Script json → List (Call json)
  | .done => []
  | .send c nested rest => c :: (nested.calls ++ rest.calls)

/-- No callback sends. -/
def Script.Flat {json : Json ν} : Script json → Prop
  | .done => True
  | .send _ nested rest => nested = .done ∧ rest.Flat

/-- The script's globals and the bytes the peer has sent that no poll has
received. -/
structure World (ν : Type*) where
  inflight : Bytes
  lua : Globals ν

def start : World ν := ⟨[], boot⟩

def waitBody (json : Json ν) :
    World ν × List ℕ → (World ν × List ℕ) ⊕ Except LuaError (World ν)
  | (w, schedule) =>
    let n := schedule.headD w.inflight.length
    match pollForMessage json (w.inflight.take n) w.lua with
    | .error e => .inr (.error e)
    | .ok (id, t) =>
      if id = (t.sendMessageId : ℤ) then .inr (.ok ⟨w.inflight.drop n, t⟩)
      else .inl (⟨w.inflight.drop n, t⟩, schedule.tail)

inductive Event (ν : Type*)
  | sent (request : Bytes)
  | called (header : Option ν) (body : Option Bytes)
  | returned (header : Option ν) (body : Option Bytes)

/-- Executions in which no call raises. The events are the requests sent, the
arguments of the callbacks, and the entries for its id that a call leaves. -/
inductive Runs (json : Json ν) : Script json → World ν → List (Event ν) → World ν → Prop
  | done (w : World ν) : Runs json .done w [] w
  | send {c : Call json} {nested rest : Script json} {w w₁ w₂ w₃ : World ν} {request : Bytes}
      {es es' : List (Event ν)} :
      requestBytes c.msg w.lua.sendMessageId = .ok request →
      Exits (waitBody json)
        (⟨w.inflight ++ c.reply request, { w.lua with sent := w.lua.sent ++ request }⟩, c.schedule)
        (.ok w₁) →
      Runs json nested w₁ es w₂ →
      Runs json rest ⟨w₂.inflight, finishMessage w₂.lua⟩ es' w₃ →
      Runs json (.send c nested rest) w
        (.sent request ::
          .called (w₁.lua.messageHeaders w₁.lua.sendMessageId)
            (w₁.lua.messageResponses w₁.lua.sendMessageId) :: es ++
          .returned ((finishMessage w₂.lua).messageHeaders w.lua.sendMessageId)
            ((finishMessage w₂.lua).messageResponses w.lua.sendMessageId) :: es') w₃

theorem Runs.unique {json : Json ν} {script : Script json} {w w' w'' : World ν}
    {es es' : List (Event ν)} (h : Runs json script w es w') (h' : Runs json script w es' w'') :
    es = es' ∧ w' = w'' := by
  induction h generalizing es' w'' with
  | done w =>
    cases h'
    exact ⟨rfl, rfl⟩
  | send hreq hwait _ _ ihn ihr =>
    cases h' with
    | send hreq' hwait' hn' hr' =>
      rw [hreq] at hreq'
      cases hreq'
      have hw := hwait.unique hwait'
      cases hw
      obtain ⟨rfl, rfl⟩ := ihn hn'
      obtain ⟨rfl, rfl⟩ := ihr hr'
      exact ⟨rfl, rfl⟩

def requests (es : List (Event ν)) : List Bytes :=
  es.filterMap fun | .sent request => some request | _ => none

def callbacks (es : List (Event ν)) : List (Option ν × Option Bytes) :=
  es.filterMap fun | .called header body => some (header, body) | _ => none

def leftovers (es : List (Event ν)) : List (Option ν × Option Bytes) :=
  es.filterMap fun | .returned header body => some (header, body) | _ => none

/-- The two bytes of a request that name its id. -/
def carriedId (request : Bytes) : Bytes := (request.drop 2).take 2

/-- Every call transmits its message, ids are distinct, each callback is
invoked once with its own reply, and no call leaves an entry for its id. -/
structure Correlated {json : Json ν} (script : Script json) (es : List (Event ν)) : Prop where
  transmitted : List.Forall₂ (fun c r => ∃ id, r = be16 c.msg.length ++ be16 id ++ c.msg)
    script.calls (requests es)
  distinct : ((requests es).map carriedId).Nodup
  answered : callbacks es = script.calls.map fun c => (some c.value, some c.body)
  cleared : leftovers es = script.calls.map fun _ => (none, none)

section Replies

variable {json : Json ν}

theorem byte_append (pre w : Bytes) {i : ℕ} (hi : 0 < i) :
    byte (pre ++ w) (pre.length + i) = byte w i := by
  have h : pre.length + i - 1 - pre.length = i - 1 := by omega
  rw [byte, byte, List.getElem?_append_right (by omega), h]

theorem sub_append (pre w : Bytes) {i : ℕ} (hi : 0 < i) (j : ℕ) :
    sub (pre ++ w) (pre.length + i) (pre.length + j) = sub w i j := by
  have h : pre.length + i - 1 = pre.length + (i - 1) := by omega
  rw [sub, sub, h, List.take_length_add_append, List.drop_length_add_append]

theorem readSegments_encode (pre : Bytes) (ps m : List Bytes) (hps : ∀ p ∈ ps, p.length < 65536) :
    readSegments (pre ++ encode ps) (pre.length + 1) m = .ok (m ++ ps) := by
  induction ps generalizing pre m with
  | nil =>
    rw [readSegments, encode_nil, List.append_nil, if_neg (by omega), List.append_nil]
  | cons p ps ih =>
    have hp := hps p List.mem_cons_self
    have hlen : (pre ++ encode (p :: ps)).length =
        pre.length + p.length + 2 + (encode ps).length := by
      rw [encode_cons, List.length_append, List.length_append, frame_length]
      omega
    have hword : luaWord (byte (pre ++ encode (p :: ps)) (pre.length + 1))
        (byte (pre ++ encode (p :: ps)) (pre.length + 2)) = .ok p.length := by
      rw [byte_append pre _ (by omega), byte_append pre _ (by omega), encode_cons, luaWord_frame hp]
    have hsub : sub (pre ++ encode (p :: ps)) (pre.length + 1 + 2)
        (pre.length + 1 + 2 + p.length - 1) = p := by
      have hi : pre.length + 1 + 2 = pre.length + 3 := by omega
      have hj : pre.length + 3 + p.length - 1 = pre.length + (p.length + 2) := by omega
      rw [hi, hj, sub_append pre _ (by omega), encode_cons, sub_payload]
    have hnext : pre.length + 1 + 2 + p.length = (pre ++ frame p).length + 1 := by
      rw [List.length_append, frame_length]
      omega
    rw [readSegments, if_pos (by omega), hword]
    dsimp only
    rw [hsub, hnext, encode_cons, ← List.append_assoc, ih (pre ++ frame p) (m ++ [p])
      (fun q hq => hps q (List.mem_cons_of_mem p hq)), List.append_assoc]
    rfl

def payload (id : ℕ) (c : Call json) : Bytes := be16 id ++ encode [c.header, c.body]

theorem payload_carries (id : ℕ) (c : Call json) :
    2 ≤ (payload id c).length ∧ (payload id c).length < 65536 := by
  have hlen : (payload id c).length = c.header.length + c.body.length + 6 := by
    simp [payload, encode_cons, encode_nil, frame_length, be16]
    omega
  have hfits := c.fits
  omega

theorem reply_eq {id : ℕ} (c : Call json) :
    c.reply (be16 c.msg.length ++ be16 id ++ c.msg) = frame (payload id c) := rfl

structure Answered (id : ℕ) (c : Call json) (s t : Globals ν) : Prop where
  header : t.messageHeaders id = some c.value
  response : t.messageResponses id = some c.body
  nextId : t.sendMessageId = s.sendMessageId
  serin : t.serin = []

theorem decodeMessage_reply {id : ℕ} (c : Call json) (s : Globals ν) :
    decodeMessage json id (payload id c) s =
      (true, { s with
        messageHeaders := Function.update s.messageHeaders id (some c.value)
        status := c.status
        messageResponses := Function.update s.messageResponses id (some c.body) }) := by
  have hfits := c.fits
  have hsub : subFrom (payload id c) 3 = [] ++ encode [c.header, c.body] := rfl
  have hseg : readSegments (subFrom (payload id c) 3) 1 [] = .ok [c.header, c.body] := by
    rw [hsub]
    apply readSegments_encode
    intro p hp
    simp only [List.mem_cons, List.not_mem_nil, or_false] at hp
    obtain rfl | rfl := hp <;> omega
  simp [decodeMessage, hseg, c.decodes]

theorem pollForMessage_reply {id : ℕ} (hid : id < 65536) (c : Call json) {s : Globals ν}
    {chunk : Bytes} (h : s.serin ++ chunk = frame (payload id c)) :
    ∃ t, pollForMessage json chunk s = .ok ((id : ℕ), t) ∧ Answered id c s t := by
  obtain ⟨h2, hp⟩ := payload_carries id c
  have hb : s.serin ++ chunk = frame (payload id c) ++ [] := by rw [h, List.append_nil]
  have hlen : 2 < (frame (payload id c) ++ []).length := by
    rw [List.append_nil, frame_length]
    omega
  have hword : luaWord (byte (payload id c) 1) (byte (payload id c) 2) = .ok id := by
    have hw := luaWord_header (UInt8.ofNat (id / 256)) (UInt8.ofNat id) (encode [c.header, c.body])
    rwa [word16_be16 hid] at hw
  have hserin : ∀ t : Globals ν, t.serin = s.serin ++ chunk →
      subFrom t.serin ((payload id c).length + 3) = [] := by
    intro t ht
    rw [ht, hb, subFrom_rest]
  rw [pollForMessage_frame json s hb hp hlen]
  unfold handleMessage
  rw [hword]
  simp only [decodeMessage_reply]
  by_cases ht : (some c.value).any json.truthy = true
  · simp only [Function.update_self, ht, if_true]
    exact ⟨_, rfl, Function.update_self .., Function.update_self .., rfl, hserin _ rfl⟩
  · simp only [Function.update_self, ht]
    exact ⟨_, rfl, Function.update_self .., Function.update_self .., rfl, hserin _ rfl⟩

theorem wait_reply {id : ℕ} (hid : id < 65536) (c : Call json) (schedule : List ℕ) {w : World ν}
    (hnext : w.lua.sendMessageId = id)
    (h : w.lua.serin ++ w.inflight = frame (payload id c)) :
    ∃ t, Exits (waitBody json) (w, schedule) (.ok ⟨[], t⟩) ∧ Answered id c w.lua t := by
  have hp := (payload_carries id c).2
  induction schedule generalizing w with
  | nil =>
    obtain ⟨t, ht, hans⟩ := pollForMessage_reply hid c h
    refine ⟨t, exits_of_inr ?_, hans⟩
    simp [waitBody, ht, hans.nextId, hnext]
  | cons n schedule ih =>
    have hcut : (w.lua.serin ++ w.inflight.take n) ++ w.inflight.drop n = frame (payload id c) := by
      rw [List.append_assoc, List.take_append_drop, h]
    have hpre : w.lua.serin ++ w.inflight.take n <+: frame (payload id c) ++ [] :=
      ⟨w.inflight.drop n, by rw [hcut, List.append_nil]⟩
    obtain hn | ⟨r, hr, hnil⟩ := splitFrame_prefix hp hpre
    · -- the poll finds no complete frame
      obtain ⟨t, ht, hans⟩ := ih (w := ⟨w.inflight.drop n, received (w.inflight.take n) w.lua⟩)
        hnext hcut
      refine ⟨t, exits_of_inl ?_ ht, hans.header, hans.response, hans.nextId, hans.serin⟩
      have hne : (-1 : ℤ) ≠ ((received (w.inflight.take n) w.lua).sendMessageId : ℤ) := by omega
      simp only [waitBody, List.headD_cons, pollForMessage_none json w.lua hn, hne, if_false,
        List.tail_cons]
    · -- the poll completes the frame
      rw [List.prefix_nil] at hnil
      subst hnil
      rw [List.append_nil] at hr
      have hdrop : w.inflight.drop n = [] := by
        rw [hr] at hcut
        exact List.append_right_eq_self.mp hcut
      obtain ⟨t, ht, hans⟩ := pollForMessage_reply hid c hr
      refine ⟨t, exits_of_inr ?_, hans⟩
      simp [waitBody, ht, hans.nextId, hnext, hdrop]

theorem wait_nextId {w w' : World ν} {schedule : List ℕ}
    (h : Exits (waitBody json) (w, schedule) (.ok w')) :
    w'.lua.sendMessageId = w.lua.sendMessageId := by
  obtain ⟨fuel, h⟩ := h
  induction fuel generalizing w schedule with
  | zero => cases h
  | succ fuel ih =>
    rw [loop, waitBody] at h
    cases hpoll :
      pollForMessage json (w.inflight.take (schedule.headD w.inflight.length)) w.lua with
    | error e => simp only [hpoll, Option.some.injEq, reduceCtorEq] at h
    | ok v =>
      have hkeep : v.2.sendMessageId = w.lua.sendMessageId := pollForMessage_nextId hpoll
      by_cases hid : v.1 = (v.2.sendMessageId : ℤ)
      · simp only [hpoll, hid, if_true, Option.some.injEq, Except.ok.injEq] at h
        rw [← h]
        exact hkeep
      · simp only [hpoll, hid, if_false] at h
        exact (ih h).trans hkeep

end Replies

section Scripts

variable {json : Json ν} {script : Script json}

structure Quiet (id : ℕ) (w : World ν) : Prop where
  inflight : w.inflight = []
  serin : w.lua.serin = []
  nextId : w.lua.sendMessageId = id

theorem carriedId_request (msg : Bytes) (id : ℕ) :
    carriedId (be16 msg.length ++ be16 id ++ msg) = be16 id := rfl

theorem be16_inj {m n : ℕ} (hm : m < 65536) (hn : n < 65536) (h : be16 m = be16 n) : m = n := by
  rw [be16, be16, List.cons.injEq, List.cons.injEq] at h
  rw [← word16_be16 hm, ← word16_be16 hn, h.1, h.2.1]

theorem requests_sent (r : Bytes) (es : List (Event ν)) :
    requests (.sent r :: es) = r :: requests es := rfl

theorem requests_append (es es' : List (Event ν)) :
    requests (es ++ es') = requests es ++ requests es' := List.filterMap_append

/-- One call with a silent callback: it is sent under the current id, answered
by its own reply, and leaves nothing behind. -/
theorem call_runs {id : ℕ} (hid : id < 65536) (c : Call json) {w : World ν} (hw : Quiet id w) :
    ∃ w', Quiet (id + 1) w' ∧ ∀ rest es w'', Runs json rest w' es w'' →
      Runs json (.send c .done rest) w
        (.sent (be16 c.msg.length ++ be16 id ++ c.msg) :: .called (some c.value) (some c.body) ::
          .returned none none :: es) w'' := by
  have hreq : requestBytes c.msg w.lua.sendMessageId =
      .ok (be16 c.msg.length ++ be16 id ++ c.msg) := by
    rw [hw.nextId, requestBytes_ok c.short hid]
  obtain ⟨t, ht, hans⟩ := wait_reply hid c c.schedule
    (w := ⟨w.inflight ++ c.reply (be16 c.msg.length ++ be16 id ++ c.msg),
      { w.lua with sent := w.lua.sent ++ (be16 c.msg.length ++ be16 id ++ c.msg) }⟩)
    hw.nextId (by simp only [hw.serin, hw.inflight, reply_eq, List.nil_append])
  have hnext : t.sendMessageId = id := hans.nextId.trans hw.nextId
  refine ⟨⟨[], finishMessage t⟩, ⟨rfl, hans.serin, by rw [finishMessage, hnext]⟩, ?_⟩
  intro rest es w'' hrest
  have hrun := Runs.send hreq ht (Runs.done _) hrest
  simpa [hnext, hans.header, hans.response, finishMessage, hw.nextId] using hrun

theorem flat_runs {id : ℕ} {w : World ν} (hflat : script.Flat) (hw : Quiet id w)
    (hid : id + script.calls.length ≤ 65536) :
    ∃ es w', Runs json script w es w' ∧
      requests es = (script.calls.zipIdx id).map
        (fun ci => be16 ci.1.msg.length ++ be16 ci.2 ++ ci.1.msg) ∧
      callbacks es = script.calls.map (fun c => (some c.value, some c.body)) ∧
      leftovers es = script.calls.map (fun _ => (none, none)) := by
  induction script generalizing id w with
  | done => exact ⟨[], w, Runs.done w, rfl, rfl, rfl⟩
  | send c nested rest _ ih =>
    obtain ⟨rfl, hrest⟩ := hflat
    have hcalls : (Script.send c .done rest).calls = c :: rest.calls := rfl
    rw [hcalls, List.length_cons] at hid
    obtain ⟨w', hw', hrun⟩ := call_runs (show id < 65536 by omega) c hw
    obtain ⟨es, w'', hr, hreq, hcall, hleft⟩ := ih hrest hw' (by omega)
    refine ⟨_, w'', hrun rest es w'' hr, ?_, ?_, ?_⟩
    · rw [requests_sent, hcalls, List.zipIdx_cons, List.map_cons, ← hreq]
      rfl
    · rw [hcalls, List.map_cons, ← hcall]
      rfl
    · rw [hcalls, List.map_cons, ← hleft]
      rfl

theorem requests_transmitted (cs : List (Call json)) (id : ℕ) :
    List.Forall₂ (fun c r => ∃ id, r = be16 c.msg.length ++ be16 id ++ c.msg) cs
      ((cs.zipIdx id).map fun ci => be16 ci.1.msg.length ++ be16 ci.2 ++ ci.1.msg) := by
  induction cs generalizing id with
  | nil => exact List.Forall₂.nil
  | cons c cs ih => exact List.Forall₂.cons ⟨id, rfl⟩ (ih (id + 1))

theorem request_of_ok {c : Call json} {id : ℕ} {request : Bytes}
    (h : requestBytes c.msg id = .ok request) :
    id < 65536 ∧ request = be16 c.msg.length ++ be16 id ++ c.msg := by
  have hid := requestBytes_lt h
  rw [requestBytes_ok c.short hid] at h
  exact ⟨hid, (Except.ok.inj h).symm⟩

theorem flat_of_distinct {w w' : World ν} {es : List (Event ν)} (h : Runs json script w es w')
    (hd : ((requests es).map carriedId).Nodup) : script.Flat := by
  induction h with
  | done w => trivial
  | @send c nested rest w w₁ w₂ w₃ request es es' hreq hwait hn _ _ ihr =>
    have hall : requests (.sent request ::
          .called (w₁.lua.messageHeaders w₁.lua.sendMessageId)
            (w₁.lua.messageResponses w₁.lua.sendMessageId) :: es ++
          .returned ((finishMessage w₂.lua).messageHeaders w.lua.sendMessageId)
            ((finishMessage w₂.lua).messageResponses w.lua.sendMessageId) :: es') =
        request :: (requests es ++ requests es') := by
      rw [requests_append]
      rfl
    rw [hall, List.map_cons, List.map_append, List.nodup_cons, List.mem_append, not_or] at hd
    obtain ⟨⟨hfresh, -⟩, hnodup⟩ := hd
    refine ⟨?_, ihr (List.Nodup.of_append_right hnodup)⟩
    cases hn with
    | done => rfl
    | @send c' _ _ _ _ _ _ request' _ _ hreq' =>
      exfalso
      apply hfresh
      rw [wait_nextId hwait] at hreq'
      obtain ⟨-, rfl⟩ := request_of_ok hreq
      obtain ⟨-, rfl⟩ := request_of_ok hreq'
      rw [List.cons_append, requests_sent, List.map_cons, carriedId_request, carriedId_request]
      exact List.mem_cons_self

theorem runs_bound {w w' : World ν} {es : List (Event ν)} (h : Runs json script w es w')
    (hflat : script.Flat) (hid : w.lua.sendMessageId ≤ 65536) :
    w.lua.sendMessageId + script.calls.length ≤ 65536 := by
  induction h with
  | done w => exact hid
  | @send c nested rest w w₁ w₂ w₃ request es es' hreq hwait hn _ _ ihr =>
    obtain ⟨rfl, hrest⟩ := hflat
    have hlt := requestBytes_lt hreq
    have hkeep := wait_nextId hwait
    cases hn with
    | done =>
      have hfin : (finishMessage w₁.lua).sendMessageId = w.lua.sendMessageId + 1 :=
        congrArg (· + 1) hkeep
      have hle := ihr hrest (by simp only [hfin]; omega)
      simp only [hfin] at hle
      have hcalls : (Script.send c .done rest).calls.length = rest.calls.length + 1 := rfl
      omega

theorem start_quiet : Quiet 1 (start : World ν) := ⟨rfl, rfl, rfl⟩

def emptyObjectJson : Json Unit where
  decode s := if s = some [123, 125] then some (some (), none) else none
  truthy _ := true

def emptyCall : Call emptyObjectJson where
  msg := []
  short := by decide
  header := [123, 125]
  body := []
  fits := by decide
  value := ()
  status := none
  decodes := rfl
  schedule := []

/-- A request made inside a callback carries the id of the request that is
still being answered. -/
theorem nested_send_collides :
    ¬∃ es w, Runs emptyObjectJson (.send emptyCall (.send emptyCall .done .done) .done) start es w ∧
      Correlated (.send emptyCall (.send emptyCall .done .done) .done) es := by
  rintro ⟨es, w, hruns, hcor⟩
  have hflat : Script.Flat (.send emptyCall (.send emptyCall .done .done) .done) :=
    flat_of_distinct hruns hcor.distinct
  cases hflat.1

/-- Requests and replies stay matched exactly if no callback sends and at most
65535 calls are made. -/
theorem correlated_iff (json : Json ν) (script : Script json) :
    (∃ es w, Runs json script start es w ∧ Correlated script es) ↔
      script.Flat ∧ script.calls.length ≤ 65535 := by
  constructor
  · rintro ⟨es, w, hruns, hcor⟩
    have hflat := flat_of_distinct hruns hcor.distinct
    have hone : (start : World ν).lua.sendMessageId = 1 := rfl
    have hbound := runs_bound hruns hflat (by omega)
    exact ⟨hflat, by omega⟩
  · rintro ⟨hflat, hlen⟩
    obtain ⟨es, w, hruns, hreq, hcall, hleft⟩ :=
      flat_runs hflat start_quiet (show 1 + script.calls.length ≤ 65536 by omega)
    refine ⟨es, w, hruns, ?_, ?_, hcall, hleft⟩
    · rw [hreq]
      exact requests_transmitted script.calls 1
    · have hids : (script.calls.zipIdx 1).map
            (carriedId ∘ fun ci => be16 ci.1.msg.length ++ be16 ci.2 ++ ci.1.msg) =
          ((script.calls.zipIdx 1).map Prod.snd).map be16 := by
        rw [List.map_map]
        rfl
      rw [hreq, List.map_map, hids, List.zipIdx_map_snd]
      apply List.Nodup.map_on _ (List.nodup_range' ..)
      intro i hi j hj hij
      rw [List.mem_range'_1] at hi hj
      exact be16_inj (by omega) (by omega) hij

end Scripts

end Jiauliyan.Correlation
