import Mathlib.Data.List.Forall2
import Mathlib.Data.List.ReduceOption
import Jiauliyan.Client

namespace Jiauliyan.Polling

open Jiauliyan.Framing Jiauliyan.Client

variable {ν : Type*} {json : Json ν}

def Carries (p : Bytes) : Prop := 2 ≤ p.length ∧ p.length < 65536

/-- A frame that is all there stands at the front of the buffer. -/
def Complete (b : Bytes) : Prop := ∃ p r, p.length < 65536 ∧ b = frame p ++ r

/-- One line is printed for each payload that cannot be decoded, in order. -/
def Reported (json : Json ν) (ps : List Bytes) (printed : List Line) : Prop :=
  ∃ lines : List (Option Line), printed = lines.reduceOption ∧
    List.Forall₂ (fun p o => o.isSome ↔ Undecodable json p) ps lines

structure Accounted (json : Json ν) (stream : Bytes) (s : Globals ν) : Prop where
  stream : encode s.handed ++ s.serin = stream
  carries : ∀ p ∈ s.handed, Carries p
  reported : Reported json s.handed s.printed

theorem not_complete {b : Bytes} (h : ¬Complete b) : splitFrame b = none := by
  cases hs : splitFrame b with
  | none => rfl
  | some qr =>
    obtain ⟨hb, hq⟩ := splitFrame_eq (p := qr.1) (r := qr.2) hs
    exact absurd ⟨qr.1, qr.2, hq, hb⟩ h

theorem Reported.snoc {ps : List Bytes} {printed : List Line} {p : Bytes} {line : Option Line}
    (h : Reported json ps printed) (hl : line.isSome ↔ Undecodable json p) :
    Reported json (ps ++ [p]) (printed ++ line.toList) := by
  obtain ⟨lines, rfl, hall⟩ := h
  refine ⟨lines ++ [line], ?_, List.rel_append hall (List.Forall₂.cons hl List.Forall₂.nil)⟩
  rw [List.reduceOption_append]
  cases line <;> rfl

theorem boot_accounted (json : Json ν) : Accounted json [] (boot : Globals ν) :=
  ⟨rfl, fun _ hp => absurd hp List.not_mem_nil, [], rfl, List.Forall₂.nil⟩

theorem none_accounted {stream chunk : Bytes} {s : Globals ν} (h : Accounted json stream s) :
    Accounted json (stream ++ chunk) (received chunk s) := by
  refine ⟨?_, h.carries, h.reported⟩
  rw [← h.stream, List.append_assoc]
  rfl

theorem some_accounted {stream chunk p r : Bytes} {id : ℕ} {s t : Globals ν}
    (h : Accounted json stream s) (hb : s.serin ++ chunk = frame p ++ r) (hp : Carries p)
    (hr : t.serin = r) (ht : HandsOver json p id s t) : Accounted json (stream ++ chunk) t := by
  obtain ⟨line, hprinted, hline⟩ := ht.printed
  refine ⟨?_, ?_, ?_⟩
  · rw [ht.handed, encode_snoc, hr, List.append_assoc, ← hb, ← List.append_assoc, h.stream]
  · intro q hq
    rw [ht.handed, List.mem_append, List.mem_singleton] at hq
    obtain hq | rfl := hq
    · exact h.carries q hq
    · exact hp
  · rw [ht.handed, hprinted]
    exact h.reported.snoc hline

section Frames

variable {fs : List Bytes}

/-- The results of the polls that handed a payload over. -/
def answers (rs : List ℤ) : List ℤ := rs.filter fun r => r != -1

/-- After `k` frames the buffer is a piece of the rest, and the globals are those that
`handle_message` leaves when it is called on these frames, with `ids` as its results. -/
structure Follows (json : Json ν) (fs : List Bytes) (stream : Bytes) (k : ℕ) (ids : List ℤ)
    (s : Globals ν) : Prop extends Accounted json stream s where
  count : k ≤ fs.length
  taken : s.handed = fs.take k
  ahead : s.serin <+: encode (fs.drop k)
  handled : handles json (fs.take k) boot = .ok (ids, outcome s)

theorem poll_follows {stream chunk : Bytes} {k : ℕ} {ids : List ℤ} {s : Globals ν}
    (hfs : ∀ f ∈ fs, Carries f) (h : Follows json fs stream k ids s)
    (hc : stream ++ chunk <+: encode fs) :
    (splitFrame (s.serin ++ chunk) = none ∧
      Follows json fs (stream ++ chunk) k ids (received chunk s)) ∨
    ∃ id t, pollForMessage json chunk s = .ok ((id : ℕ), t) ∧
      Follows json fs (stream ++ chunk) (k + 1) (ids ++ [(id : ℤ)]) t := by
  have hsplit : encode fs = encode (fs.take k) ++ encode (fs.drop k) := by
    rw [← encode_append, List.take_append_drop]
  have hahead : s.serin ++ chunk <+: encode (fs.drop k) := by
    rw [← h.stream, h.taken, List.append_assoc, hsplit] at hc
    exact (List.prefix_append_right_inj _).mp hc
  have hrest : ∀ f ∈ fs.drop k, Carries f := fun f hf => hfs f (List.mem_of_mem_drop hf)
  obtain hn | ⟨p, ps, r, hd, hb, hr⟩ := splitFrame_encode (fun f hf => (hrest f hf).2) hahead
  · exact Or.inl ⟨hn, none_accounted h.toAccounted, h.count, h.taken, hahead, h.handled⟩
  · have hp : Carries p := hrest p (by rw [hd]; exact List.mem_cons_self)
    have hk : k < fs.length := by
      by_contra hge
      rw [List.drop_eq_nil_of_le (Nat.le_of_not_lt hge)] at hd
      cases hd
    have hget : fs[k] = p ∧ fs.drop (k + 1) = ps := by
      rw [List.drop_eq_getElem_cons hk] at hd
      exact List.cons.inj hd
    have htake : fs.take (k + 1) = fs.take k ++ [p] := by
      rw [List.take_add_one, List.getElem?_eq_getElem hk, hget.1]
      rfl
    obtain ⟨id, t, ht, hserin, hover⟩ := pollForMessage_some json s hb hp.2 hp.1
    refine Or.inr ⟨id, t, ht, some_accounted h.toAccounted hb hp hserin hover, hk, ?_, ?_, ?_⟩
    · rw [hover.handed, h.taken, htake]
    · rw [hserin, hget.2]
      exact hr
    · rw [htake]
      exact handles_snoc h.handled hover.handled

theorem polls_follow {stream : Bytes} {cs : List Bytes} {k : ℕ} {ids : List ℤ} {s : Globals ν}
    (hfs : ∀ f ∈ fs, Carries f) (h : Follows json fs stream k ids s)
    (hc : stream ++ cs.flatten <+: encode fs) :
    ∃ t k' rs, polls json cs s = .ok t ∧ pollIds json cs s = .ok rs ∧
      Follows json fs (stream ++ cs.flatten) k' (ids ++ answers rs) t := by
  induction cs generalizing stream k ids s with
  | nil =>
    refine ⟨s, k, [], rfl, rfl, ?_⟩
    rw [List.flatten_nil, List.append_nil]
    simpa [answers] using h
  | cons c cs ih =>
    rw [List.flatten_cons, ← List.append_assoc] at hc ⊢
    have hc1 := (List.prefix_append (stream ++ c) cs.flatten).trans hc
    obtain ⟨hn, hnext⟩ | ⟨id, t, ht, hnext⟩ := poll_follows hfs h hc1
    · have hpoll := pollForMessage_none json s hn
      obtain ⟨t, k', rs, ht, hrs, hfin⟩ := ih hnext hc
      exact ⟨t, k', -1 :: rs, by rw [polls_cons, hpoll]; exact ht, pollIds_cons_ok hpoll hrs, hfin⟩
    · obtain ⟨t', k', rs, ht', hrs, hfin⟩ := ih hnext hc
      refine ⟨t', k', id :: rs, by rw [polls_cons, ht]; exact ht', pollIds_cons_ok ht hrs, ?_⟩
      have hne : ((id : ℤ) != -1) = true := by simp
      have hans : answers (id :: rs) = [(id : ℤ)] ++ answers rs := by
        simp [answers, hne]
      rw [hans, ← List.append_assoc]
      exact hfin

theorem Follows.rest {k : ℕ} {ids : List ℤ} {s : Globals ν}
    (h : Follows json fs (encode fs) k ids s) :
    s.serin = encode (fs.drop k) := by
  have hs := h.stream
  rw [h.taken] at hs
  apply (List.append_right_inj (encode (fs.take k))).mp
  rw [hs, ← encode_append, List.take_append_drop]

/-- With the whole stream received, each further poll takes a frame until none
is left. -/
theorem drain {n k : ℕ} {ids : List ℤ} {s : Globals ν} (hfs : ∀ f ∈ fs, Carries f)
    (h : Follows json fs (encode fs) k ids s) (hn : fs.length ≤ k + n) :
    ∃ t, polls json (List.replicate n []) s = .ok t ∧ t.handed = fs ∧ t.serin = [] := by
  induction n generalizing k ids s with
  | zero =>
    have hk : fs.length ≤ k := hn
    refine ⟨s, rfl, ?_, ?_⟩
    · rw [h.taken, List.take_of_length_le hk]
    · rw [h.rest, List.drop_eq_nil_of_le hk, encode_nil]
  | succ n ih =>
    have hstream : encode fs ++ [] = encode fs := List.append_nil _
    rw [List.replicate_succ, polls_cons]
    have hc : encode fs ++ [] <+: encode fs := by rw [hstream]
    obtain ⟨hnone, hnext⟩ | ⟨id, t, ht, hnext⟩ := poll_follows hfs h hc
    · rw [hstream] at hnext
      -- no frame is left, or the first one would have been found
      have hk : fs.length ≤ k := by
        by_contra hlt
        rw [List.append_nil, h.rest, List.drop_eq_getElem_cons (Nat.lt_of_not_le hlt), encode_cons,
          splitFrame_frame (hfs _ (List.getElem_mem _)).2] at hnone
        cases hnone
      rw [pollForMessage_none json s hnone]
      exact ih hnext (by omega)
    · rw [hstream] at hnext
      rw [ht]
      exact ih hnext (by omega)

/-- Whatever the chunks, the payloads that `handle_message` is called on are a prefix of the
frames sent, and the polls leave the globals and return the results of these calls; the buffer
is the rest of what was received. A poll without a complete frame returns -1, and polling on
hands over every frame once. -/
theorem replies_framed (json : Json ν) (fs : List Bytes)
    (hfs : ∀ f ∈ fs, 2 ≤ f.length ∧ f.length ≤ 65535) (cs : List Bytes)
    (hcs : cs.flatten <+: encode fs) :
    ∃ s k rs, polls json cs boot = .ok s ∧ pollIds json cs boot = .ok rs ∧ k ≤ fs.length ∧
      s.handed = fs.take k ∧ handles json (fs.take k) boot = .ok (answers rs, outcome s) ∧
      encode (fs.take k) ++ s.serin = cs.flatten ∧
      (∀ c, ¬Complete (s.serin ++ c) →
        ∃ t, pollForMessage json c s = .ok (-1, t) ∧ t.handed = s.handed ∧
          outcome t = outcome s) ∧
      (cs.flatten = encode fs → ∀ n, fs.length ≤ n →
        ∃ t ids, polls json (cs ++ List.replicate n []) boot = .ok t ∧
          pollIds json (cs ++ List.replicate n []) boot = .ok ids ∧ t.handed = fs ∧
          handles json fs boot = .ok (answers ids, outcome t) ∧ t.serin = []) := by
  have hcarries : ∀ f ∈ fs, Carries f := fun f hf => ⟨(hfs f hf).1, by have := (hfs f hf).2; omega⟩
  have hboot : Follows json fs [] 0 [] (boot : Globals ν) :=
    ⟨boot_accounted json, Nat.zero_le _, rfl, List.nil_prefix, rfl⟩
  obtain ⟨s, k, rs, hs, hrs, hfollows⟩ :=
    polls_follow hcarries hboot (by rw [List.nil_append]; exact hcs)
  rw [List.nil_append, List.nil_append] at hfollows
  refine ⟨s, k, rs, hs, hrs, hfollows.count, hfollows.taken, hfollows.handled, ?_, ?_, ?_⟩
  · rw [← hfollows.taken]
    exact hfollows.stream
  · intro c hc
    exact ⟨_, pollForMessage_none json s (not_complete hc), rfl, rfl⟩
  · intro hall n hn
    have hflat : [] ++ (cs ++ List.replicate n []).flatten <+: encode fs := by simp [hall]
    obtain ⟨t, k', ids, ht, hids, hend⟩ := polls_follow hcarries hboot hflat
    rw [List.nil_append] at hend
    rw [hall] at hfollows
    obtain ⟨t', ht', hhanded, hserin⟩ := drain hcarries hfollows (show fs.length ≤ k + n by omega)
    rw [polls_append, hs] at ht
    obtain rfl : t' = t := Except.ok.inj (ht'.symm.trans ht)
    refine ⟨t', ids, by rw [polls_append, hs]; exact ht, hids, hhanded, ?_, hserin⟩
    have hhandled := hend.handled
    rwa [← hend.taken, hhanded] at hhandled

theorem replies_framed_sample :
    ∃ s, polls ⟨fun _ => none, fun _ : Unit => true⟩ [[0], [2, 0], [1]] boot = .ok s ∧
      encode s.handed ++ s.serin = [0, 2, 0, 1] := by
  obtain ⟨s, k, -, hs, -, -, hhanded, -, hstream, -⟩ :=
    replies_framed ⟨fun _ => none, fun _ : Unit => true⟩ [[0, 1]] (by simp) [[0], [2, 0], [1]]
      (by decide)
  exact ⟨s, hs, by rw [hhanded, hstream]; rfl⟩

end Frames

section Streams

/-- No frame of the stream with a payload too short for an id is complete, with
more than two bytes from its start on. -/
def Clean (stream : Bytes) : Prop :=
  ∀ ps p r, (∀ q ∈ ps, Carries q) → stream = encode ps ++ (frame p ++ r) → p.length < 2 →
    (frame p ++ r).length ≤ 2

theorem poll_clean {all stream chunk : Bytes} {s : Globals ν} (hclean : Clean all)
    (h : Accounted json stream s) (hc : stream ++ chunk <+: all) :
    ∃ id t, pollForMessage json chunk s = .ok (id, t) ∧ Accounted json (stream ++ chunk) t := by
  cases hs : splitFrame (s.serin ++ chunk) with
  | none => exact ⟨-1, _, pollForMessage_none json s hs, none_accounted h⟩
  | some pr =>
    obtain ⟨p, r⟩ := pr
    obtain ⟨hb, hp⟩ := splitFrame_eq hs
    obtain ⟨w, hw⟩ := hc
    have hall : all = encode s.handed ++ (frame p ++ (r ++ w)) := by
      rw [← hw, ← h.stream, List.append_assoc (encode s.handed), hb]
      simp only [List.append_assoc]
    by_cases hlen : 2 < (frame p ++ r).length
    · have h2 : 2 ≤ p.length := by
        by_contra hlt
        have hle := hclean s.handed p (r ++ w) h.carries hall (Nat.lt_of_not_le hlt)
        simp only [List.length_append] at hle hlen
        omega
      obtain ⟨id, t, ht, hserin, hover⟩ := pollForMessage_some json s hb hp h2
      exact ⟨id, t, ht, some_accounted h hb ⟨h2, hp⟩ hserin hover⟩
    · rw [← hb] at hlen
      exact ⟨-1, _, pollForMessage_small json s (Nat.le_of_not_lt hlen), none_accounted h⟩

theorem polls_clean {all stream : Bytes} {cs : List Bytes} {s : Globals ν} (hclean : Clean all)
    (h : Accounted json stream s) (hc : stream ++ cs.flatten <+: all) :
    ∃ t, polls json cs s = .ok t ∧ Accounted json (stream ++ cs.flatten) t := by
  induction cs generalizing stream s with
  | nil => exact ⟨s, rfl, by rw [List.flatten_nil, List.append_nil]; exact h⟩
  | cons c cs ih =>
    rw [List.flatten_cons, ← List.append_assoc] at hc ⊢
    obtain ⟨id, t, ht, hnext⟩ :=
      poll_clean hclean h ((List.prefix_append (stream ++ c) cs.flatten).trans hc)
    obtain ⟨t', ht', hfin⟩ := ih hnext hc
    exact ⟨t', by rw [polls_cons, ht]; exact ht', hfin⟩

/-- Polls go through the frames in front of a frame that is too short, and
raise at that one. -/
theorem polls_raise {ps : List Bytes} {p r chunk : Bytes} {s : Globals ν}
    (hps : ∀ q ∈ ps, Carries q) (hb : s.serin ++ chunk = encode ps ++ (frame p ++ r))
    (hp : p.length < 2) (hlen : 2 < (frame p ++ r).length) :
    polls json (chunk :: List.replicate ps.length []) s = .error .arithmeticOnNil := by
  induction ps generalizing s chunk with
  | nil =>
    rw [encode_nil, List.nil_append] at hb
    rw [polls_cons, pollForMessage_raises json s hb hp hlen]
  | cons q ps ih =>
    rw [encode_cons, List.append_assoc] at hb
    have hq := hps q List.mem_cons_self
    obtain ⟨id, t, ht, hserin, -⟩ := pollForMessage_some json s hb hq.2 hq.1
    rw [polls_cons, ht, List.length_cons, List.replicate_succ]
    exact ih (fun x hx => hps x (List.mem_cons_of_mem q hx)) (by rw [List.append_nil, hserin])

/-- A buffer with an empty frame and one more byte makes the poll raise. -/
theorem short_frame_raises :
    ¬∀ (json : Json Unit) (cs : List Bytes), ∃ s, polls json cs boot = .ok s := by
  intro h
  obtain ⟨s, hs⟩ := h ⟨fun _ => none, fun _ => true⟩ [[0, 0, 65]]
  have hb : (boot : Globals Unit).serin ++ [0, 0, 65] = encode [] ++ (frame [] ++ [65]) := rfl
  have hraise : polls ⟨fun _ => none, fun _ => true⟩ [[0, 0, 65]] boot = .error .arithmeticOnNil :=
    polls_raise (fun _ hq => absurd hq List.not_mem_nil) hb (by decide) (by decide)
  rw [hraise] at hs
  cases hs

/-- Every poll returns, under every chunking of the stream and after every part
of it, with the buffer holding what was received less the frames consumed and
with the undecodable ones reported, exactly if the stream is clean. -/
theorem polls_survive_iff (json : Json ν) (stream : Bytes) :
    (∀ cs : List Bytes, cs.flatten <+: stream →
      ∃ s, polls json cs boot = .ok s ∧ encode s.handed ++ s.serin = cs.flatten ∧
        Reported json s.handed s.printed) ↔ Clean stream := by
  constructor
  · intro h ps p r hps hs hp
    by_contra hlen
    obtain ⟨s, hok, -⟩ := h (stream :: List.replicate ps.length []) (by simp)
    have hb : (boot : Globals ν).serin ++ stream = encode ps ++ (frame p ++ r) := hs
    rw [polls_raise hps hb hp (Nat.lt_of_not_le hlen)] at hok
    cases hok
  · intro hclean cs hcs
    have hc : [] ++ cs.flatten <+: stream := by rwa [List.nil_append]
    obtain ⟨s, hs, hacc⟩ := polls_clean hclean (boot_accounted json) hc
    rw [List.nil_append] at hacc
    exact ⟨s, hs, hacc.stream, hacc.reported⟩

end Streams

end Jiauliyan.Polling
