import Jiauliyan.Server

namespace Jiauliyan.Replies

open Jiauliyan.Framing Jiauliyan.Server

variable {ε α β : Type} {E : Externals ε} {id : ℕ} {act : Value}

theorem bind_apply (x : Py ε α) (f : α → Py ε β) (c : Console ε) :
    (x >>= f) c =
      match x c with
      | (.ok a, c') => f a c'
      | (.error e, c') => (.error e, c') := rfl

theorem bind_ok {x : Py ε α} {c c' : Console ε} {a : α} (h : x c = (.ok a, c')) (f : α → Py ε β) :
    (x >>= f) c = f a c' := by
  rw [bind_apply, h]

theorem bind_error {x : Py ε α} {c c' : Console ε} {e : PyErr ε} (h : x c = (.error e, c'))
    (f : α → Py ε β) : (x >>= f) c = (.error e, c') := by
  rw [bind_apply, h]

theorem external_ok (a : α) (c : Console ε) :
    (external (.ok a) : Py ε α) c = (.ok a, c) := rfl

theorem external_error (x : ε) (c : Console ε) :
    (external (.error x) : Py ε α) c = (.error (.external x), c) := rfl

theorem getItem_some {v x : Value} {key : String} (h : lookup v key = some x) (c : Console ε) :
    getItem v key c = (.ok x, c) := by
  cases v with
  | object members => simp only [getItem, h]; rfl
  | _ => cases h

def Internal (e : PyErr ε) : Prop := ∀ x, e ≠ .external x

theorem getItem_none {v : Value} {key : String} (h : lookup v key = none) (c : Console ε) :
    ∃ e, Internal e ∧ getItem v key c = (.error e, c) := by
  cases v with
  | object members => exact ⟨.keyError key, fun x => by simp, by simp only [getItem, h]; rfl⟩
  | _ => exact ⟨.typeError, fun x => by simp, rfl⟩

theorem asText_cases (v : Value) :
    (∃ s, v = .string s ∧ ∀ c : Console ε, asText v c = (.ok s, c)) ∨
    ((∀ s, v ≠ .string s) ∧ ∀ c : Console ε, asText v c = (.error .typeError, c)) := by
  cases v with
  | string s => exact Or.inl ⟨s, rfl, fun _ => rfl⟩
  | _ => exact Or.inr ⟨fun s => by simp, fun _ => rfl⟩

theorem textItem_cases (v : Value) (key : String) (f : String → Py ε β) (c : Console ε) :
    (∃ s, lookup v key = some (.string s) ∧ (getItem v key >>= fun x => asText x >>= f) c = f s c) ∨
    ((∀ s, lookup v key ≠ some (.string s)) ∧
      ∃ e, Internal e ∧ (getItem v key >>= fun x => asText x >>= f) c = (.error e, c)) := by
  cases hv : lookup v key with
  | none =>
    obtain ⟨e, he, hget⟩ := getItem_none hv c
    exact Or.inr ⟨by simp, e, he, bind_error hget _⟩
  | some x =>
    rw [bind_ok (getItem_some hv c)]
    obtain ⟨s, rfl, hs⟩ | ⟨hno, hbad⟩ := asText_cases x
    · exact Or.inl ⟨s, rfl, bind_ok (hs c) f⟩
    · refine Or.inr ⟨fun s hs => hno s (Option.some.inj hs), .typeError, fun x => ?_, ?_⟩
      · simp
      · exact bind_error (hbad c) f

theorem printText_ok {s : String} (h : E.encodes s = true) (c : Console ε) :
    printText E s c = (.ok (), { c with stdout := c.stdout ++ [.text s] }) := by
  rw [printText, if_pos h]
  rfl

theorem printText_error {s : String} (h : ¬E.encodes s = true) (c : Console ε) :
    printText E s c = (.error .unicodeEncodeError, c) := by
  rw [printText, if_neg h]
  rfl

theorem markLen_ok {msg : Bytes} (h : msg.length < 65536) (c : Console ε) :
    markLen msg c = (.ok (frame msg), c) := by
  have hhigh : chr (msg.length / 256) c = (.ok (UInt8.ofNat (msg.length / 256)), c) := by
    rw [chr, if_pos (by omega)]
    rfl
  have hlow : chr (msg.length % 256) c = (.ok (UInt8.ofNat (msg.length % 256)), c) := by
    rw [chr, if_pos (by omega)]
    rfl
  have hmod : UInt8.ofNat (msg.length % 256) = UInt8.ofNat msg.length := by
    apply UInt8.toNat.inj
    simp
  rw [markLen, bind_ok hhigh, bind_ok hlow, hmod]
  rfl

theorem markLen_error {msg : Bytes} (h : ¬msg.length < 65536) (c : Console ε) :
    markLen msg c = (.error .valueError, c) := by
  have hhigh : chr (msg.length / 256) c = (.error .valueError, c) := by
    rw [chr, if_neg (by omega)]
    rfl
  rw [markLen, bind_error hhigh]

theorem sendMessage_eq (hid : id < 65536) (msg : Bytes) (c : Console ε) :
    sendMessage id msg c =
      if (be16 id ++ msg).length < 65536 then
        (.ok (), { c with written := c.written ++ [frame (be16 id ++ msg)] })
      else (.error .valueError, c) := by
  have hhigh : chr (id / 256) c = (.ok (UInt8.ofNat (id / 256)), c) := by
    rw [chr, if_pos (by omega)]
    rfl
  have hlow : chr (id % 256) c = (.ok (UInt8.ofNat (id % 256)), c) := by
    rw [chr, if_pos (by omega)]
    rfl
  have hmod : UInt8.ofNat (id % 256) = UInt8.ofNat id := by
    apply UInt8.toNat.inj
    simp
  have hmsg : UInt8.ofNat (id / 256) :: UInt8.ofNat id :: msg = be16 id ++ msg := rfl
  rw [sendMessage, bind_ok hhigh, bind_ok hlow, hmod, hmsg]
  by_cases hlen : (be16 id ++ msg).length < 65536
  · rw [bind_ok (markLen_ok hlen c), if_pos hlen]
    rfl
  · rw [bind_error (markLen_error hlen c), if_neg hlen]

structure Fetches (E : Externals ε) (act : Value) (r : Except ε (Value × Bytes)) : Prop where
  action : lookup act "action" = some (.string "httpreq")
  asked : ∃ method url, lookup act "method" = some (.string method) ∧
    lookup act "url" = some (.string url) ∧
    E.encodes ("HTTP " ++ method ++ " " ++ url ++ ": ") = true ∧
    r = E.request (.string url) (.string method) ((lookup act "body").getD .null)
      ((lookup act "headers").getD .null)

def Fails (E : Externals ε) (act : Value) (x : ε) : Prop :=
  ∃ r, Fetches E act r ∧ (r = .error x ∨ ∃ resp content status, r = .ok (resp, content) ∧
    lookup resp "status" = some status ∧
    E.dumps (.object [("action", .string "httpreq"), ("code", status)]) = .error x)

def Unrecognized (E : Externals ε) (act : Value) : Prop :=
  ∃ s, lookup act "action" = some (.string s) ∧ s ≠ "httpreq" ∧
    E.encodes ("Unrecognized action \"" ++ s ++ "\"") = true

/-- What `on_receive` can come to: it has sent a reply, or an error of its own,
or an error of a library before anything was sent, or nothing at all. -/
inductive Outcome (E : Externals ε) (id : ℕ) (act : Value) (c : Console ε) :
    Except (PyErr ε) Unit × Console ε → Prop
  | sent (msg : Bytes) (out : List (Out ε)) (hlen : (be16 id ++ msg).length < 65536)
      (hknown : ¬Unrecognized E act) (hok : ∀ x, ¬Fails E act x) :
      Outcome E id act c (.ok (), ⟨c.written ++ [frame (be16 id ++ msg)], out⟩)
  | silent (out : List (Out ε)) (hun : Unrecognized E act) :
      Outcome E id act c (.ok (), ⟨c.written, out⟩)
  | internal (e : PyErr ε) (out : List (Out ε)) (he : Internal e)
      (hknown : ¬Unrecognized E act) (hok : ∀ x, ¬Fails E act x) :
      Outcome E id act c (.error e, ⟨c.written, out⟩)
  | failed (x : ε) (out : List (Out ε)) (hknown : ¬Unrecognized E act)
      (hx : ∀ y, Fails E act y ↔ y = x) :
      Outcome E id act c (.error (.external x), ⟨c.written, out⟩)

theorem isText_iff {v : Value} {s : String} : isText v s = true ↔ v = .string s := by
  cases v with
  | string s' => simp [isText]
  | _ => simp [isText]

theorem not_unrecognized (h : lookup act "action" = some (.string "httpreq")) :
    ¬Unrecognized E act := by
  rintro ⟨s, hs, hne, -⟩
  rw [h] at hs
  cases hs
  exact hne rfl

theorem not_fails_of_action (h : lookup act "action" ≠ some (.string "httpreq")) (x : ε) :
    ¬Fails E act x := by
  rintro ⟨r, hf, -⟩
  exact h hf.action

theorem Fetches.unique {r r' : Except ε (Value × Bytes)} (h : Fetches E act r)
    (h' : Fetches E act r') : r = r' := by
  obtain ⟨method, url, hm, hu, -, rfl⟩ := h.asked
  obtain ⟨method', url', hm', hu', -, rfl⟩ := h'.asked
  rw [hm] at hm'
  rw [hu] at hu'
  cases hm'
  cases hu'
  rfl

theorem fails_iff {r : Except ε (Value × Bytes)} (h : Fetches E act r) (x : ε) :
    Fails E act x ↔ r = .error x ∨ ∃ resp content status, r = .ok (resp, content) ∧
      lookup resp "status" = some status ∧
      E.dumps (.object [("action", .string "httpreq"), ("code", status)]) = .error x := by
  constructor
  · rintro ⟨r', hf, hx⟩
    rwa [h.unique hf]
  · intro hx
    exact ⟨r, h, hx⟩

theorem fails_status {resp status : Value} {content : Bytes}
    (h : Fetches E act (.ok (resp, content))) (hs : lookup resp "status" = some status) (x : ε) :
    Fails E act x ↔
      E.dumps (.object [("action", .string "httpreq"), ("code", status)]) = .error x := by
  rw [fails_iff h]
  constructor
  · rintro (hx | ⟨_, _, _, hr, hst, hd⟩)
    · cases hx
    · cases hr
      rw [hs] at hst
      cases hst
      exact hd
  · intro hd
    exact Or.inr ⟨resp, content, status, rfl, hs, hd⟩

theorem not_fails_status {resp : Value} {content : Bytes}
    (h : Fetches E act (.ok (resp, content))) (hs : lookup resp "status" = none) (x : ε) :
    ¬Fails E act x := by
  intro hx
  rw [fails_iff h] at hx
  obtain hx | ⟨_, _, _, hr, hst, -⟩ := hx
  · cases hx
  · cases hr
    rw [hs] at hst
    cases hst

theorem internal_outcome {c c₁ : Console ε} (hw : c₁.written = c.written) {e : PyErr ε}
    (he : Internal e) (hknown : ¬Unrecognized E act) (hok : ∀ x, ¬Fails E act x) :
    Outcome E id act c (.error e, c₁) := by
  have ho : Outcome E id act c (.error e, ⟨c.written, c₁.stdout⟩) :=
    Outcome.internal e c₁.stdout he hknown hok
  rwa [← hw] at ho

theorem transmit_outcome (hid : id < 65536) (header content : Bytes) {c c₁ : Console ε}
    (hw : c₁.written = c.written) (hknown : ¬Unrecognized E act) (hok : ∀ x, ¬Fails E act x) :
    Outcome E id act c ((do
      sendMessage id ((← markLen header) ++ (← markLen content))
      print (.text "Data sent.")) c₁) := by
  by_cases hh : header.length < 65536
  · rw [bind_ok (markLen_ok hh c₁)]
    by_cases hcontent : content.length < 65536
    · rw [bind_ok (markLen_ok hcontent c₁)]
      have hsend := sendMessage_eq hid (frame header ++ frame content) c₁
      by_cases hlen : (be16 id ++ (frame header ++ frame content)).length < 65536
      · rw [if_pos hlen] at hsend
        rw [bind_ok hsend]
        have ho := Outcome.sent (c := c) (frame header ++ frame content)
          (c₁.stdout ++ [.text "Data sent."]) hlen hknown hok
        rwa [← hw] at ho
      · rw [if_neg hlen] at hsend
        rw [bind_error hsend]
        exact internal_outcome hw (fun x => by simp) hknown hok
    · rw [bind_error (markLen_error hcontent c₁)]
      exact internal_outcome hw (fun x => by simp) hknown hok
  · rw [bind_error (markLen_error hh c₁)]
    exact internal_outcome hw (fun x => by simp) hknown hok

theorem respond_outcome (hid : id < 65536) {resp : Value} {content : Bytes}
    (h : Fetches E act (.ok (resp, content))) {c c' : Console ε} (hc : c'.written = c.written) :
    Outcome E id act c ((do
      print (.data "" content)
      let header ← external (E.dumps (.object [("action", .string "httpreq"),
        ("code", ← getItem resp "status")]))
      sendMessage id ((← markLen header) ++ (← markLen content))
      print (.text "Data sent.")) c') := by
  have hknown : ¬Unrecognized E act := not_unrecognized h.action
  let c₁ : Console ε := { c' with stdout := c'.stdout ++ [.data "" content] }
  have hw : c₁.written = c.written := hc
  have hprint : print (.data "" content) c' = (.ok (), c₁) := rfl
  rw [bind_ok hprint]
  cases hs : lookup resp "status" with
  | none =>
    obtain ⟨e, he, hget⟩ := getItem_none hs c₁
    rw [bind_error hget]
    exact internal_outcome hw he hknown (not_fails_status h hs)
  | some status =>
    rw [bind_ok (getItem_some hs c₁)]
    have hfails := fails_status h hs
    cases hd : E.dumps (.object [("action", .string "httpreq"), ("code", status)]) with
    | error x =>
      have herr : external (.error x : Except ε Bytes) c₁ = (.error (.external x), c₁) := rfl
      rw [bind_error herr]
      have hx : ∀ y, Fails E act y ↔ y = x := by
        intro y
        rw [hfails, hd, Except.error.injEq, eq_comm]
      have ho : Outcome E id act c (.error (.external x), ⟨c.written, c₁.stdout⟩) :=
        Outcome.failed x c₁.stdout hknown hx
      rwa [← hw] at ho
    | ok header =>
      have hnone : ∀ x, ¬Fails E act x := by
        intro x hx
        rw [hfails, hd] at hx
        cases hx
      have hext : external (.ok header : Except ε Bytes) c₁ = (.ok header, c₁) := rfl
      rw [bind_ok hext]
      exact transmit_outcome hid header content hw hknown hnone

theorem early_outcome {c : Console ε} {e : PyErr ε} (he : Internal e)
    (hknown : ¬Unrecognized E act) (h : ∀ r, ¬Fetches E act r) :
    Outcome E id act c (.error e, c) :=
  Outcome.internal e c.stdout he hknown fun _ hx => h _ hx.choose_spec.1

theorem not_fetches {key : String} (hkey : key = "method" ∨ key = "url")
    (h : ∀ s, lookup act key ≠ some (.string s)) (r : Except ε (Value × Bytes)) :
    ¬Fetches E act r := by
  rintro ⟨-, method, url, hm, hu, -⟩
  obtain rfl | rfl := hkey
  · exact h method hm
  · exact h url hu

theorem httpreq_outcome (hid : id < 65536) (ha : lookup act "action" = some (.string "httpreq"))
    (c : Console ε) : Outcome E id act c (onReceive E id act c) := by
  have hknown : ¬Unrecognized E act := not_unrecognized ha
  unfold onReceive
  rw [bind_ok (getItem_some ha c), if_pos (isText_iff.mpr rfl)]
  obtain ⟨method, hm, hget⟩ | ⟨hno, e, he, hget⟩ := textItem_cases act "method" _ c
  · rw [hget]
    obtain ⟨url, hu, hget⟩ | ⟨hno, e, he, hget⟩ := textItem_cases act "url" _ c
    · rw [hget]
      by_cases henc : E.encodes ("HTTP " ++ method ++ " " ++ url ++ ": ") = true
      · rw [bind_ok (printText_ok henc c), hm, Option.getD_some]
        have hf : Fetches E act (E.request (.string url) (.string method)
            ((lookup act "body").getD .null) ((lookup act "headers").getD .null)) :=
          ⟨ha, method, url, hm, hu, henc, rfl⟩
        cases hr : E.request (.string url) (.string method)
            ((lookup act "body").getD .null) ((lookup act "headers").getD .null) with
        | error x =>
          rw [hr] at hf
          rw [bind_error (external_error x _)]
          refine Outcome.failed x _ hknown fun y => ?_
          rw [fails_iff hf]
          simp [eq_comm]
        | ok v =>
          rw [hr] at hf
          rw [bind_ok (external_ok v _)]
          exact respond_outcome hid hf rfl
      · rw [bind_error (printText_error henc c)]
        apply early_outcome (fun x => by simp) hknown
        intro r hf
        obtain ⟨_, _, hm', hu', henc', -⟩ := hf.asked
        rw [hm] at hm'
        rw [hu] at hu'
        cases hm'
        cases hu'
        exact henc henc'
    · rw [hget]
      exact early_outcome he hknown (not_fetches (Or.inr rfl) hno)
  · rw [hget]
    exact early_outcome he hknown (not_fetches (Or.inl rfl) hno)

theorem other_outcome {action : Value} (ha : lookup act "action" = some action)
    (hother : ¬isText action "httpreq" = true) (c : Console ε) :
    Outcome E id act c (onReceive E id act c) := by
  unfold onReceive
  rw [bind_ok (getItem_some ha c), if_neg hother]
  rw [isText_iff] at hother
  have hnofetch : ∀ r, ¬Fetches E act r := by
    intro r hf
    rw [hf.action] at ha
    exact hother (Option.some.inj ha).symm
  obtain ⟨s, rfl, hs⟩ | ⟨hno, hbad⟩ := asText_cases action
  · rw [bind_ok (hs c)]
    have hne : s ≠ "httpreq" := fun h => hother (by rw [h])
    by_cases henc : E.encodes ("Unrecognized action \"" ++ s ++ "\"") = true
    · rw [printText_ok henc c]
      exact Outcome.silent _ ⟨s, ha, hne, henc⟩
    · rw [printText_error henc c]
      apply early_outcome (fun x => by simp) _ hnofetch
      rintro ⟨s', hs', -, henc'⟩
      rw [ha] at hs'
      cases hs'
      exact henc henc'
  · rw [bind_error (hbad c)]
    apply early_outcome (fun x => by simp) _ hnofetch
    rintro ⟨s', hs', -⟩
    rw [ha] at hs'
    exact hno _ (Option.some.inj hs')

theorem onReceive_outcome (E : Externals ε) (hid : id < 65536) (act : Value) (c : Console ε) :
    Outcome E id act c (onReceive E id act c) := by
  cases ha : lookup act "action" with
  | none =>
    obtain ⟨e, he, hget⟩ := getItem_none ha c
    rw [onReceive, bind_error hget]
    apply early_outcome he
    · rintro ⟨s, hs, -⟩
      rw [ha] at hs
      cases hs
    · intro r hf
      rw [hf.action] at ha
      cases ha
  | some action =>
    by_cases hreq : isText action "httpreq" = true
    · rw [isText_iff] at hreq
      subst hreq
      exact httpreq_outcome hid ha c
    · exact other_outcome ha hreq c

end Jiauliyan.Replies
