import Jiauliyan.DkjsonFinds
import Jiauliyan.StrtoulRange

namespace Jiauliyan.DkjsonStrings

open Jiauliyan.Framing (Bytes)
open Jiauliyan.JsonText hiding Bytes
open Jiauliyan.StrtoulRange (addAll addAll_spec not_noticed digitOf digitsOf reading unspaced
  strtoul_reading Prefixed)
open Jiauliyan.Dkjson Jiauliyan.DkjsonFinds

variable {ν : Type} {str rest : Bytes} {pos : ℕ}

theorem unichar_utf8 {n : ℕ} (h : n.isValidChar) : unichar n = some (utf8 n) := by
  have hval : (Char.ofNat n).val.toNat = n := by
    rw [Char.ofNat, dif_pos h]
    rfl
  have hmax : n ≤ 0x10ffff := by
    obtain h | h := h <;> omega
  have hhead : n / 0x40 % 0x20 = n / 0x40 ∨ 0x7ff < n := by omega
  simp only [unichar, utf8, String.utf8EncodeChar, hval, strchar]
  split_ifs with h1 h2 h3
  · rfl
  · have h5 : n / 0x40 % 0x20 = n / 0x40 := by omega
    simp only [List.map_cons, List.map_nil, h5, Nat.add_comm]
  · have h5 : n / 0x1000 % 0x10 = n / 0x1000 := by omega
    simp only [List.map_cons, List.map_nil, h5, Nat.add_comm]
  · have h5 : n / 0x40000 % 0x08 = n / 0x40000 := by omega
    simp only [List.map_cons, List.map_nil, h5, Nat.add_comm]

theorem hex_char (h : Hex) : digitOf h.char = some h.value.val ∧
    Strtoul.isspace h.char.toNat = false ∧ h.char ≠ 45 ∧ h.char ≠ 43 ∧ h.char ≠ 120 ∧
      h.char ≠ 88 := by
  obtain ⟨v, b⟩ := h
  revert v b
  decide

theorem hex_digits (hs : List Hex) :
    digitsOf 16 (hs.map Hex.char) = hs.map fun h => h.value.val := by
  induction hs with
  | nil => rfl
  | cons h hs ih =>
    rw [List.map_cons, digitsOf, (hex_char h).1]
    simp only [if_pos h.value.isLt, ih, List.map_cons]

theorem hex_reading (h : Hex) (hs : List Hex) : reading ((h :: hs).map Hex.char) 16 =
    ⟨false, 16, 0, (h :: hs).map fun h => h.value.val⟩ := by
  obtain ⟨-, hspace, hminus, hplus, -⟩ := hex_char h
  have hunspaced : unspaced ((h :: hs).map Hex.char) = (h :: hs).map Hex.char := by
    rw [List.map_cons, unspaced, List.dropWhile_cons_of_neg]
    rw [hspace]
    exact Bool.false_ne_true
  have hunsigned : StrtoulRange.unsigned ((h :: hs).map Hex.char) = (h :: hs).map Hex.char := by
    refine if_neg ?_
    rw [List.map_cons, List.head?_cons, Option.some_inj, Option.some_inj, not_or]
    exact ⟨hminus, hplus⟩
  have hprefix : ¬Prefixed 16 ((h :: hs).map Hex.char) := by
    rintro ⟨-, hx⟩
    cases hs with
    | nil => cases hx <;> rename_i hx <;> cases congrArg List.length hx
    | cons i is =>
      obtain ⟨-, -, -, -, h120, h88⟩ := hex_char i
      simp only [List.map_cons, List.take_succ_cons, List.take_zero, List.cons.injEq,
        and_true] at hx
      exact hx.elim (fun hx => h120 hx.2) fun hx => h88 hx.2
  have hneg : ((h :: hs).map Hex.char).head? ≠ some 45 := by
    rw [List.map_cons, List.head?_cons]
    exact fun hx => hminus (Option.some.inj hx)
  simp only [reading, hunspaced, hunsigned, if_neg hprefix, StrtoulRange.guess,
    if_neg (by decide : ¬(16 = 0)), hex_digits, decide_eq_false hneg, Nat.sub_self]

theorem code_lt (x : Code) : x.value < 0x10000 := by
  have ha := x.a.value.isLt
  have hb := x.b.value.isLt
  have hc := x.c.value.isLt
  have hd := x.d.value.isLt
  rw [Code.value]
  omega

theorem tonumber16_code (x : Code) :
    tonumber16 [x.a.char, x.b.char, x.c.char, x.d.char] = some x.value := by
  have hread := hex_reading x.a [x.b, x.c, x.d]
  have hvalue : Numeral.value 16 ([x.a, x.b, x.c, x.d].map fun h => h.value.val) = x.value := by
    simp only [Numeral.value, List.map_cons, List.map_nil, List.foldl_cons, List.foldl_nil,
      Code.value]
    omega
  have hlt : x.value < 4294967296 := (code_lt x).trans (by decide)
  have hadd := (addAll_spec (by decide) (by decide) 0 _).2
    (not_noticed (by decide : 2 ≤ 16) (hvalue.trans_le (Nat.le_of_lt_succ hlt)))
  have hstr := strtoul_reading ([x.a, x.b, x.c, x.d].map Hex.char) [] 16 0
  rw [hread] at hstr
  simp only [hadd, hvalue] at hstr
  have hstr : Strtoul.strtoul ([x.a.char, x.b.char, x.c.char, x.d.char] ++ [0]) 16 0 =
      ⟨x.value, 4, 0⟩ := by
    rw [Nat.mod_eq_of_lt hlt] at hstr
    exact hstr
  simp only [tonumber16, hstr]
  rfl

theorem escapeAt_escape (e : Escape) (h : At str pos ([92, e.chars.1] ++ rest)) :
    escapeAt str pos = ([e.chars.2], pos + 2) := by
  have hchar : Client.sub str (pos + 1) (pos + 1) = [e.chars.1] := At.char (At.next h)
  rw [escapeAt, hchar]
  cases e <;> rfl

theorem code_at {x : Code} (h : At str pos (x.text ++ rest)) :
    Client.sub str pos (pos + 1) = [92, 117] ∧ Client.sub str (pos + 1) (pos + 1) = [117] ∧
      tonumber16 (Client.sub str (pos + 2) (pos + 5)) = some x.value := by
  refine ⟨h.sub 1, At.char (At.next h), ?_⟩
  have hdigits : Client.sub str (pos + 2) (pos + 5) = [x.a.char, x.b.char, x.c.char, x.d.char] :=
    (At.next (At.next h)).sub 3
  rw [hdigits, tonumber16_code]

theorem escapeAt_unicode {x : Code} (single : x.value < 0xD800 ∨ 0xDFFF < x.value)
    (h : At str pos (x.text ++ rest)) : escapeAt str pos = (utf8 x.value, pos + 6) := by
  obtain ⟨-, hchar, hnumber⟩ := code_at h
  have hhigh : ¬(0xD800 ≤ x.value ∧ x.value ≤ 0xDBff) := by omega
  have hvalid : x.value.isValidChar := by
    have hlt := code_lt x
    rw [Nat.isValidChar]
    omega
  rw [escapeAt, hchar, if_pos rfl, unicodeEscape, hnumber]
  simp only [if_neg hhigh, unichar_utf8 hvalid, Option.map_some]

theorem escapeAt_pair {x y : Code} (high : 0xD800 ≤ x.value ∧ x.value ≤ 0xDBFF)
    (low : 0xDC00 ≤ y.value ∧ y.value ≤ 0xDFFF) (h : At str pos (x.text ++ (y.text ++ rest))) :
    escapeAt str pos = (utf8 (joined x.value y.value), pos + 12) := by
  obtain ⟨-, hchar, hnumber⟩ := code_at h
  obtain ⟨hmark, -, hlow⟩ := code_at (show At str (pos + 6) (y.text ++ rest) from At.forward h)
  have hvalid : (joined x.value y.value).isValidChar := by
    rw [Nat.isValidChar, joined]
    omega
  have hjoined := unichar_utf8 hvalid
  rw [joined] at hjoined
  rw [escapeAt, hchar, if_pos rfl, unicodeEscape, hnumber]
  simp only [if_pos high, lowSurrogate, if_pos hmark, hlow, if_pos low, hjoined, Option.map_some,
    joined]

variable {w : Bytes} {c : UInt8} {start lastpos fuel : ℕ} {buffer : Bytes}

theorem stringLoop_round (hw : ∀ d ∈ w, (d == 34 || d == 92) = false)
    (hc : (c == 34 || c == 92) = true) (h : At str lastpos (w ++ c :: rest)) :
    stringLoop (ν := ν) str start (fuel + 1) lastpos buffer =
      if c = 34 then some ⟨.string (buffer ++ w), lastpos + w.length + 1, none⟩
      else
        stringLoop str start fuel (escapeAt str (lastpos + w.length)).2
          (buffer ++ w ++ (escapeAt str (lastpos + w.length)).1) := by
  have hbuffer : (if lastpos < lastpos + w.length then
      buffer ++ Client.sub str lastpos (lastpos + w.length - 1) else buffer) = buffer ++ w := by
    cases w with
    | nil => rw [if_neg (by simp), List.append_nil]
    | cons d w => rw [if_pos (by simp), h.sub_forward (List.cons_ne_nil d w)]
  rw [stringLoop, quote_class.find_some h hw hc]
  simp only [hbuffer, h.forward.char, List.cons.injEq, and_true]

theorem piece_nonempty (p : Piece) : 0 < p.text.length := by
  cases p <;> exact Nat.succ_pos _

theorem pieces_le (ps : List Piece) : ps.length ≤ (ps.flatMap Piece.text).length := by
  induction ps with
  | nil => exact le_rfl
  | cons p ps ih =>
    have hp := piece_nonempty p
    rw [List.flatMap_cons, List.length_append, List.length_cons]
    omega

theorem stringLoop_pieces (ps : List Piece) (hw : ∀ d ∈ w, (d == 34 || d == 92) = false)
    (hfuel : ps.length < fuel)
    (h : At str lastpos (w ++ (ps.flatMap Piece.text ++ 34 :: rest))) :
    stringLoop (ν := ν) str start fuel lastpos buffer =
      some ⟨.string (buffer ++ w ++ stringBytes ps),
        lastpos + w.length + (ps.flatMap Piece.text).length + 1, none⟩ := by
  have hnil : ∀ d ∈ ([] : Bytes), (d == 34 || d == 92) = false := fun d hd => by cases hd
  induction ps generalizing w lastpos fuel buffer with
  | nil =>
    obtain ⟨fuel, rfl⟩ := Nat.exists_eq_add_one_of_ne_zero (Nat.ne_of_gt hfuel)
    rw [stringLoop_round hw rfl h, if_pos rfl, stringBytes, List.flatMap_nil, List.append_nil]
    rfl
  | cons p ps ih =>
    rw [List.flatMap_cons, List.append_assoc] at h
    rw [List.flatMap_cons, stringBytes, List.flatMap_cons, List.length_append]
    -- behind an escape sequence, the loop begins with nothing in front
    have hescape : ∀ {value : Bytes}, p.text.head? = some 92 →
        escapeAt str (lastpos + w.length) = (value, lastpos + w.length + p.text.length) →
        stringLoop (ν := ν) str start fuel lastpos buffer =
          some ⟨.string (buffer ++ w ++ (value ++ stringBytes ps)),
            lastpos + w.length + (p.text.length + (ps.flatMap Piece.text).length) + 1, none⟩ := by
      intro value hhead hat
      obtain ⟨fuel, rfl⟩ := Nat.exists_eq_add_one_of_ne_zero (Nat.ne_zero_of_lt hfuel)
      obtain ⟨more, hmore⟩ := List.head?_eq_some_iff.mp hhead
      have hround := h
      rw [hmore, List.cons_append] at hround
      have hnext := h.forward.forward
      rw [stringLoop_round hw rfl hround, if_neg (by decide), hat]
      rw [ih hnil (Nat.lt_of_succ_lt_succ hfuel) hnext, List.append_nil,
        List.append_assoc (buffer ++ w), List.length_nil]
      congr 2
      omega
    cases p with
    | char c plain =>
      have hplain : (c == 34 || c == 92) = false := by simp [plain]
      have hsnoc : ∀ d ∈ w ++ [c], (d == 34 || d == 92) = false := by
        intro d hd
        obtain hd | hd := List.mem_append.mp hd
        · exact hw d hd
        · rw [List.mem_singleton.mp hd, hplain]
      have hat : At str lastpos ((w ++ [c]) ++ (ps.flatMap Piece.text ++ 34 :: rest)) := by
        rwa [List.append_assoc]
      rw [ih hsnoc (Nat.lt_of_succ_lt hfuel) hat]
      simp only [List.append_assoc, List.length_append, Piece.text, Piece.bytes, List.length_cons,
        stringBytes, Nat.add_assoc]
    | escape e => exact hescape rfl (escapeAt_escape e h.forward)
    | unicode x single => exact hescape rfl (escapeAt_unicode single h.forward)
    | pair x y high low =>
      have hat := h.forward
      rw [Piece.text, List.append_assoc] at hat
      exact hescape rfl (escapeAt_pair high low hat)

theorem scanstring_text (ps : List Piece) (h : At str pos (stringText ps ++ rest)) :
    scanstring (ν := ν) str pos =
      some ⟨.string (stringBytes ps), pos + (stringText ps).length, none⟩ := by
  have hlen := h.length
  have hle := pieces_le ps
  rw [stringText, List.cons_append, List.append_assoc, List.singleton_append] at h
  rw [stringText, List.length_append, List.length_cons, List.length_append,
    List.length_singleton] at hlen
  have hfuel : ps.length < str.length + 1 := by
    have := h.start
    omega
  have hnil : ∀ d ∈ ([] : Bytes), (d == 34 || d == 92) = false := fun d hd => by cases hd
  rw [scanstring, stringLoop_pieces ps hnil hfuel h.next, stringText, List.length_cons,
    List.length_append, List.length_singleton, List.length_nil, List.nil_append]
  congr 2
  omega

end Jiauliyan.DkjsonStrings
