import Jiauliyan.DkjsonQuotes
import Jiauliyan.FormatUint

namespace Jiauliyan.LuaFormat

open Jiauliyan.Memory Jiauliyan.StringCompare Jiauliyan.Bytestreams
open Jiauliyan.Format Jiauliyan.FormatHeap Jiauliyan.PutUint Jiauliyan.Numeral
open Jiauliyan.JsonText (Hex Code)
open Jiauliyan.DkjsonQuotes (Written)

def form : Chars := [37, 46, 52, 108, 120, 0]

section Call

/- What the kernel's memory holds when `sprintf` is called, with the arguments at `ap`. -/
variable (w : World) (h : Heap) (block : ℕ → ℕ → UInt8) (m : Mem) (ap : ℕ)

/-- `string.format("%.4x", value)` -/
def format4x (value : ℕ) : Chars :=
  content (vformat w (store32 m ap value) h block 0 0 form ap).bytes

def conversion (value : ℕ) : Conversion :=
  ⟨Radix.hex.set noFlags, 0, 4, .uint (UInt32.ofNat value)⟩

theorem readArg_form (value : ℕ) (hv : value < 4294967296) :
    readArg (store32 m ap value) ⟨ap, []⟩ form.tail =
      (⟨ap + 4, [(ap, 4)]⟩, some (conversion value, [0])) := by
  have hread : readArg (store32 m ap value) ⟨ap, []⟩ form.tail = (⟨ap + 4, [(ap, 4)]⟩,
      some (conversion (load32 (store32 m ap value) ap), [0])) := rfl
  rw [hread, load32_store32, u32_eq hv]

theorem putField_text {out : Chars} (cv : Conversion) (hz : 0 ∉ out) (hout : out.length < BUFSIZ)
    (hwidth : cv.width = 0) (n : ℕ) (found : ℕ → UInt8) :
    ∃ tail, putField h n found cv out = out ++ content (found out.length :: tail) := by
  obtain ⟨capacity, added, flen, hfit, hfresh, hall⟩ := putField_justify h n cv out
  obtain rfl := hfresh (by omega)
  obtain ⟨k, hk⟩ : ∃ k, BUFSIZ - out.length = k + 1 := ⟨BUFSIZ - out.length - 1, by omega⟩
  have hfirst : written out found added (out.length + 0) = found out.length := by
    rw [Nat.add_zero, written, if_neg (Nat.lt_irrefl _), if_pos hout]
  refine ⟨((List.range k).map Nat.succ).map (fun i => written out found added (out.length + i)) ++
    h.behind n BUFSIZ, ?_⟩
  rw [hall, justify, if_neg (by omega), range_written hfit, hk, List.range_succ_eq_map,
    List.map_cons, hfirst, List.append_assoc, content_append hz]
  rfl

theorem format4x_eq {value : ℕ} (hv : value < 65536) :
    ∃ tail, format4x w h block m ap value = numeralText false .hex value ++
      content (block 0 (numeralText false .hex value).length :: tail) := by
  have hz := FormatUint.zero_notMem_numeral false .hex value
  have hlimit : value < Radix.hex.limit := hv.trans (by decide)
  have hlen : (numeralText false .hex value).length < BUFSIZ := by
    have hle : (numeralText false .hex value).length ≤ 11 := by
      rw [numeralText, List.length_map]
      exact numeral_length_le (hv.trans (by decide))
    exact hle.trans_lt (by decide)
  have hfield : field w (conversion value) = some (numeralText false .hex value) := by
    have hput := putuint_right w noFlags hlimit
    have hnat : (UInt32.ofNat value).toNat = value := by
      rw [UInt32.toNat_ofNat']
      exact Nat.mod_eq_of_lt (hv.trans (by decide))
    show putuint w (UInt32.ofNat value).toNat (Radix.hex.set noFlags) = _
    rw [hnat, hput, putText]
    split_ifs <;> rfl
  obtain ⟨tail, hput⟩ := putField_text h (conversion value) hz hlen rfl 0 (block 0)
  refine ⟨tail, ?_⟩
  have hread := readArg_form m ap value (hv.trans (by decide))
  have hbytes : vformat w (store32 m ap value) h block 0 0 form ap =
      (vformat w (store32 m ap value) h block 1 4 form.tail (ap + 4)).after
        (putField h 0 (block 0) (conversion value) (numeralText false .hex value)) := by
    show vformat w (store32 m ap value) h block 0 0 (37 :: form.tail) ap = _
    rw [vformat, if_neg (by decide), if_neg (by decide), hread]
    simp only [hfield]
    rfl
  have hnone : 0 ∉ numeralText false .hex value ++
      content (block 0 (numeralText false .hex value).length :: tail) := fun hmem =>
    (List.mem_append.mp hmem).elim hz (content_no_zero _)
  rw [format4x, hbytes, hput]
  show content (_ ++ []) = _
  rw [List.append_nil, FormatUint.content_of_notMem hnone]

theorem hex_digit : ∀ v : Fin 16, (digits false).getD v.val 0 = (Hex.mk v false).char := by decide

theorem hex_value : ∀ d < 16, ∀ v : Fin 16, ∀ upper,
    (digits false).getD d 0 = (Hex.mk v upper).char → v.val = d := by decide

/-- Only numbers of four digits get as many, and only where a zero happens to be behind them. -/
theorem written_iff {value : ℕ} (hpos : 1 ≤ value) (hle : value ≤ 0xffff) :
    Written (format4x w h block m ap) value ↔ 0x1000 ≤ value ∧ block 0 4 = 0 := by
  obtain ⟨tail, htext⟩ := format4x_eq w h block m ap (by omega : value < 65536)
  have hfour : 0x1000 ≤ value → numeral 16 value = lowest 16 value 4 := fun hlarge =>
    numeral_eq_lowest (by decide) hlarge (by omega)
  rw [numeralText, show Radix.hex.base = 16 from rfl] at htext
  constructor
  · rintro ⟨x, hx, hvalue⟩
    have hdigits : format4x w h block m ap value = [x.a.char, x.b.char, x.c.char, x.d.char] :=
      List.append_cancel_left hx
    rw [htext] at hdigits
    -- the first digit is not a zero
    have hlarge : 0x1000 ≤ value := by
      have hbase : 1 < 16 := by decide
      cases hnum : numeral 16 value with
      | nil => exact absurd hnum (numeral_ne_nil hbase value)
      | cons d ds =>
        have hd := leading_pos hpos hnum
        have hlt := digit_lt hbase value d (by rw [hnum]; exact List.mem_cons_self)
        rw [hnum] at hdigits
        have ha := hex_value d hlt x.a.value x.a.upper (List.cons.inj hdigits).1
        rw [← hvalue, Code.value]
        omega
    refine ⟨hlarge, ?_⟩
    rw [hfour hlarge] at hdigits
    have hlen := congrArg List.length hdigits
    rw [List.length_append, List.length_map] at hlen
    have hnil : content (block 0 4 :: tail) = [] :=
      List.length_eq_zero_iff.mp (Nat.add_left_cancel hlen)
    by_contra hne
    rw [content, List.takeWhile_cons_of_pos (by simpa using hne)] at hnil
    cases hnil
  · rintro ⟨hlarge, hzero⟩
    have hlt (n : ℕ) : n % 16 < 16 := Nat.mod_lt n (by decide)
    rw [hfour hlarge, List.length_map, show (lowest 16 value 4).length = 4 from rfl, hzero] at htext
    refine ⟨⟨⟨⟨value / 4096 % 16, hlt _⟩, false⟩, ⟨⟨value / 256 % 16, hlt _⟩, false⟩,
      ⟨⟨value / 16 % 16, hlt _⟩, false⟩, ⟨⟨value % 16, hlt _⟩, false⟩⟩, ?_, ?_⟩
    · have hnil : content (0 :: tail) = [] := rfl
      rw [htext, hnil, List.append_nil, Code.text]
      simp only [← hex_digit, lowest, List.map_cons, List.map_nil]
      simp
    · simp only [Code.value]
      omega

end Call

theorem separator_written : Written (format4x ⟨fun _ => [], fun _ _ => 0, fun _ _ _ => some []⟩
      ⟨fun _ _ _ => 0, fun _ _ => []⟩ (fun _ _ => 0) (fun _ => 0) 0) 0x2028 ↔
    0x1000 ≤ 0x2028 ∧ (0 : UInt8) = 0 :=
  written_iff _ _ _ _ _ (by decide) (by decide)

end Jiauliyan.LuaFormat
