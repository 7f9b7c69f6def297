import SiteTree.Text.Search
import Mathlib.Data.String.Basic
import Mathlib.Data.UInt

/-!
# Texts by bytes

A text is stored in UTF-8, and whoever scans it byte by byte keeps offsets and cuts the text at them.
A cut succeeds only where one character ends and the next begins.

* `cut?_eq_some_iff` — where a text can be cut, and what the parts are.
* `byteAt?_append` — in which part of a text a byte is read.
* `scan?_char` — a scan that has no use for bytes beyond ASCII goes on from character to character.
-/

namespace SiteTree.Text

open String (utf8Len)

/-! ### Bytes -/

/-- The bytes of a text. -/
def bytes (text : List Char) : List UInt8 :=
  text.flatMap String.utf8EncodeChar

/-- The byte at an offset, as the character of that number. -/
def byteAt? (text : List Char) (offset : Nat) : Option Char :=
  (bytes text)[offset]?.map UInt8.toChar

theorem length_bytes (text : List Char) : (bytes text).length = utf8Len text := by
  induction text with
  | nil => rfl
  | cons c text ih =>
    rw [bytes, List.flatMap_cons, List.length_append, ← bytes, ih, String.length_utf8EncodeChar,
      String.utf8Len_cons, Nat.add_comm]

/-- A character of ASCII takes up one byte. -/
theorem utf8Len_concat {c : Char} (h : c.toNat ≤ 127) (text : List Char) :
    utf8Len (text ++ [c]) = utf8Len text + 1 := by
  have hsize : c.utf8Size = 1 := Char.utf8Size_eq_one_iff.mpr h
  rw [String.utf8Len_append, String.utf8Len_cons, hsize]
  rfl

theorem byteAt?_append (front back : List Char) (offset : Nat) :
    byteAt? (front ++ back) (utf8Len front + offset) = byteAt? back offset := by
  have hbytes : bytes (front ++ back) = bytes front ++ bytes back := List.flatMap_append
  rw [byteAt?, byteAt?, hbytes, ← length_bytes, List.getElem?_append_right (Nat.le_add_right _ _),
    Nat.add_sub_cancel_left]

theorem byteAt?_cons {c : Char} {offset : Nat} (h : offset < c.utf8Size) (text : List Char) :
    byteAt? (c :: text) offset
      = (String.utf8EncodeChar c)[offset]?.map UInt8.toChar := by
  rw [byteAt?, bytes, List.flatMap_cons, List.getElem?_append_left]
  rwa [String.length_utf8EncodeChar]

theorem byteAt?_eq_none {text : List Char} {offset : Nat} (h : utf8Len text ≤ offset) :
    byteAt? text offset = none := by
  rw [byteAt?, List.getElem?_eq_none (by rwa [length_bytes])]
  rfl

theorem lt_of_byteAt? {text : List Char} {offset : Nat} {byte : Char}
    (h : byteAt? text offset = some byte) : offset < utf8Len text := by
  by_contra hle
  rw [byteAt?_eq_none (by omega)] at h
  exact absurd h (by simp)

/-- A character of ASCII is its own byte. -/
theorem byteAt?_ascii {c : Char} (h : c.toNat ≤ 127) (text : List Char) :
    byteAt? (c :: text) 0 = some c := by
  have hencode : String.utf8EncodeChar c = [UInt8.ofNat c.toNat] := if_pos h
  rw [byteAt?_cons c.utf8Size_pos, hencode]
  refine congrArg some (Char.ext (UInt32.toNat_inj.mp ?_))
  have hbyte : c.toNat % 2 ^ 8 = c.toNat := Nat.mod_eq_of_lt (by omega)
  exact hbyte

/-- Every other byte of a text is beyond ASCII. -/
theorem byteAt?_beyond {c : Char} {offset : Nat} (hoffset : offset < c.utf8Size)
    (h : offset = 0 → 127 < c.toNat) (text : List Char) :
    ∃ byte : Char, byteAt? (c :: text) offset = some byte ∧ 127 < byte.toNat := by
  have hlength : offset < (String.utf8EncodeChar c).length := by
    rwa [String.length_utf8EncodeChar]
  have hbeyond : ∀ byte ∈ (String.utf8EncodeChar c)[offset]?, 127 < byte.toNat := by
    intro byte hbyte
    have hc : c.toNat = c.val.toNat := rfl
    simp only [String.utf8EncodeChar, hc] at hbyte h
    split_ifs at hbyte <;> rcases offset with _ | _ | _ | _ | offset <;> simp at hbyte h <;>
      subst hbyte <;> simp <;> omega
  rw [byteAt?_cons hoffset]
  rw [List.getElem?_eq_getElem hlength] at hbeyond ⊢
  exact ⟨_, rfl, hbeyond _ rfl⟩

theorem byteAt?_append_ascii {c : Char} (h : c.toNat ≤ 127) (front back : List Char) :
    byteAt? (front ++ c :: back) (utf8Len front) = some c := by
  rw [← byteAt?_ascii h back]
  exact byteAt?_append front (c :: back) 0

/-- The first byte of a text is a character of ASCII exactly when the text begins with it. -/
theorem byteAt?_zero_iff {c : Char} (h : c.toNat ≤ 127) {text : List Char} :
    byteAt? text 0 = some c ↔ text.head? = some c := by
  cases text with
  | nil => exact iff_of_false (by simp [byteAt?, bytes]) (by simp)
  | cons d text =>
    rcases Nat.lt_or_ge 127 d.toNat with hbeyond | hascii
    · obtain ⟨byte, hbyte, hlarge⟩ := byteAt?_beyond d.utf8Size_pos (fun _ => hbeyond) text
      rw [hbyte, List.head?_cons, Option.some_inj, Option.some_inj]
      refine iff_of_false ?_ ?_ <;> rintro rfl <;> omega
    · rw [byteAt?_ascii hascii, List.head?_cons]

/-! ### Cuts -/

/-- The two parts of a text that is cut at an offset; `none` when no character ends there. -/
def cut? : List Char → Nat → Option (List Char × List Char)
  | text, 0 => some ([], text)
  | [], _ + 1 => none
  | c :: text, offset + 1 =>
    if c.utf8Size ≤ offset + 1 then
      (cut? text (offset + 1 - c.utf8Size)).map fun (front, back) => (c :: front, back)
    else none

/-- What stands in front of an offset. -/
def upTo? (text : List Char) (stop : Nat) : Option (List Char) :=
  (cut? text stop).map Prod.fst

/-- What stands behind an offset. -/
def from? (text : List Char) (start : Nat) : Option (List Char) :=
  (cut? text start).map Prod.snd

/-- What stands between two offsets. -/
def slice? (text : List Char) (start stop : Nat) : Option (List Char) :=
  (upTo? text stop).bind (from? · start)

theorem cut?_append (front back : List Char) :
    cut? (front ++ back) (utf8Len front) = some (front, back) := by
  induction front with
  | nil => simp [cut?]
  | cons c front ih =>
    obtain ⟨size, hsize⟩ := Nat.exists_eq_add_one.mpr c.utf8Size_pos
    rw [List.cons_append, String.utf8Len_cons, hsize, ← Nat.add_assoc, cut?, if_pos (by omega),
      show utf8Len front + size + 1 - c.utf8Size = utf8Len front by omega, ih]
    rfl

/-- A text can be cut where a part of it ends, and nowhere else. -/
theorem cut?_eq_some_iff {text front back : List Char} {offset : Nat} :
    cut? text offset = some (front, back) ↔ text = front ++ back ∧ offset = utf8Len front := by
  constructor
  · intro h
    fun_induction cut? text offset generalizing front back with
    | case1 text =>
      cases h
      exact ⟨rfl, rfl⟩
    | case2 offset => exact absurd h (by simp)
    | case3 c text offset hsize ih =>
      obtain ⟨⟨rest, _⟩, hrest, hcut⟩ := Option.map_eq_some_iff.mp h
      cases hcut
      obtain ⟨rfl, hoffset⟩ := ih hrest
      refine ⟨rfl, ?_⟩
      rw [String.utf8Len_cons]
      omega
    | case4 c text offset hsize => exact absurd h (by simp)
  · rintro ⟨rfl, rfl⟩
    exact cut?_append front back

theorem upTo?_append (front back : List Char) :
    upTo? (front ++ back) (utf8Len front) = some front := by
  rw [upTo?, cut?_append]
  rfl

theorem from?_append (front back : List Char) :
    from? (front ++ back) (utf8Len front) = some back := by
  rw [from?, cut?_append]
  rfl

theorem slice?_append (front middle back : List Char) :
    slice? (front ++ middle ++ back) (utf8Len front) (utf8Len (front ++ middle)) = some middle := by
  rw [slice?, upTo?_append]
  exact from?_append front middle

theorem length_le_of_upTo? {text front : List Char} {stop : Nat} (h : upTo? text stop = some front) :
    front.length ≤ text.length := by
  obtain ⟨⟨_, back⟩, hcut, rfl⟩ := Option.map_eq_some_iff.mp h
  obtain ⟨rfl, -⟩ := cut?_eq_some_iff.mp hcut
  simp

theorem length_le_of_from? {text back : List Char} {start : Nat} (h : from? text start = some back) :
    back.length ≤ text.length := by
  obtain ⟨⟨front, _⟩, hcut, rfl⟩ := Option.map_eq_some_iff.mp h
  obtain ⟨rfl, -⟩ := cut?_eq_some_iff.mp hcut
  simp

/-! ### Searches -/

/-- The offset of the first place where `needle` occurs. -/
def find? (needle text : List Char) : Option Nat :=
  (splitFirst? needle text).map fun (before, _) => utf8Len before

/-- The offset of the last place where `needle` occurs. -/
def findLast? (needle text : List Char) : Option Nat :=
  (splitFirst? needle.reverse text.reverse).map fun (_, before) => utf8Len before.reverse

/-! ### Scans -/

/-- A scan of the bytes of a text from an offset on. Each step says where the scan goes on, in which
state. There is no answer when a step fails or leads nowhere. -/
def scan? {σ : Type} (text : List Char) (step : σ → Nat → Char → Option (σ × Nat)) (state : σ)
    (offset : Nat) : Option σ :=
  match _ : byteAt? text offset with
  | none => some state
  | some byte => do
    let (state, next) ← step state offset byte
    if _ : offset < next then scan? text step state next else none
termination_by utf8Len text - offset
decreasing_by
  have := lt_of_byteAt? ‹byteAt? text offset = some _›
  omega

section Scans

variable {σ : Type} {text : List Char} {step : σ → Nat → Char → Option (σ × Nat)}
  {state after : σ} {offset next : Nat} {byte : Char}

theorem scan?_end (h : utf8Len text ≤ offset) : scan? text step state offset = some state := by
  rw [scan?]
  split
  · rfl
  · next byte hbyte => exact absurd (lt_of_byteAt? hbyte) (by omega)

theorem scan?_step (hbyte : byteAt? text offset = some byte)
    (hstep : step state offset byte = some (after, next)) (hnext : offset < next) :
    scan? text step state offset = scan? text step after next := by
  rw [scan?]
  split
  · next hnone => exact absurd (hbyte.symm.trans hnone) (by simp)
  · next other hother =>
    obtain rfl : byte = other := Option.some_inj.mp (hbyte.symm.trans hother)
    rw [hstep]
    exact dif_pos hnext

/-- What goes on from every byte beyond ASCII to the next byte goes on from a character beyond ASCII to
the next character, and from within any character too. -/
theorem pass_bytes {α : Type} (read : Nat → α)
    (hbeyond : ∀ offset byte, byteAt? text offset = some byte → 127 < byte.toNat →
      read offset = read (offset + 1))
    {front back : List Char} {c : Char} (htext : text = front ++ c :: back) {passed : Nat}
    (hpassed : passed ≤ c.utf8Size) (hc : passed = 0 → 127 < c.toNat) :
    read (utf8Len front + passed) = read (utf8Len (front ++ [c])) := by
  have hend : utf8Len (front ++ [c]) = utf8Len front + c.utf8Size := by
    simp
  induction hleft : c.utf8Size - passed generalizing passed with
  | zero => rw [hend, show passed = c.utf8Size by omega]
  | succ left ih =>
    have hnext : read (utf8Len front + (passed + 1)) = read (utf8Len (front ++ [c])) :=
      ih (by omega) (by omega) (by omega)
    obtain ⟨byte, hbyte, hlarge⟩ := byteAt?_beyond (by omega : passed < c.utf8Size) hc back
    rw [← hnext, ← Nat.add_assoc]
    refine hbeyond _ byte ?_ hlarge
    rw [htext, byteAt?_append, hbyte]

/-- A scan that has no use for bytes beyond ASCII passes over a character in one step, whatever its
size is. -/
theorem scan?_char
    (hbeyond : ∀ offset byte, byteAt? text offset = some byte → 127 < byte.toNat →
      step state offset byte = some (state, offset + 1))
    {front back : List Char} {c : Char} (htext : text = front ++ c :: back)
    (hascii : c.toNat ≤ 127 → step state (utf8Len front) c = some (after, utf8Len front + 1))
    (hafter : 127 < c.toNat → after = state) :
    scan? text step state (utf8Len front) = scan? text step after (utf8Len (front ++ [c])) := by
  rcases Nat.lt_or_ge 127 c.toNat with hlarge | hsmall
  · rw [hafter hlarge]
    refine pass_bytes (scan? text step state) ?_ htext (Nat.zero_le _) fun _ => hlarge
    exact fun offset byte hbyte hbyteLarge =>
      scan?_step hbyte (hbeyond offset byte hbyte hbyteLarge) (Nat.lt_succ_self offset)
  · have hbyte : byteAt? text (utf8Len front) = some c := by
      rw [htext, byteAt?_append_ascii hsmall]
    rw [scan?_step hbyte (hascii hsmall) (Nat.lt_succ_self _), utf8Len_concat hsmall]

/-- A step from a character of ASCII to the end of a piece that begins with it. -/
theorem scan?_piece {front back piece : List Char} {c : Char} (htext : text = front ++ c :: back)
    (hascii : c.toNat ≤ 127) (hne : piece ≠ [])
    (hstep : step state (utf8Len front) c = some (after, utf8Len (front ++ piece))) :
    scan? text step state (utf8Len front) = scan? text step after (utf8Len (front ++ piece)) := by
  have hbyte : byteAt? text (utf8Len front) = some c := by
    rw [htext, byteAt?_append_ascii hascii]
  refine scan?_step hbyte hstep ?_
  obtain ⟨d, rest, rfl⟩ := List.exists_cons_of_ne_nil hne
  have := d.utf8Size_pos
  rw [String.utf8Len_append, String.utf8Len_cons]
  omega

end Scans

end SiteTree.Text
