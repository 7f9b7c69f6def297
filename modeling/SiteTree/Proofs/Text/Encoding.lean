import SiteTree.Proofs.Text.Bytes
import SiteTree.Text.Hex
import SiteTree.Text.Utf8
import Mathlib.Data.String.Basic
import Mathlib.Data.UInt

/-!
# Texts as bytes and bytes as texts

Nothing is lost when a text is encoded in UTF-8 or bytes are written as hexadecimal digits, and UTF-8
keeps the order of texts.

* `decodeHex?_encodeHex` — hexadecimal digits give back the bytes.
* `encodeUtf8_lt_iff` — texts are in order when their bytes are.
-/

namespace SiteTree.Text

/-! ### Hexadecimal digits -/

theorem hexValue?_hexDigit {n : Nat} (h : n < 16) : hexValue? (hexDigit n) = some n := by
  decide +revert

theorem decodeHex?_encodeHex (bytes : List UInt8) : decodeHex? (encodeHex bytes) = some bytes := by
  induction bytes with
  | nil => rfl
  | cons b bytes ih =>
    have hlt : b.toNat < 256 := b.toNat_lt
    have hdigits : UInt8.ofNat (16 * (b.toNat / 16) + b.toNat % 16) = b := by
      rw [Nat.div_add_mod, UInt8.ofNat_toNat]
    have hcons : encodeHex (b :: bytes)
        = hexDigit (b.toNat / 16) :: hexDigit (b.toNat % 16) :: encodeHex bytes := rfl
    rw [hcons, decodeHex?, hexValue?_hexDigit (by omega), hexValue?_hexDigit (by omega), ih]
    exact congrArg (fun byte => some (byte :: bytes)) hdigits

theorem encodeHex_injective : Function.Injective encodeHex := by
  intro first second h
  have hread := decodeHex?_encodeHex first
  rw [h, decodeHex?_encodeHex] at hread
  exact (Option.some_inj.mp hread).symm

/-! ### UTF-8 -/

theorem encodeUtf8_injective : Function.Injective encodeUtf8 := by
  intro first second h
  have hread := decodeUtf8_encodeUtf8 first
  rw [h, decodeUtf8_encodeUtf8] at hread
  exact (Except.ok.inj hread).symm

theorem encodeUtf8_eq (text : String) : encodeUtf8 text = bytes text.toList := by
  have hencode : text.toList.utf8Encode = text.toByteArray := String.utf8Encode_toList
  rw [encodeUtf8, String.toUTF8, ← hencode, List.utf8Encode, List.toList_data_toByteArray, bytes]

/-- The digits in front of the last one come first in a comparison. -/
theorem lt_by_digits {n m : Nat} (h : n < m) :
    n / 64 < m / 64 ∨ n / 64 = m / 64 ∧ n % 64 < m % 64 := by
  omega

/-- The bytes of a character that needs four are its digits to the base 64. -/
theorem four_digits_lt {n m : Nat} (h : n < m) :
    n / 262144 < m / 262144 ∨ n / 262144 = m / 262144 ∧
      (n / 4096 % 64 < m / 4096 % 64 ∨ n / 4096 % 64 = m / 4096 % 64 ∧
        (n / 64 % 64 < m / 64 % 64 ∨ n / 64 % 64 = m / 64 % 64 ∧ n % 64 < m % 64)) := by
  have hdiv (k : Nat) : k / 4096 = k / 64 / 64 ∧ k / 262144 = k / 64 / 64 / 64 := by omega
  rw [(hdiv n).1, (hdiv n).2, (hdiv m).1, (hdiv m).2]
  rcases lt_by_digits h with hthird | ⟨heq, hlast⟩
  · rcases lt_by_digits hthird with hsecond | ⟨heq, hdigit⟩
    · rcases lt_by_digits hsecond with hfirst | ⟨heq, hdigit⟩
      · exact .inl hfirst
      · exact .inr ⟨heq, .inl hdigit⟩
    · exact .inr ⟨by rw [heq], .inr ⟨by rw [heq], .inl hdigit⟩⟩
  · exact .inr ⟨by rw [heq], .inr ⟨by rw [heq], .inr ⟨by rw [heq], hlast⟩⟩⟩

/-- A smaller character has smaller bytes, whatever is behind the two. -/
theorem utf8EncodeChar_append_lt {c d : Char} (h : c < d) (front back : List UInt8) :
    String.utf8EncodeChar c ++ front < String.utf8EncodeChar d ++ back := by
  have hlt : c.val.toNat < d.val.toNat := h
  have hvalid : d.val.toNat < 0x110000 := by
    rcases d.valid with hsmall | ⟨-, hlarge⟩
    · exact hsmall.trans (by decide)
    · exact hlarge
  simp only [String.utf8EncodeChar]
  generalize c.val.toNat = n at hlt
  generalize d.val.toNat = m at hlt hvalid
  rcases Nat.lt_or_ge 65535 n with hwide | hnarrow
  · have hhead (k : Nat) (hk : k < 0x110000) :
        (k / 262144 % 8 + 240) % 2 ^ 8 = k / 262144 + 240 := by omega
    have htail (k : Nat) : (k % 64 + 128) % 2 ^ 8 = k % 64 + 128 := by omega
    rw [if_neg (by omega), if_neg (by omega), if_neg (by omega), if_neg (by omega),
      if_neg (by omega), if_neg (by omega)]
    simp only [List.cons_append, List.nil_append, List.cons_lt_cons_iff, UInt8.lt_iff_toNat_lt,
      ← UInt8.toNat_inj, UInt8.toNat_ofNat', hhead n (by omega), hhead m hvalid, htail,
      Nat.add_lt_add_iff_right, Nat.add_right_cancel_iff]
    rcases four_digits_lt hlt with hfirst | ⟨heq, hsecond | ⟨heq', hthird | ⟨heq'', hlast⟩⟩⟩
    · exact .inl hfirst
    · exact .inr ⟨heq, .inl hsecond⟩
    · exact .inr ⟨heq, .inr ⟨heq', .inl hthird⟩⟩
    · exact .inr ⟨heq, .inr ⟨heq', .inr ⟨heq'', .inl hlast⟩⟩⟩
  · -- the first bytes decide, or at most three digits do
    split_ifs <;>
      simp only [List.cons_append, List.nil_append, List.cons_lt_cons_iff,
        UInt8.lt_iff_toNat_lt, ← UInt8.toNat_inj, UInt8.toNat_ofNat'] <;>
      omega

theorem bytes_lt {first second : List Char} (h : first < second) : bytes first < bytes second := by
  induction h with
  | @nil c second =>
    have hpos : (String.utf8EncodeChar c).length = c.utf8Size := String.length_utf8EncodeChar c
    rw [bytes, bytes, List.flatMap_cons]
    cases hbytes : String.utf8EncodeChar c with
    | nil =>
      have := c.utf8Size_pos
      rw [hbytes, List.length_nil] at hpos
      omega
    | cons byte rest => exact .nil
  | cons h ih => exact List.append_left_lt ih
  | rel h => exact utf8EncodeChar_append_lt h _ _

/-- Texts are in the order of their bytes. -/
theorem encodeUtf8_lt_iff {first second : String} :
    encodeUtf8 first < encodeUtf8 second ↔ first < second := by
  have hmono {first second : String} (h : first < second) :
      encodeUtf8 first < encodeUtf8 second := by
    rw [encodeUtf8_eq, encodeUtf8_eq]
    exact bytes_lt (String.lt_iff_toList_lt.mp h)
  constructor
  · intro h
    rcases lt_trichotomy first second with hlt | rfl | hgt
    · exact hlt
    · exact absurd h (List.lt_irrefl _)
    · exact absurd h (List.lt_asymm (hmono hgt))
  · exact hmono

end SiteTree.Text
