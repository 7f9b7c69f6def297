import SiteTree.Json.Reader
import SiteTree.Json.Text
import SiteTree.Proofs.Text.Encoding

/-!
# Strings in JSON text

A string is written between quotes, with the characters escaped that cannot stand there as they are.
Reading gives back every string, and stops behind the closing quote, whatever follows.

* `string?_quoted` — a string is read back.
* `quote_append_inj` — two texts that begin with strings begin with the same one.
-/

namespace SiteTree.Json

theorem unicodeEscape?_control {c : Char} (h : c.toNat < 0x20) (rest : List Char) :
    unicodeEscape? ('0' :: '0' :: Text.hexDigit (c.toNat / 16) :: Text.hexDigit (c.toNat % 16) :: rest)
      = some (c, rest) := by
  have hzero : Text.hexValue? '0' = some 0 := rfl
  have hunit : ((0 * 16 + 0) * 16 + c.toNat / 16) * 16 + c.toNat % 16 = c.toNat := by omega
  rw [unicodeEscape?, hex4?, hzero, Text.hexValue?_hexDigit (by omega),
    Text.hexValue?_hexDigit (by omega)]
  simp only [Option.pure_def, Option.bind_eq_bind, Option.bind_some, hunit]
  rw [if_neg (by omega), if_neg (by omega), Char.ofNat_toNat]

/-- A character is read back from what stands for it. -/
theorem stringRest?_escapeChar (c : Char) (fuel : Nat) (read rest : List Char) :
    stringRest? (fuel + 1) read (escapeChar c ++ rest) = stringRest? fuel (c :: read) rest := by
  unfold escapeChar
  split_ifs with hquote hbackslash hnewline hreturn htab hbackspace hfeed hcontrol
  · subst hquote; rfl
  · subst hbackslash; rfl
  · subst hnewline; rfl
  · subst hreturn; rfl
  · subst htab; rfl
  · subst hbackspace; rfl
  · subst hfeed; rfl
  · simp only [List.cons_append, List.nil_append, stringRest?, unicodeEscape?_control hcontrol]
    rfl
  · -- the character stands for itself, being none that the reader treats differently
    rw [List.singleton_append, stringRest?.eq_def]
    split <;> simp_all

theorem stringRest?_quoted {fuel : Nat} {text : List Char} (h : text.length < fuel)
    (read rest : List Char) :
    stringRest? fuel read (text.flatMap escapeChar ++ '"' :: rest)
      = some (text.reverse ++ read, rest) := by
  obtain ⟨fuel, rfl⟩ := Nat.exists_eq_add_one.mpr (Nat.zero_lt_of_lt h)
  induction text generalizing fuel read with
  | nil => rfl
  | cons c text ih =>
    have hlength : text.length < fuel := Nat.lt_of_succ_lt_succ h
    obtain ⟨fuel, rfl⟩ := Nat.exists_eq_add_one.mpr (Nat.zero_lt_of_lt hlength)
    rw [List.flatMap_cons, List.append_assoc, stringRest?_escapeChar, ih (c :: read) fuel hlength,
      List.reverse_cons, List.append_assoc, List.singleton_append]

theorem length_le_flatMap_escapeChar (text : List Char) :
    text.length ≤ (text.flatMap escapeChar).length := by
  induction text with
  | nil => exact Nat.le_refl 0
  | cons c text ih =>
    have hpos : 0 < (escapeChar c).length := by
      unfold escapeChar
      split_ifs <;> exact Nat.zero_lt_succ _
    rw [List.flatMap_cons, List.length_append, List.length_cons]
    omega

/-- What is written between quotes is read back, up to the closing one. -/
theorem string?_quoted (text rest : List Char) :
    string? (text.flatMap escapeChar ++ '"' :: rest) = some (String.ofList text, rest) := by
  have hfuel : text.length < (text.flatMap escapeChar ++ '"' :: rest).length + 1 := by
    have := length_le_flatMap_escapeChar text
    rw [List.length_append]
    omega
  rw [string?, stringRest?_quoted hfuel, List.append_nil]
  simp only [Option.map_some, List.reverse_reverse]

theorem quote_append_inj {first second firstRest secondRest : List Char}
    (h : quote first ++ firstRest = quote second ++ secondRest) :
    first = second ∧ firstRest = secondRest := by
  simp only [quote, List.cons_append, List.append_assoc, List.nil_append, List.cons.injEq,
    true_and] at h
  have hread := string?_quoted first firstRest
  rw [h, string?_quoted, Option.some_inj, Prod.mk.injEq] at hread
  exact ⟨(String.ofList_injective hread.1).symm, hread.2.symm⟩

end SiteTree.Json
