import SiteTree.Number.Double
import Mathlib.Algebra.Order.Field.Power
import Mathlib.Algebra.Order.Field.Rat
import Mathlib.Tactic.FieldSimp
import Mathlib.Tactic.Ring

/-!
# The number that decimal text writes

Text with a point or an exponent in it writes a rational number, whatever double is nearest to it.

* `decimal?_layoutDigits` — however digits are laid out, the text writes the number that they make up
  at their place.
-/

namespace SiteTree.Double

/-! ### Digits -/

theorem digitsValue_eq (digits : List Char) :
    digitsValue digits = Nat.ofDigitChars 10 digits 0 :=
  Nat.ofDigitChars_eq_foldl.symm

theorem digitsValue_append (front back : List Char) :
    digitsValue (front ++ back) = 10 ^ back.length * digitsValue front + digitsValue back := by
  rw [digitsValue_eq, digitsValue_eq, digitsValue_eq, Nat.ofDigitChars_append,
    Nat.ofDigitChars_eq_ofDigitChars_zero]

theorem digitsValue_zeros (count : Nat) : digitsValue (List.replicate count '0') = 0 := by
  rw [digitsValue_eq, Nat.ofDigitChars_replicate_zero, Nat.mul_zero]

theorem digitsValue_toDigits (n : Nat) : digitsValue (Nat.toDigits 10 n) = n := by
  rw [digitsValue_eq, Nat.ofDigitChars_ten_toDigits]

theorem isDigit_of_mem_toDigits {n : Nat} {c : Char} (h : c ∈ Nat.toDigits 10 n) :
    c.isDigit = true :=
  Nat.isDigit_of_mem_toDigits (by decide) (by decide) h

theorem isDigit_of_mem_zeros {count : Nat} {c : Char} (h : c ∈ List.replicate count '0') :
    c.isDigit = true := by
  rw [List.eq_of_mem_replicate h]
  rfl

theorem isDigit_of_mem_zero : ∀ c ∈ ['0'], c.isDigit = true :=
  List.forall_mem_singleton.mpr rfl

theorem head?_ne_minus_of_isDigit {text : List Char} (h : ∀ c ∈ text.head?, c.isDigit = true) :
    text.head? ≠ some '-' := by
  intro hhead
  exact absurd (h '-' (Option.mem_def.mpr hhead)) (by decide)

theorem eq_minus_of_mem_sign {p : Prop} [Decidable p] {c : Char}
    (h : c ∈ if p then ['-'] else []) : c = '-' := by
  split at h
  · exact List.mem_singleton.mp h
  · exact absurd h List.not_mem_nil

/-- A sign is told from what is behind it. -/
theorem signed_inj {p q : Prop} [Decidable p] [Decidable q] {first second : List Char}
    (hfirst : first.head? ≠ some '-') (hsecond : second.head? ≠ some '-')
    (h : (if p then ['-'] else []) ++ first = (if q then ['-'] else []) ++ second) :
    (p ↔ q) ∧ first = second := by
  by_cases hp : p <;> by_cases hq : q <;>
    simp only [hp, hq, if_true, if_false, List.nil_append, List.singleton_append] at h
  · exact ⟨iff_of_true hp hq, List.tail_eq_of_cons_eq h⟩
  · exact absurd (congrArg List.head? h.symm) hsecond
  · exact absurd (congrArg List.head? h) hfirst
  · exact ⟨iff_of_false hp hq, h⟩

/-- The number that digits make up when the last of them stands at place `k`. -/
def atPlace (digits : Nat) (k : Int) : ℚ :=
  (digits : ℚ) * (10 : ℚ) ^ k

theorem atPlace_shift (digits count : Nat) (k : Int) :
    atPlace (10 ^ count * digits) k = atPlace digits (k + count) := by
  rw [atPlace, atPlace, zpow_add₀ (by norm_num), zpow_natCast]
  push_cast
  ring

/-! ### Reading -/

/-- The number that decimal text writes: digits with or without a point, and an exponent. -/
def decimal? (text : List Char) : Option ℚ :=
  let whole := text.takeWhile Char.isDigit
  let behind := text.dropWhile Char.isDigit
  let (fraction, rest) :=
    match behind with
    | '.' :: more => (more.takeWhile Char.isDigit, more.dropWhile Char.isDigit)
    | _ => ([], behind)
  (exponentOf? rest).map fun exponent =>
    atPlace (digitsValue (whole ++ fraction)) (exponent - fraction.length)

section Reading

variable {whole fraction rest : List Char} {exponent : Int}

theorem decimal?_point (hwhole : ∀ c ∈ whole, c.isDigit = true)
    (hfraction : ∀ c ∈ fraction, c.isDigit = true) (hrest : ∀ c ∈ rest.head?, c.isDigit = false)
    (hexponent : exponentOf? rest = some exponent) :
    decimal? (whole ++ '.' :: (fraction ++ rest))
      = some (atPlace (digitsValue (whole ++ fraction)) (exponent - fraction.length)) := by
  have hpoint : ¬ '.'.isDigit = true := by decide
  have hrun : rest.takeWhile Char.isDigit = [] ∧ rest.dropWhile Char.isDigit = rest := by
    cases rest with
    | nil => exact ⟨rfl, rfl⟩
    | cons c rest =>
      have hc : ¬ c.isDigit = true := by simp [hrest c rfl]
      exact ⟨List.takeWhile_cons_of_neg hc, List.dropWhile_cons_of_neg hc⟩
  simp only [decimal?]
  rw [List.takeWhile_append_of_pos hwhole, List.dropWhile_append_of_pos hwhole,
    List.takeWhile_cons_of_neg hpoint, List.dropWhile_cons_of_neg hpoint, List.append_nil]
  simp only [List.takeWhile_append_of_pos hfraction, List.dropWhile_append_of_pos hfraction, hrun,
    List.append_nil, hexponent, Option.map_some]

theorem decimal?_plain (hwhole : ∀ c ∈ whole, c.isDigit = true)
    (hfraction : ∀ c ∈ fraction, c.isDigit = true) :
    decimal? (whole ++ '.' :: fraction)
      = some (atPlace (digitsValue (whole ++ fraction)) (-fraction.length)) := by
  have hend : ∀ c ∈ ([] : List Char).head?, c.isDigit = false := fun c hc => nomatch hc
  have hpoint := decimal?_point hwhole hfraction hend rfl
  rwa [List.append_nil, Int.zero_sub] at hpoint

theorem decimal?_exponent (hwhole : ∀ c ∈ whole, c.isDigit = true)
    (hexponent : exponentOf? ('e' :: rest) = some exponent) :
    decimal? (whole ++ 'e' :: rest) = some (atPlace (digitsValue whole) exponent) := by
  have hletter : ¬ 'e'.isDigit = true := by decide
  simp only [decimal?]
  rw [List.takeWhile_append_of_pos hwhole, List.dropWhile_append_of_pos hwhole,
    List.takeWhile_cons_of_neg hletter, List.dropWhile_cons_of_neg hletter, List.append_nil]
  simp [hexponent]

end Reading

theorem exponentOf?_written (exponent : Int) :
    exponentOf? ('e' :: (if exponent < 0 then '-' else '+') :: Nat.toDigits 10 exponent.natAbs)
      = some exponent := by
  have hdigits : (Nat.toDigits 10 exponent.natAbs).all Char.isDigit = true :=
    List.all_eq_true.mpr fun c hc => isDigit_of_mem_toDigits hc
  have hempty : (Nat.toDigits 10 exponent.natAbs).isEmpty = false := by
    simp
  rcases lt_or_ge exponent 0 with hneg | hpos
  · have hvalue : (exponent.natAbs : Int) = -exponent := by omega
    rw [if_pos hneg]
    simp [exponentOf?, hdigits, hempty, digitsValue_toDigits, hvalue, -Nat.cast_natAbs]
  · have hvalue : (exponent.natAbs : Int) = exponent := by omega
    rw [if_neg (not_lt.mpr hpos)]
    simp [exponentOf?, hdigits, hempty, digitsValue_toDigits, hvalue, -Nat.cast_natAbs]

/-! ### Layouts -/

/-- The characters of decimal text behind its first digits. -/
def isDecimalChar (c : Char) : Bool :=
  c.isDigit || c == '.' || c == 'e' || c == '+' || c == '-'

/-- Digits, and a point or an exponent behind them. -/
def IsDecimal (text : List Char) : Prop :=
  ∃ front mark back, text = front ++ mark :: back ∧ front ≠ [] ∧ (∀ c ∈ front, c.isDigit = true) ∧
    (mark = '.' ∨ mark = 'e') ∧ ∀ c ∈ back, isDecimalChar c = true

theorem isDecimalChar_of_isDigit {c : Char} (h : c.isDigit = true) : isDecimalChar c = true := by
  simp [isDecimalChar, h]

theorem isDecimalChar_exponent (exponent : Int) :
    ∀ c ∈ (if exponent < 0 then '-' else '+') :: Nat.toDigits 10 exponent.natAbs,
      isDecimalChar c = true := by
  intro c hc
  rcases List.mem_cons.mp hc with rfl | hc
  · split <;> rfl
  · exact isDecimalChar_of_isDigit (isDigit_of_mem_toDigits hc)

section Layouts

variable {digits : List Char} {k : Int}

theorem isDecimal_layoutDigits (hdigits : ∀ c ∈ digits, c.isDigit = true) (hne : digits ≠ []) :
    IsDecimal (layoutDigits digits k) := by
  simp only [layoutDigits]
  split
  · refine ⟨digits ++ List.replicate k.toNat '0', '.', ['0'], by simp, by simp [hne], ?_, Or.inl rfl,
      fun c hc => isDecimalChar_of_isDigit (isDigit_of_mem_zero c hc)⟩
    intro c hc
    rcases List.mem_append.mp hc with hc | hc
    · exact hdigits c hc
    · exact isDigit_of_mem_zeros hc
  split
  · next hdivided =>
    refine ⟨_, '.', _, rfl, ?_, fun c hc => hdigits c (List.mem_of_mem_take hc), Or.inl rfl,
      fun c hc => isDecimalChar_of_isDigit (hdigits c (List.mem_of_mem_drop hc))⟩
    rw [ne_eq, List.take_eq_nil_iff]
    simp only [hne, or_false]
    omega
  split
  · refine ⟨['0'], '.', _, rfl, by simp, isDigit_of_mem_zero, Or.inl rfl, fun c hc => ?_⟩
    refine isDecimalChar_of_isDigit ?_
    rcases List.mem_append.mp hc with hc | hc
    · exact isDigit_of_mem_zeros hc
    · exact hdigits c hc
  · obtain ⟨d, more, rfl⟩ := List.exists_cons_of_ne_nil hne
    have hd : ∀ c ∈ [d], c.isDigit = true := fun c hc =>
      hdigits c (List.mem_cons.mpr (Or.inl (List.mem_singleton.mp hc)))
    cases more with
    | nil => exact ⟨[d], 'e', _, rfl, by simp, hd, Or.inr rfl, isDecimalChar_exponent _⟩
    | cons e more =>
      refine ⟨[d], '.', _, rfl, by simp, hd, Or.inl rfl, fun c hc => ?_⟩
      rcases List.mem_append.mp hc with hc | hc
      · exact isDecimalChar_of_isDigit (hdigits c (List.mem_cons_of_mem d hc))
      · rcases List.mem_cons.mp hc with rfl | hc
        · rfl
        · exact isDecimalChar_exponent _ c hc

theorem decimal?_whole (hdigits : ∀ c ∈ digits, c.isDigit = true) (hk : 0 ≤ k) :
    decimal? (digits ++ List.replicate k.toNat '0' ++ ['.', '0'])
      = some (atPlace (digitsValue digits) k) := by
  have hwhole : ∀ c ∈ digits ++ List.replicate k.toNat '0', c.isDigit = true := by
    intro c hc
    rcases List.mem_append.mp hc with hc | hc
    · exact hdigits c hc
    · exact isDigit_of_mem_zeros hc
  have hvalue : digitsValue (digits ++ List.replicate k.toNat '0' ++ ['0'])
      = 10 ^ (k.toNat + 1) * digitsValue digits := by
    rw [List.append_assoc, ← List.replicate_succ', digitsValue_append, digitsValue_zeros,
      List.length_replicate, Nat.add_zero]
  refine (decimal?_plain hwhole isDigit_of_mem_zero).trans ?_
  rw [hvalue, atPlace_shift]
  congr 2
  rw [List.length_singleton]
  omega

theorem decimal?_divided (hdigits : ∀ c ∈ digits, c.isDigit = true) {count : Nat}
    (hcount : count ≤ digits.length) :
    decimal? (digits.take count ++ '.' :: digits.drop count)
      = some (atPlace (digitsValue digits) (count - digits.length)) := by
  have hwhole : ∀ c ∈ digits.take count, c.isDigit = true := fun c hc =>
    hdigits c (List.mem_of_mem_take hc)
  have hfraction : ∀ c ∈ digits.drop count, c.isDigit = true := fun c hc =>
    hdigits c (List.mem_of_mem_drop hc)
  rw [decimal?_plain hwhole hfraction, List.take_append_drop, List.length_drop]
  congr 2
  omega

theorem decimal?_small (hdigits : ∀ c ∈ digits, c.isDigit = true) (count : Nat) :
    decimal? ('0' :: '.' :: (List.replicate count '0' ++ digits))
      = some (atPlace (digitsValue digits) (-(count + digits.length))) := by
  have hfraction : ∀ c ∈ List.replicate count '0' ++ digits, c.isDigit = true := by
    intro c hc
    rcases List.mem_append.mp hc with hc | hc
    · exact isDigit_of_mem_zeros hc
    · exact hdigits c hc
  have hvalue : digitsValue (['0'] ++ (List.replicate count '0' ++ digits)) = digitsValue digits := by
    rw [← List.append_assoc, digitsValue_append]
    have hzeros := digitsValue_zeros (count + 1)
    rw [List.replicate_succ] at hzeros
    rw [List.singleton_append, hzeros, Nat.mul_zero, Nat.zero_add]
  refine (decimal?_plain isDigit_of_mem_zero hfraction).trans ?_
  rw [hvalue, List.length_append, List.length_replicate, Nat.cast_add]

/-- However digits are laid out, the text writes the number that they make up at their place. -/
theorem decimal?_layoutDigits (hdigits : ∀ c ∈ digits, c.isDigit = true) (hne : digits ≠ []) :
    decimal? (layoutDigits digits k) = some (atPlace (digitsValue digits) k) := by
  obtain ⟨d, more, rfl⟩ := List.exists_cons_of_ne_nil hne
  have hlength : (d :: more).length = more.length + 1 := rfl
  simp only [layoutDigits]
  split
  · next hwhole => exact decimal?_whole hdigits hwhole.1
  split
  · next hdivided =>
    rw [decimal?_divided hdigits (by omega)]
    congr 2
    omega
  split
  · next hsmall =>
    rw [decimal?_small hdigits]
    congr 2
    omega
  · have hd : ∀ c ∈ [d], c.isDigit = true := fun c hc =>
      hdigits c (List.mem_cons.mpr (Or.inl (List.mem_singleton.mp hc)))
    cases more with
    | nil =>
      refine (decimal?_exponent hd (exponentOf?_written _)).trans ?_
      congr 2
      simp
    | cons e more =>
      have hmore : ∀ c ∈ e :: more, c.isDigit = true := fun c hc =>
        hdigits c (List.mem_cons_of_mem d hc)
      refine (decimal?_point hd hmore ?_ (exponentOf?_written _)).trans ?_
      · rintro c ⟨⟩
        rfl
      · congr 2
        omega

end Layouts

end SiteTree.Double
