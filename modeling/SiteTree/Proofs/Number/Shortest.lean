import SiteTree.Proofs.Number.Span
import Mathlib.Algebra.Order.AbsoluteValue.Basic

/-!
# The decimal text of doubles

Seventeen digits are enough for every double, so a search of eighteen places always finds digits that
read back. That makes the text of a double its own.

* `Span.digitsAt?_isSome` — digits that reach seventeen places down are near enough.
* `text_injective` — different doubles have different texts.
-/

namespace SiteTree.Double

/-! ### Rounding -/

/-- A rounded quotient is at most half away from the exact one. -/
theorem roundDiv_bounds (num : Nat) {den : Nat} (h : 0 < den) :
    2 * num ≤ 2 * (roundDiv num den * den) + den ∧
      2 * (roundDiv num den * den) ≤ 2 * num + den := by
  have hdivide : num / den * den + num % den = num := Nat.div_add_mod' num den
  have hrest : num % den < den := Nat.mod_lt _ h
  simp only [roundDiv]
  split
  · constructor <;> omega
  · rw [Nat.add_mul, Nat.one_mul]
    constructor <;> omega

namespace Span

variable {span : Span} {k : Int}

/-- The number that a span is about. -/
def target (span : Span) : ℚ :=
  span.value / span.den

theorem contains_of_between {number : ℚ} (hlow : span.lowEnd < number)
    (hhigh : number < span.highEnd) : span.Contains number := by
  rw [Contains]
  split
  · exact ⟨hlow.le, hhigh.le⟩
  · exact ⟨hlow, hhigh⟩

/-! ### Digits at a place -/

theorem holds_of_digitsAt? {digits : Nat} (h : span.digitsAt? k = some digits) :
    0 < digits ∧ span.holds digits k = true := by
  unfold digitsAt? at h
  extract_lets num den down nearest other at h
  split at h
  · next hnearest => exact Option.some_inj.mp h ▸ hnearest
  split at h
  · next hother => exact Option.some_inj.mp h ▸ hother
  · cases h

/-- Digits at a place are found if the number is large, and its span wide, for that place. -/
theorem digitsAt?_isSome (hden : 0 < span.den) (hlarge : (10 : ℚ) ^ k ≤ span.target)
    (hlow : span.lowEnd + 10 ^ k / 2 < span.target) (hhigh : span.target + 10 ^ k / 2 < span.highEnd) :
    (span.digitsAt? k).isSome = true := by
  have hden' : (0 : ℚ) < span.den := by exact_mod_cast hden
  have hunit : (0 : ℚ) < 10 ^ k := zpow_pos (by norm_num) k
  unfold digitsAt?
  extract_lets num den down nearest other
  have hquotient : (num : ℚ) * 10 ^ k = span.target * den ∧ 0 < den := by
    rcases lt_or_ge k 0 with hneg | hnonneg
    · have hpower : (10 : ℚ) ^ (-k).toNat * 10 ^ k = 1 := by
        rw [← zpow_natCast, ← zpow_add₀ (by norm_num), Int.toNat_of_nonneg (by omega),
          neg_add_cancel, zpow_zero]
      simp only [num, den, if_neg (not_le.mpr hneg), Nat.cast_mul, cast_tenTo]
      rw [mul_assoc, hpower, target, div_mul_cancel₀ _ hden'.ne', mul_one]
      exact ⟨rfl, hden⟩
    · have hpower : (10 : ℚ) ^ k = 10 ^ k.toNat := by
        rw [← zpow_natCast, Int.toNat_of_nonneg hnonneg]
      simp only [num, den, if_pos hnonneg, Nat.cast_mul, cast_tenTo]
      rw [hpower, target, ← mul_assoc, div_mul_cancel₀ _ hden'.ne']
      exact ⟨rfl, Nat.mul_pos hden (Nat.pow_pos (by decide))⟩
  obtain ⟨hquotient, hpositive⟩ := hquotient
  have hpositive' : (0 : ℚ) < den := by exact_mod_cast hpositive
  have hnearest : |atPlace nearest k - span.target| ≤ 10 ^ k / 2 := by
    obtain ⟨hup, hdown⟩ := roundDiv_bounds num hpositive
    have hup' : 2 * (num : ℚ) ≤ 2 * (nearest * den) + den := by exact_mod_cast hup
    have hdown' : 2 * (nearest * den) ≤ 2 * (num : ℚ) + den := by exact_mod_cast hdown
    have hup'' := mul_le_mul_of_nonneg_right hup' hunit.le
    have hdown'' := mul_le_mul_of_nonneg_right hdown' hunit.le
    rw [atPlace, abs_le]
    constructor
    · refine le_of_mul_le_mul_right ?_ hpositive'
      linarith
    · refine le_of_mul_le_mul_right ?_ hpositive'
      linarith
  have hbounds := abs_le.mp hnearest
  have hpos : 0 < nearest := by
    rw [Nat.pos_iff_ne_zero]
    intro hzero
    rw [hzero, atPlace, Nat.cast_zero, zero_mul] at hbounds
    linarith
  have hholds : span.holds nearest k = true := by
    rw [holds_iff hden]
    exact contains_of_between (by linarith) (by linarith)
  rw [if_pos ⟨hpos, hholds⟩]
  rfl

/-! ### The search -/

/-- The first digit of the number stands no lower than at the place where the search begins. -/
theorem leading_le (hden : 0 < span.den) (hvalue : 0 < span.value) :
    (10 : ℚ) ^ span.leading ≤ span.target := by
  have hden' : (0 : ℚ) < span.den := by exact_mod_cast hden
  rw [target, le_div_iff₀ hden']
  unfold leading
  extract_lets whole inverse
  split
  · next hwhole =>
    obtain ⟨count, hcount⟩ : ∃ count, (Nat.toDigits 10 whole).length = count + 1 :=
      Nat.exists_eq_add_one.mpr Nat.length_toDigits_pos
    have hpower : 10 ^ count ≤ whole := by
      rcases Nat.eq_zero_or_pos count with rfl | hpos
      · exact hwhole
      · by_contra hlt
        have := (Nat.length_toDigits_le_iff (by decide) hpos).mpr (not_le.mp hlt)
        omega
    have hbound : 10 ^ count * span.den ≤ span.value :=
      (Nat.mul_le_mul_right _ hpower).trans (Nat.div_mul_le_self _ _)
    rw [hcount, Nat.cast_add, Nat.cast_one, add_sub_cancel_right, zpow_natCast]
    exact_mod_cast hbound
  · have hbelow : inverse - 1 < 10 ^ (Nat.toDigits 10 (inverse - 1)).length :=
      (Nat.length_toDigits_le_iff (by decide) Nat.length_toDigits_pos).mp le_rfl
    have hceil : span.den ≤ span.value * inverse := by
      have hdivide : span.value * inverse + (span.den + span.value - 1) % span.value
          = span.den + span.value - 1 := Nat.div_add_mod _ _
      have hrest := Nat.mod_lt (span.den + span.value - 1) hvalue
      omega
    have hbound : span.den ≤ span.value * 10 ^ (Nat.toDigits 10 (inverse - 1)).length :=
      hceil.trans (Nat.mul_le_mul_left _ (by omega))
    have hbound' : (span.den : ℚ) ≤ span.value * 10 ^ (Nat.toDigits 10 (inverse - 1)).length := by
      exact_mod_cast hbound
    rw [Int.negOfNat_eq, Int.ofNat_eq_natCast, zpow_neg, zpow_natCast,
      inv_mul_le_iff₀ (by positivity), mul_comm]
    exact hbound'

/-- The search finds digits that read back if there are some at one of the places it tries. -/
theorem holds_shortest {count offset : Nat} (hoffset : offset < count)
    (h : (span.digitsAt? (k - offset)).isSome = true) :
    0 < (span.shortest count k).1 ∧
      span.holds (span.shortest count k).1 (span.shortest count k).2 = true := by
  induction count generalizing offset k with
  | zero => omega
  | succ count ih =>
    rw [shortest]
    cases hdigits : span.digitsAt? k with
    | some digits => exact holds_of_digitsAt? hdigits
    | none =>
      cases offset with
      | zero =>
        rw [Nat.cast_zero, Int.sub_zero, hdigits] at h
        cases h
      | succ offset =>
        have hnext : (span.digitsAt? (k - 1 - offset)).isSome = true := by
          rwa [Int.sub_sub, Int.add_comm 1, ← Nat.cast_succ]
        exact ih (by omega) hnext

end Span

/-! ### Spans of doubles -/

theorem parts_bounds {magnitude : Nat} (h : 0 < magnitude) :
    0 < (parts magnitude).1 ∧ (parts magnitude).1 < 2 ^ 53 := by
  simp only [parts, Nat.one_shiftLeft, Nat.shiftRight_eq_div_pow]
  split <;> constructor <;> omega

/-- Seventeen digits tell a double from its neighbours. -/
theorem digitsAt?_spanOf {magnitude : Nat} (h : 0 < magnitude) {k : Int}
    (hk : (10 : ℚ) ^ (k + 16) ≤ (spanOf magnitude).target) :
    ((spanOf magnitude).digitsAt? k).isSome = true := by
  obtain ⟨hpos, hlt⟩ := parts_bounds h
  obtain ⟨hlow, htarget, hhigh⟩ := spanOf_ends magnitude
  have hplace : (0 : ℚ) < 2 ^ (parts magnitude).2 := zpow_pos (by norm_num) _
  -- At a power of two the span reaches down half as far, but there the integer is small enough.
  have hwide : 4 * (parts magnitude).1 < 2 * 10 ^ 16 * quartersBelow magnitude ∧
      quartersBelow magnitude ≤ 2 := by
    rw [quartersBelow, Nat.one_shiftLeft]
    split
    · next hpower => omega
    · omega
  generalize (parts magnitude).1 = m at *
  generalize quartersBelow magnitude = below at *
  have hdifference : ((4 * m - below : Nat) : ℚ) = 4 * m - below := by
    rw [Nat.cast_sub (by omega), Nat.cast_mul, Nat.cast_ofNat]
  have hwide' : 4 * (m : ℚ) * 2 ^ (parts magnitude).2
      < 2 * 10 ^ 16 * below * 2 ^ (parts magnitude).2 := by
    refine mul_lt_mul_of_pos_right ?_ hplace
    exact_mod_cast hwide.1
  have hnarrow : (below : ℚ) * 2 ^ (parts magnitude).2 ≤ 2 * 2 ^ (parts magnitude).2 := by
    refine mul_le_mul_of_nonneg_right ?_ hplace.le
    exact_mod_cast hwide.2
  have hunit : (0 : ℚ) < 10 ^ k := zpow_pos (by norm_num) k
  rw [zpow_add₀ (by norm_num)] at hk
  rw [quarters] at hlow htarget hhigh
  rw [hdifference] at hlow
  push_cast at htarget hhigh
  rw [Span.target, htarget] at hk
  refine Span.digitsAt?_isSome (den_spanOf_pos magnitude) ?_ ?_ ?_
  · rw [Span.target, htarget]
    linarith
  · rw [Span.target, htarget, hlow]
    linarith
  · rw [Span.target, htarget, hhigh]
    linarith

theorem atPlace_dropZeros (fuel digits : Nat) (k : Int) :
    atPlace (dropZeros fuel digits k).1 (dropZeros fuel digits k).2 = atPlace digits k := by
  induction fuel generalizing digits k with
  | zero => rfl
  | succ fuel ih =>
    rw [dropZeros]
    split
    · next hzero =>
      have hshift := atPlace_shift (digits / 10) 1 k
      rw [pow_one, Nat.mul_div_cancel' (Nat.dvd_of_mod_eq_zero hzero.1), Nat.cast_one] at hshift
      rw [ih, hshift]
    · rfl

/-- The digits that a double is written with read back as its magnitude. -/
theorem exists_digits {magnitude : Nat} (h : 0 < magnitude) : ∃ digits k,
    dropZeros 18 ((spanOf magnitude).shortest 18 (spanOf magnitude).leading).1
        ((spanOf magnitude).shortest 18 (spanOf magnitude).leading).2 = (digits, k) ∧
      (spanOf magnitude).Contains (atPlace digits k) := by
  have hden := den_spanOf_pos magnitude
  have hvalue : 0 < (spanOf magnitude).value := by
    have hpos := (parts_bounds h).1
    simp only [spanOf]
    split
    · rw [Nat.shiftLeft_eq]
      positivity
    · omega
  have hleading := Span.leading_le hden hvalue
  have hplace : (spanOf magnitude).leading - (16 : Nat) + 16 = (spanOf magnitude).leading := by
    push_cast
    exact sub_add_cancel _ _
  have hfound := digitsAt?_spanOf h (k := (spanOf magnitude).leading - (16 : Nat)) (by rwa [hplace])
  have hholds := (Span.holds_iff hden _ _).mp (Span.holds_shortest (by decide : 16 < 18) hfound).2
  rw [← atPlace_dropZeros 18] at hholds
  exact ⟨_, _, Prod.mk.eta.symm, hholds⟩

/-! ### Texts -/

/-- The text of a double is a sign and decimal text that reads as its magnitude. -/
theorem exists_text_eq (d : Double) : ∃ body number,
    d.text = (if d.isNegative then ['-'] else []) ++ body ∧ IsDecimal body ∧
      decimal? body = some number ∧ (spanOf d.magnitude).Contains number := by
  rcases Nat.eq_zero_or_pos d.magnitude with hzero | hpos
  · refine ⟨['0', '.', '0'], atPlace 0 (-1), ?_, ?_, ?_, ?_⟩
    · simp only [text]
      rw [if_pos hzero]
    · exact ⟨['0'], '.', ['0'], rfl, by simp, isDigit_of_mem_zero, Or.inl rfl,
        fun c hc => isDecimalChar_of_isDigit (isDigit_of_mem_zero c hc)⟩
    · exact decimal?_plain isDigit_of_mem_zero isDigit_of_mem_zero
    · obtain ⟨hlow, -, hhigh⟩ := spanOf_ends 0
      have hclosed : (spanOf 0).closed = true := rfl
      rw [hzero, Span.Contains, if_pos hclosed, hlow, hhigh, quarters, quarters, atPlace]
      norm_num [parts]
  · obtain ⟨digits, k, hdigits, hcontains⟩ := exists_digits hpos
    have hmem : ∀ c ∈ Nat.toDigits 10 digits, c.isDigit = true := fun c hc =>
      isDigit_of_mem_toDigits hc
    refine ⟨layoutDigits (Nat.toDigits 10 digits) k, atPlace digits k, ?_,
      isDecimal_layoutDigits hmem Nat.toDigits_ne_nil, ?_, hcontains⟩
    · simp only [text]
      rw [if_neg hpos.ne', hdigits]
    · rw [decimal?_layoutDigits hmem Nat.toDigits_ne_nil, digitsValue_toDigits]

theorem IsDecimal.head?_ne_minus {body : List Char} (h : IsDecimal body) : body.head? ≠ some '-' := by
  obtain ⟨front, mark, back, rfl, hne, hdigits, -⟩ := h
  obtain ⟨d, front, rfl⟩ := List.exists_cons_of_ne_nil hne
  refine head?_ne_minus_of_isDigit fun c hc => ?_
  obtain rfl : d = c := Option.some_inj.mp hc
  exact hdigits d List.mem_cons_self

theorem eq_of_magnitude {first second : Double} (hsign : first.isNegative = second.isNegative)
    (hmagnitude : first.magnitude = second.magnitude) : first = second := by
  obtain ⟨first⟩ := first
  obtain ⟨second⟩ := second
  have hfirst := first.toNat_lt
  have hsecond := second.toNat_lt
  simp only [isNegative, magnitude, Nat.one_shiftLeft, decide_eq_decide] at hsign hmagnitude
  congr 1
  exact UInt64.toNat_inj.mp (by omega)

/-- Different doubles have different texts. -/
theorem text_injective : Function.Injective text := by
  intro first second htext
  obtain ⟨body, number, hfirst, hbody, hnumber, hcontains⟩ := exists_text_eq first
  obtain ⟨body', number', hsecond, hbody', hnumber', hcontains'⟩ := exists_text_eq second
  rw [hfirst, hsecond] at htext
  obtain ⟨hsign, rfl⟩ := signed_inj hbody.head?_ne_minus hbody'.head?_ne_minus htext
  obtain rfl : number = number' := Option.some_inj.mp (hnumber.symm.trans hnumber')
  exact eq_of_magnitude (Bool.eq_iff_iff.mpr hsign) (eq_of_contains hcontains hcontains')

end SiteTree.Double
