import SiteTree.Proofs.Number.Decimal
import Mathlib.Order.Monotone.Basic
import Mathlib.Tactic.Linarith
import Mathlib.Tactic.Positivity

/-!
# The numbers that read as a double

The numbers nearest to a double fill a span. The spans of neighbouring magnitudes meet at one end,
and that end belongs to one of the two at most.

* `Span.holds_iff` — which digits read as the double of a span.
* `eq_of_contains` — a number reads as one magnitude only.
-/

namespace SiteTree.Double

/-! ### Spans -/

namespace Span

def lowEnd (span : Span) : ℚ :=
  span.low / span.den

def highEnd (span : Span) : ℚ :=
  span.high / span.den

/-- Is a number between the two ends, or one of them if they belong to the span? -/
def Contains (span : Span) (number : ℚ) : Prop :=
  if span.closed then span.lowEnd ≤ number ∧ number ≤ span.highEnd
  else span.lowEnd < number ∧ number < span.highEnd

variable {span : Span} {number : ℚ}

theorem Contains.bounds (h : span.Contains number) :
    span.lowEnd ≤ number ∧ number ≤ span.highEnd := by
  rw [Contains] at h
  split at h
  · exact h
  · exact ⟨h.1.le, h.2.le⟩

/-- An end of a span is in it only if the ends belong to the span. -/
theorem Contains.closed_of_end (h : span.Contains number)
    (hend : number = span.lowEnd ∨ number = span.highEnd) : span.closed = true := by
  by_contra hopen
  rw [Contains, if_neg hopen] at h
  rcases hend with rfl | rfl
  · exact lt_irrefl _ h.1
  · exact lt_irrefl _ h.2

theorem cast_tenTo (n : Nat) : (tenTo n : ℚ) = 10 ^ n := by
  rw [tenTo]
  exact Nat.cast_pow 10 n

/-- Digits are compared with the ends of a span as the numbers that they make up. -/
theorem holds_iff (hden : 0 < span.den) (digits : Nat) (k : Int) :
    span.holds digits k = true ↔ span.Contains (atPlace digits k) := by
  have hden' : (0 : ℚ) < span.den := by exact_mod_cast hden
  -- Both sides of a comparison are multiplied by the denominator and by a power of ten.
  obtain ⟨factor, hfactor, hscale, hpoint⟩ : ∃ factor : ℚ, 0 < factor ∧
      (∀ n : Nat, ((if 0 ≤ k then n else n * tenTo (-k).toNat : Nat) : ℚ) = n * factor) ∧
      ((if 0 ≤ k then digits * tenTo k.toNat * span.den else digits * span.den : Nat) : ℚ)
        = atPlace digits k * span.den * factor := by
    rcases lt_or_ge k 0 with hneg | hpos
    · refine ⟨10 ^ (-k).toNat, by positivity, fun n => ?_, ?_⟩
      · rw [if_neg (not_le.mpr hneg), Nat.cast_mul, cast_tenTo]
      · have hpower : (10 : ℚ) ^ k * 10 ^ (-k).toNat = 1 := by
          rw [← zpow_natCast, ← zpow_add₀ (by norm_num), Int.toNat_of_nonneg (by omega),
            add_neg_cancel, zpow_zero]
        rw [if_neg (not_le.mpr hneg), Nat.cast_mul, atPlace, mul_right_comm, mul_assoc _ _ (10 ^ _),
          hpower, mul_one]
    · refine ⟨1, one_pos, fun n => ?_, ?_⟩
      · rw [if_pos hpos, mul_one]
      · have hpower : (10 : ℚ) ^ k = 10 ^ k.toNat := by
          rw [← zpow_natCast, Int.toNat_of_nonneg hpos]
        rw [if_pos hpos, Nat.cast_mul, Nat.cast_mul, cast_tenTo, atPlace, hpower, mul_one]
  have hle (n : Nat) : (if 0 ≤ k then n else n * tenTo (-k).toNat)
        ≤ (if 0 ≤ k then digits * tenTo k.toNat * span.den else digits * span.den)
      ↔ (n : ℚ) / span.den ≤ atPlace digits k := by
    rw [← Nat.cast_le (α := ℚ), hscale, hpoint, mul_le_mul_iff_left₀ hfactor, div_le_iff₀ hden']
  have hge (n : Nat) : (if 0 ≤ k then digits * tenTo k.toNat * span.den else digits * span.den)
        ≤ (if 0 ≤ k then n else n * tenTo (-k).toNat)
      ↔ atPlace digits k ≤ (n : ℚ) / span.den := by
    rw [← Nat.cast_le (α := ℚ), hscale, hpoint, mul_le_mul_iff_left₀ hfactor, le_div_iff₀ hden']
  rw [holds, Contains, lowEnd, highEnd]
  split
  · rw [Bool.and_eq_true, decide_eq_true_eq, decide_eq_true_eq, hle, hge]
  · rw [Bool.and_eq_true, decide_eq_true_eq, decide_eq_true_eq, ← not_le, ← not_le, hle, hge,
      not_le, not_le]

end Span

/-! ### The span of a magnitude -/

/-- The distance of the lower end from a magnitude, in quarters of its last place. -/
def quartersBelow (magnitude : Nat) : Nat :=
  if (parts magnitude).1 = 1 <<< 52 ∧ 1 < magnitude >>> 52 then 1 else 2

/-- So many quarters of the last place of a magnitude. -/
def quarters (magnitude count : Nat) : ℚ :=
  (count : ℚ) / 4 * 2 ^ (parts magnitude).2

theorem quarters_lt {magnitude first second : Nat} (h : first < second) :
    quarters magnitude first < quarters magnitude second := by
  have hcast : (first : ℚ) < second := by exact_mod_cast h
  have hpower : (0 : ℚ) < 2 ^ (parts magnitude).2 := zpow_pos (by norm_num) _
  exact mul_lt_mul_of_pos_right (by linarith) hpower

theorem den_spanOf_pos (magnitude : Nat) : 0 < (spanOf magnitude).den := by
  simp only [spanOf]
  split
  · decide
  · rw [Nat.shiftLeft_eq]
    positivity

theorem spanOf_ends (magnitude : Nat) :
    (spanOf magnitude).lowEnd
        = quarters magnitude (4 * (parts magnitude).1 - quartersBelow magnitude) ∧
      ((spanOf magnitude).value : ℚ) / (spanOf magnitude).den
        = quarters magnitude (4 * (parts magnitude).1) ∧
      (spanOf magnitude).highEnd = quarters magnitude (4 * (parts magnitude).1 + 2) := by
  have hscale (n : Nat) :
      ((if 0 ≤ (parts magnitude).2 then n <<< (parts magnitude).2.toNat else n : Nat) : ℚ)
          / (if 0 ≤ (parts magnitude).2 then 4 else 4 <<< (-(parts magnitude).2).toNat : Nat)
        = quarters magnitude n := by
    rw [quarters]
    generalize (parts magnitude).2 = q
    rcases lt_or_ge q 0 with hneg | hpos
    · have hpower : (2 : ℚ) ^ q = (2 ^ (-q).toNat)⁻¹ := by
        rw [← zpow_natCast, Int.toNat_of_nonneg (by omega), zpow_neg, inv_inv]
      rw [if_neg (not_le.mpr hneg), if_neg (not_le.mpr hneg), hpower, Nat.shiftLeft_eq]
      push_cast
      field_simp
    · have hpower : (2 : ℚ) ^ q = 2 ^ q.toNat := by
        rw [← zpow_natCast, Int.toNat_of_nonneg hpos]
      rw [if_pos hpos, if_pos hpos, hpower, Nat.shiftLeft_eq]
      push_cast
      ring
  exact ⟨hscale _, hscale _, hscale _⟩

/-- The integer and the exponent of a magnitude, by its two bit fields. -/
theorem parts_eq {exponent fraction : Nat} (h : fraction < 2 ^ 52) :
    parts (exponent * 2 ^ 52 + fraction)
      = if exponent = 0 then (fraction, -1074) else (2 ^ 52 + fraction, (exponent : Int) - 1075) := by
  have hexponent : (exponent * 2 ^ 52 + fraction) >>> 52 = exponent := by
    rw [Nat.shiftRight_eq_div_pow]
    omega
  have hfraction : (exponent * 2 ^ 52 + fraction) % 2 ^ 52 = fraction := by
    omega
  simp only [parts, Nat.one_shiftLeft, hexponent, hfraction]

theorem quartersBelow_eq {exponent fraction : Nat} (h : fraction < 2 ^ 52) :
    quartersBelow (exponent * 2 ^ 52 + fraction)
      = if fraction = 0 ∧ 1 < exponent then 1 else 2 := by
  have hexponent : (exponent * 2 ^ 52 + fraction) >>> 52 = exponent := by
    rw [Nat.shiftRight_eq_div_pow]
    omega
  rw [quartersBelow, hexponent, parts_eq h, Nat.one_shiftLeft]
  refine if_congr (and_congr_left fun hlarge => ?_) rfl rfl
  rw [if_neg (by omega)]
  omega

/-- The magnitude is odd where the integer is. -/
theorem closed_spanOf (magnitude : Nat) :
    (spanOf magnitude).closed = decide (magnitude % 2 = 0) := by
  have hparity : (parts magnitude).1 % 2 = magnitude % 2 := by
    simp only [parts, Nat.one_shiftLeft]
    split
    · exact Nat.mod_mod_of_dvd _ ⟨2 ^ 51, by norm_num⟩
    · have := Nat.mod_mod_of_dvd magnitude (⟨2 ^ 51, by norm_num⟩ : 2 ∣ 2 ^ 52)
      omega
  simp only [spanOf, hparity]

/-- Where one span ends, the next one begins. -/
theorem highEnd_spanOf (magnitude : Nat) :
    (spanOf magnitude).highEnd = (spanOf (magnitude + 1)).lowEnd := by
  rw [(spanOf_ends magnitude).2.2, (spanOf_ends (magnitude + 1)).1]
  obtain ⟨exponent, fraction, hfraction, rfl⟩ :
      ∃ exponent fraction, fraction < 2 ^ 52 ∧ magnitude = exponent * 2 ^ 52 + fraction :=
    ⟨magnitude / 2 ^ 52, magnitude % 2 ^ 52, by omega, by omega⟩
  rcases Nat.eq_or_lt_of_le hfraction with hlast | hmore
  · -- The next magnitude is a power of two, with places twice as large unless it is the first one.
    have hnext : exponent * 2 ^ 52 + fraction + 1 = (exponent + 1) * 2 ^ 52 + 0 := by omega
    rw [hnext, quartersBelow_eq (by norm_num), quarters, quarters, parts_eq hfraction,
      parts_eq (by norm_num), if_neg (Nat.succ_ne_zero exponent)]
    obtain rfl : fraction = 2 ^ 52 - 1 := by omega
    rcases Nat.eq_zero_or_pos exponent with rfl | hpos
    · norm_num
    · have hpower : (2 : ℚ) ^ ((exponent + 1 : Nat) - 1075 : Int)
          = 2 * 2 ^ ((exponent : Int) - 1075) := by
        rw [← zpow_one_add₀ (by norm_num)]
        congr 1
        push_cast
        ring
      rw [if_neg hpos.ne', if_pos ⟨rfl, by omega⟩, hpower]
      norm_num
      ring
  · have hnext : exponent * 2 ^ 52 + fraction + 1 = exponent * 2 ^ 52 + (fraction + 1) := by omega
    rw [hnext, quartersBelow_eq hmore, if_neg (by omega), quarters, quarters, parts_eq hfraction,
      parts_eq hmore]
    split
    · congr 3
    · congr 3

theorem lowEnd_lt_highEnd (magnitude : Nat) :
    (spanOf magnitude).lowEnd < (spanOf magnitude).highEnd := by
  obtain ⟨hlow, -, hhigh⟩ := spanOf_ends magnitude
  rw [hlow, hhigh]
  exact quarters_lt (by omega)

theorem strictMono_lowEnd : StrictMono fun magnitude => (spanOf magnitude).lowEnd :=
  strictMono_nat_of_lt_succ fun magnitude =>
    (lowEnd_lt_highEnd magnitude).trans_eq (highEnd_spanOf magnitude)

/-- A number reads as one magnitude only. -/
theorem eq_of_contains {first second : Nat} {number : ℚ} (hfirst : (spanOf first).Contains number)
    (hsecond : (spanOf second).Contains number) : first = second := by
  wlog hle : first ≤ second generalizing first second
  · exact (this hsecond hfirst (by omega)).symm
  rcases Nat.eq_or_lt_of_le hle with heq | hlt
  · exact heq
  -- The number is not above the first span and not below the second one.
  have hmeet : (spanOf (first + 1)).lowEnd ≤ (spanOf second).lowEnd :=
    strictMono_lowEnd.monotone hlt
  have hhigh : number ≤ (spanOf (first + 1)).lowEnd :=
    highEnd_spanOf first ▸ hfirst.bounds.2
  have hlow := hsecond.bounds.1
  have heq : (spanOf (first + 1)).lowEnd = (spanOf second).lowEnd := by linarith
  obtain rfl : first + 1 = second := strictMono_lowEnd.injective heq
  have hend : number = (spanOf (first + 1)).lowEnd := le_antisymm hhigh hlow
  have heven := hfirst.closed_of_end (Or.inr (hend.trans (highEnd_spanOf first).symm))
  have heven' := hsecond.closed_of_end (Or.inl hend)
  rw [closed_spanOf, decide_eq_true_eq] at heven heven'
  omega

end SiteTree.Double
