import Mathlib.Order.Monotone.Basic
import Reckon.Number.Numeral
import Reckon.Proofs.Number.Bits

/-!
# Rounding is correct

`Format.nearest` cuts a quotient to the width of a significand and never looks at the numbers next to
it. That it finds the nearest one all the same is proved here: the cut leaves it with the two codes
on either side of the quotient (`nearest_brackets`), and codes are worth more the greater they are
(`units_lt_units`), so every other code is further away.

`IsNearest` says what correct rounding is. Infinity takes part in it as the magnitude that would
follow the greatest finite one, which is how the standard has it: what lies half a step or more
beyond the greatest finite magnitude is too large (`IsNearest.eq_infinity_iff`). Only one code is
the nearest (`IsNearest.unique`), a tie being decided by the last bit, which two neighbours do not
share.

So a decimal is rounded to one number of double precision, the correct one (`roundsTo_iff`). The
reader of numerals with exponents leaves out the powers of ten that no number can have, and comes to
the same number (`ofScaled_eq_ofDecimal`).
-/

namespace Reckon.Number

-- Powers of naturals are the ones of core, whatever other powers are in scope.
attribute [local instance (high)] instPowNat

namespace Format

variable {f : Format} {num den : Nat}

/-! ## What is asked for -/

/-- How far what a code is worth is from a quotient, in units over the denominator. -/
def distance (f : Format) (num den code : Nat) : Nat :=
  (f.units code * den - num) + (num - f.units code * den)

/-- A code is the nearest to a quotient of units, and an even one of two that are as near as each
other. Infinity counts as the next magnitude after the greatest finite one. -/
structure IsNearest (f : Format) (num den code : Nat) : Prop where
  le_infinity : code ≤ f.infinity
  nearest : ∀ c ≤ f.infinity, f.distance num den code ≤ f.distance num den c
  even : ∀ c ≤ f.infinity, c ≠ code → f.distance num den c = f.distance num den code → code % 2 = 0

/-! ## What codes are worth -/

/-- A code is worth its significand in steps, also when the significand has just been filled up and
carries into the exponent. -/
theorem units_steps {s h : Nat} (hs : s = 0 ∨ 2 ^ f.fraction ≤ h) (hh : h ≤ 2 * 2 ^ f.fraction) :
    f.units (s * 2 ^ f.fraction + h) = h * 2 ^ s := by
  have hpos : 0 < 2 ^ f.fraction := Nat.two_pow_pos _
  unfold units significand stepLog
  dsimp only
  generalize 2 ^ f.fraction = p at *
  by_cases hlow : h < p
  · obtain rfl : s = 0 := by omega
    rw [Nat.zero_mul, Nat.zero_add, Nat.div_eq_of_lt hlow, Nat.mod_eq_of_lt hlow, if_pos rfl]
  by_cases hfull : h = 2 * p
  · subst hfull
    have hcode : s * p + 2 * p = p * (s + 2) := by rw [Nat.mul_comm s p, Nat.mul_add]; omega
    rw [hcode, Nat.mul_div_cancel_left _ hpos, Nat.mul_mod_right, if_neg (by omega), Nat.add_zero,
      show s + 2 - 1 = s + 1 from rfl, Nat.pow_succ]
    ac_rfl
  · have hcode : s * p + h = p * (s + 1) + (h - p) := by rw [Nat.mul_comm s p, Nat.mul_add]; omega
    have hrest : h - p < p := by omega
    rw [hcode, Nat.mul_add_div hpos, Nat.div_eq_of_lt hrest, Nat.mul_add_mod,
      Nat.mod_eq_of_lt hrest, if_neg (by omega), Nat.add_zero, Nat.add_sub_cancel,
      show p + (h - p) = h by omega]

theorem significand_lt (f : Format) (code : Nat) : f.significand code < 2 * 2 ^ f.fraction := by
  have := Nat.mod_lt code (Nat.two_pow_pos f.fraction)
  unfold significand
  dsimp only
  split <;> omega

theorem stepLog_eq_zero_or (f : Format) (code : Nat) :
    f.stepLog code = 0 ∨ 2 ^ f.fraction ≤ f.significand code := by
  unfold significand stepLog
  dsimp only
  split
  · exact .inl (by omega)
  · exact .inr (Nat.le_add_right _ _)

theorem units_lt_succ (f : Format) (code : Nat) : f.units code < f.units (code + 1) := by
  have hcode := f.significand_add_stepLog code
  have hnext : code + 1 = f.stepLog code * 2 ^ f.fraction + (f.significand code + 1) := by omega
  have hs : f.stepLog code = 0 ∨ 2 ^ f.fraction ≤ f.significand code + 1 :=
    (f.stepLog_eq_zero_or code).imp_right Nat.le_succ_of_le
  rw [hnext, units_steps hs (f.significand_lt code)]
  exact Nat.mul_lt_mul_of_pos_right (Nat.lt_succ_self _) (Nat.two_pow_pos _)

/-- **Greater codes are worth more.** -/
theorem units_lt_units (f : Format) {c c' : Nat} (h : c < c') : f.units c < f.units c' :=
  strictMono_nat_of_lt_succ f.units_lt_succ h

theorem units_le_units (f : Format) {c c' : Nat} (h : c ≤ c') : f.units c ≤ f.units c' :=
  (strictMono_nat_of_lt_succ f.units_lt_succ).monotone h

/-! ## The codes on either side -/

theorem distance_of_le {c : Nat} (h : f.units c * den ≤ num) :
    f.distance num den c = num - f.units c * den := by
  unfold distance
  omega

theorem distance_of_ge {c : Nat} (h : num ≤ f.units c * den) :
    f.distance num den c = f.units c * den - num := by
  unfold distance
  omega

theorem units_mul_lt (hden : 0 < den) {c c' : Nat} (h : c < c') :
    f.units c * den < f.units c' * den :=
  Nat.mul_lt_mul_of_pos_right (f.units_lt_units h) hden

/-- Below the quotient, the greater code is the nearer one. -/
theorem distance_lt_below (hden : 0 < den) {c c' : Nat} (h : c < c')
    (hle : f.units c' * den ≤ num) : f.distance num den c' < f.distance num den c := by
  have hlt := units_mul_lt (f := f) hden h
  rw [distance_of_le hle, distance_of_le (by omega)]
  omega

/-- Above the quotient, the lesser code is the nearer one. -/
theorem distance_lt_above (hden : 0 < den) {c c' : Nat} (h : c < c')
    (hle : num ≤ f.units c * den) : f.distance num den c < f.distance num den c' := by
  have hlt := units_mul_lt (f := f) hden h
  rw [distance_of_ge hle, distance_of_ge (by omega)]
  omega

/-- The cut leaves as many bits as a significand has. -/
theorem quotient_bounds (f : Format) (q : Nat) :
    let s := q.log2 - f.fraction
    q / 2 ^ s < 2 * 2 ^ f.fraction ∧ (s = 0 ∨ 2 ^ f.fraction ≤ q / 2 ^ s) := by
  intro s
  have hs : 0 < 2 ^ s := Nat.two_pow_pos _
  constructor
  · rw [Nat.div_lt_iff_lt_mul hs, ← Nat.pow_succ', ← Nat.pow_add]
    exact Nat.lt_of_lt_of_le Nat.lt_log2_self (Nat.pow_le_pow_right (by decide) (by omega))
  · by_cases hzero : s = 0
    · exact .inl hzero
    · right
      have hq : q ≠ 0 := by
        rintro rfl
        exact hzero (Nat.zero_sub _)
      rw [Nat.le_div_iff_mul_le hs, ← Nat.pow_add]
      exact Nat.le_trans (Nat.pow_le_pow_right (by decide) (by omega)) (Nat.log2_self_le hq)

/-- The two neighbours of a quotient, and what a half is rounded to. -/
theorem halfEven_cases (num den : Nat) :
    halfEven num den = num / den ∧ 2 * (num % den) < den
    ∨ halfEven num den = num / den + 1 ∧ den < 2 * (num % den)
    ∨ halfEven num den = num / den + num / den % 2 ∧ 2 * (num % den) = den := by
  unfold halfEven
  dsimp only
  split
  · exact .inl ⟨rfl, by omega⟩
  split
  · exact .inr (.inl ⟨rfl, by omega⟩)
  · exact .inr (.inr ⟨rfl, by omega⟩)

/-- **Rounding looks at the two codes around the quotient only**, takes the nearer one, and the even
one if they are as near. -/
theorem nearest_brackets (hf : 0 < f.fraction) (hden : 0 < den) :
    ∃ lo best, f.nearest num den = min best f.infinity ∧ f.units lo * den ≤ num
      ∧ num < f.units (lo + 1) * den
      ∧ (best = lo ∧ f.distance num den lo < f.distance num den (lo + 1)
        ∨ best = lo + 1 ∧ f.distance num den (lo + 1) < f.distance num den lo
        ∨ best = lo + lo % 2 ∧ f.distance num den lo = f.distance num den (lo + 1)) := by
  obtain ⟨hlt, hfull⟩ := f.quotient_bounds (num / den)
  unfold nearest
  dsimp only
  generalize (num / den).log2 - f.fraction = s at *
  rw [Nat.div_div_eq_div_mul] at hlt hfull
  have hpos : 0 < den * 2 ^ s := Nat.mul_pos hden (Nat.two_pow_pos _)
  -- the two codes are worth the two multiples of the step around the quotient
  have hlo : f.units (s * 2 ^ f.fraction + num / (den * 2 ^ s)) * den
      = num / (den * 2 ^ s) * (den * 2 ^ s) := by
    rw [units_steps hfull (Nat.le_of_lt hlt), Nat.mul_assoc, Nat.mul_comm den]
  have hhi : f.units (s * 2 ^ f.fraction + num / (den * 2 ^ s) + 1) * den
      = (num / (den * 2 ^ s) + 1) * (den * 2 ^ s) := by
    rw [Nat.add_assoc, units_steps (hfull.imp_right Nat.le_succ_of_le) hlt, Nat.mul_assoc,
      Nat.mul_comm den]
  generalize den * 2 ^ s = step at *
  have hnum := Nat.div_add_mod' num step
  have hrest := Nat.mod_lt num hpos
  rw [Nat.succ_mul] at hhi
  have heven : (s * 2 ^ f.fraction + num / step) % 2 = num / step % 2 := by
    rw [← Nat.succ_pred_eq_of_pos hf, Nat.pow_succ, ← Nat.mul_assoc, Nat.mul_add_mod_self_right]
  refine ⟨s * 2 ^ f.fraction + num / step, _, rfl, by omega, by omega, ?_⟩
  rw [distance_of_le (by omega), distance_of_ge (by omega), hlo, hhi, heven]
  rcases halfEven_cases num step with ⟨hpick, h⟩ | ⟨hpick, h⟩ | ⟨hpick, h⟩
  · exact .inl ⟨by omega, by omega⟩
  · exact .inr (.inl ⟨by omega, by omega⟩)
  · exact .inr (.inr ⟨by omega, by omega⟩)

/-- A code is the nearest one if it is the better of the two around the quotient. -/
theorem isNearest_of_neighbour (hden : 0 < den) {lo c : Nat} (hc : c ≤ f.infinity)
    (hlo : f.units lo * den ≤ num) (hhi : num ≤ f.units (lo + 1) * den)
    (hpick : c = lo ∨ c = lo + 1)
    (hle : f.distance num den c ≤ f.distance num den lo)
    (hle' : f.distance num den c ≤ f.distance num den (lo + 1))
    (heven : f.distance num den lo = f.distance num den (lo + 1) → c % 2 = 0) :
    f.IsNearest num den c := by
  have hother : ∀ c', c' ≠ lo → c' ≠ lo + 1 → f.distance num den c < f.distance num den c' := by
    intro c' hne hne'
    rcases Nat.lt_or_ge c' lo with hlt | hge
    · exact Nat.lt_of_le_of_lt hle (distance_lt_below hden hlt hlo)
    · exact Nat.lt_of_le_of_lt hle' (distance_lt_above hden (by omega) hhi)
  refine ⟨hc, fun c' _ => ?_, fun c' _ hne heq => heven ?_⟩
  · by_cases h : c' = lo
    · exact h ▸ hle
    by_cases h' : c' = lo + 1
    · exact h' ▸ hle'
    exact Nat.le_of_lt (hother c' h h')
  · -- a code that is as near can only be the other one of the two
    have hc' : c' = lo ∨ c' = lo + 1 := by
      by_contra hcon
      have := hother c' (by omega) (by omega)
      omega
    rcases hpick with rfl | rfl <;> rcases hc' with rfl | rfl
    · exact absurd rfl hne
    · exact heq.symm
    · exact heq
    · exact absurd rfl hne

/-- Infinity is the nearest code to what is beyond it. -/
theorem isNearest_infinity (hden : 0 < den) (hle : f.units f.infinity * den ≤ num) :
    f.IsNearest num den f.infinity := by
  have hbelow : ∀ c ≤ f.infinity, c ≠ f.infinity →
      f.distance num den f.infinity < f.distance num den c :=
    fun c hc hne => distance_lt_below hden (by omega) hle
  refine ⟨Nat.le_refl _, fun c hc => ?_, fun c hc hne heq => ?_⟩
  · by_cases hne : c = f.infinity
    · exact Nat.le_of_eq (hne ▸ rfl)
    · exact Nat.le_of_lt (hbelow c hc hne)
  · exact absurd heq (Nat.ne_of_gt (hbelow c hc hne))

/-- **What is found is the nearest code**, for every quotient. -/
theorem nearest_isNearest (hf : 0 < f.fraction) (hden : 0 < den) :
    f.IsNearest num den (f.nearest num den) := by
  obtain ⟨lo, best, hcode, hlo, hhi, hbest⟩ := @nearest_brackets f num den hf hden
  rw [hcode]
  by_cases hcap : best ≤ f.infinity
  · rw [Nat.min_eq_left hcap]
    have hneighbour := isNearest_of_neighbour hden hcap hlo (Nat.le_of_lt hhi)
    rcases hbest with ⟨rfl, h⟩ | ⟨rfl, h⟩ | ⟨rfl, h⟩
    · exact hneighbour (.inl rfl) (Nat.le_refl _) (Nat.le_of_lt h) (by omega)
    · exact hneighbour (.inr rfl) (Nat.le_of_lt h) (Nat.le_refl _) (by omega)
    · -- a tie: the last bit of the lower code says which of the two is even
      rcases Nat.mod_two_eq_zero_or_one lo with hbit | hbit <;> rw [hbit] at hneighbour ⊢
      · exact hneighbour (.inl rfl) (Nat.le_refl _) (Nat.le_of_eq h) fun _ => hbit
      · exact hneighbour (.inr rfl) (Nat.le_of_eq h.symm) (Nat.le_refl _) (by omega)
  · rw [Nat.min_eq_right (by omega)]
    exact isNearest_infinity hden
      (Nat.le_trans (Nat.mul_le_mul_right _ (f.units_le_units (by omega))) hlo)

namespace IsNearest

variable {c c' : Nat}

theorem not_lt (hden : 0 < den) (h : f.IsNearest num den c) (h' : f.IsNearest num den c') :
    ¬ c < c' := by
  intro hlt
  have heq : f.distance num den c = f.distance num den c' :=
    Nat.le_antisymm (h.nearest _ h'.le_infinity) (h'.nearest _ h.le_infinity)
  have heven := h.even _ h'.le_infinity (Nat.ne_of_gt hlt) heq.symm
  have heven' := h'.even _ h.le_infinity (Nat.ne_of_lt hlt) heq
  -- both are even, so there is a code between them, and it is nearer
  have hmid := h.nearest (c + 1) (by have := h'.le_infinity; omega)
  rcases Nat.le_total (f.units (c + 1) * den) num with hle | hle
  · have := distance_lt_below hden (Nat.lt_add_one c) hle
    omega
  · have := distance_lt_above (f := f) hden (by omega : c + 1 < c') hle
    omega

/-- **Only one code is the nearest.** -/
theorem unique (hden : 0 < den) (h : f.IsNearest num den c) (h' : f.IsNearest num den c') :
    c = c' :=
  Nat.le_antisymm (Nat.not_lt.1 (h'.not_lt hden h)) (Nat.not_lt.1 (h.not_lt hden h'))

/-- A quotient is too large from the middle between the greatest finite magnitude and the next. -/
theorem eq_infinity_iff (hf : 0 < f.fraction) (hinf : 0 < f.infinity) (hden : 0 < den)
    (h : f.IsNearest num den c) :
    c = f.infinity ↔ (f.units (f.infinity - 1) + f.units f.infinity) * den ≤ 2 * num := by
  have hup := units_mul_lt (f := f) hden (Nat.sub_lt hinf Nat.one_pos)
  have hlast := h.nearest (f.infinity - 1) (Nat.sub_le _ _)
  have htop := h.nearest f.infinity (Nat.le_refl _)
  rw [Nat.add_mul]
  constructor
  · rintro rfl
    by_contra hlow
    unfold distance at hlast
    omega
  · intro hhigh
    by_contra hne
    have hle := h.le_infinity
    have heq : c = f.infinity - 1 := by
      by_contra hne'
      have hnearer : f.distance num den (f.infinity - 1) < f.distance num den c :=
        distance_lt_below hden (by omega) (by omega)
      omega
    subst heq
    have htie : f.distance num den f.infinity = f.distance num den (f.infinity - 1) := by
      unfold distance at htop ⊢
      omega
    have heven := h.even _ (Nat.le_refl _) (Ne.symm hne) htie
    have hbit : f.infinity % 2 = 0 := by
      rw [infinity, ← Nat.succ_pred_eq_of_pos hf, Nat.pow_succ, ← Nat.mul_assoc, Nat.mul_mod_left]
    omega

end IsNearest

/-- A quotient of less than half a unit is rounded to nothing. -/
theorem nearest_eq_zero (h : 2 * num < den) : f.nearest num den = 0 := by
  have hlt : num < den := by omega
  have hzero : (0 : Nat).log2 - f.fraction = 0 := Nat.zero_sub _
  unfold nearest halfEven
  dsimp only
  rw [Nat.div_eq_of_lt hlt, hzero, Nat.pow_zero, Nat.mul_one, Nat.mod_eq_of_lt hlt, if_pos h,
    Nat.div_eq_of_lt hlt, Nat.zero_mul, Nat.zero_add, Nat.zero_min]

end Format

/-! ## Decimals in double precision -/

theorem Decimal.ratio_pos (d : Decimal) : 0 < d.ratio.2 := by
  unfold Decimal.ratio
  split
  · exact Nat.one_pos
  · exact Nat.pow_pos (by decide)

/-- A number is what a decimal is rounded to: it has no sign, and its code is the nearest one. -/
structure RoundsTo (d : Decimal) (v : Float) : Prop where
  unsigned : isSigned v = false
  nearest : Format.binary64.IsNearest (d.ratio.1 * 2 ^ Format.binary64.places) d.ratio.2 (code v)

theorem ofDecimal_isNearest (d : Decimal) :
    Format.binary64.IsNearest (d.ratio.1 * 2 ^ Format.binary64.places) d.ratio.2
      (Format.binary64.ofDecimal d) :=
  Format.nearest_isNearest (by decide) d.ratio_pos

/-- **Decimals are rounded correctly**, and to one number only. -/
theorem roundsTo_iff {d : Decimal} {v : Float} : RoundsTo d v ↔ v = ofDecimal false d := by
  constructor
  · intro h
    rw [eq_ofCode h.nearest.le_infinity, h.unsigned,
      h.nearest.unique d.ratio_pos (ofDecimal_isNearest d)]
    rfl
  · rintro rfl
    refine ⟨isSigned_ofDecimal d, ?_⟩
    rw [ofDecimal]
    exact (code_ofCode (Format.binary64.ofDecimal_le_infinity d)).symm ▸ ofDecimal_isNearest d

/-- The middle between the greatest finite number and two to the power of 1024. -/
def leastTooLarge : Nat := (2 ^ 54 - 1) * 2 ^ 970

/-- The decimals that become infinity. -/
theorem ofDecimal_eq_infinity_iff (d : Decimal) :
    Format.binary64.ofDecimal d = Format.binary64.infinity
      ↔ leastTooLarge * d.ratio.2 ≤ d.ratio.1 := by
  have hsum : Format.binary64.units (Format.binary64.infinity - 1)
      + Format.binary64.units Format.binary64.infinity
      = 2 * (leastTooLarge * 2 ^ Format.binary64.places) := by decide +kernel
  have hpos : 0 < 2 * 2 ^ Format.binary64.places :=
    Nat.mul_pos (by decide) (Nat.two_pow_pos _)
  rw [(ofDecimal_isNearest d).eq_infinity_iff (by decide) (by decide) d.ratio_pos, hsum]
  generalize 2 ^ Format.binary64.places = unit at *
  generalize leastTooLarge = bound
  have hleft : 2 * (bound * unit) * d.ratio.2 = 2 * unit * (bound * d.ratio.2) := by ac_rfl
  have hright : 2 * (d.ratio.1 * unit) = 2 * unit * d.ratio.1 := by ac_rfl
  rw [hleft, hright, Nat.mul_le_mul_left_iff hpos]

theorem leastTooLarge_le : leastTooLarge ≤ 10 ^ Format.binary64.places :=
  calc leastTooLarge ≤ 2 ^ (54 + 970) := by decide +kernel
    _ ≤ 2 ^ Format.binary64.places := Nat.pow_le_pow_right (by decide) (by decide)
    _ ≤ 10 ^ Format.binary64.places := Nat.pow_le_pow_left (by decide) _

/-! ## Numerals out of range -/

theorem lt_pow_length_toDigits (n : Nat) : n < 10 ^ (Nat.toDigits 10 n).length :=
  (Nat.length_toDigits_le_iff (by decide) Nat.length_toDigits_pos).1 (Nat.le_refl _)

theorem pow_length_toDigits_le {n : Nat} (h : n ≠ 0) :
    10 ^ ((Nat.toDigits 10 n).length - 1) ≤ n := by
  by_contra hlt
  rw [Nat.not_le] at hlt
  rcases Nat.eq_zero_or_pos ((Nat.toDigits 10 n).length - 1) with hone | hmore
  · rw [hone, Nat.pow_zero] at hlt
    omega
  · have := (Nat.length_toDigits_le_iff (by decide) hmore).2 hlt
    omega

namespace Decimal

variable {d : Decimal} {t : Nat}

/-- The place of the leading digit bounds a decimal from below. -/
theorem pow_le_ratio (hne : d.digits ≠ 0)
    (ht : (t : Int) < (Nat.toDigits 10 d.digits).length + d.exponent) :
    10 ^ t * d.ratio.2 ≤ d.ratio.1 := by
  have hlow := pow_length_toDigits_le hne
  obtain ⟨n, e⟩ := d
  dsimp only at *
  generalize (Nat.toDigits 10 n).length = len at *
  cases e with
  | ofNat k =>
      rw [Int.ofNat_eq_natCast] at ht
      calc 10 ^ t * 1 = 10 ^ t := Nat.mul_one _
        _ ≤ 10 ^ (len - 1 + k) := Nat.pow_le_pow_right (by decide) (by omega)
        _ = 10 ^ (len - 1) * 10 ^ k := Nat.pow_add ..
        _ ≤ n * 10 ^ k := Nat.mul_le_mul_right _ hlow
  | negSucc k =>
      calc 10 ^ t * 10 ^ (k + 1) = 10 ^ (t + (k + 1)) := (Nat.pow_add ..).symm
        _ ≤ 10 ^ (len - 1) := Nat.pow_le_pow_right (by decide) (by omega)
        _ ≤ n := hlow

/-- The place of the leading digit bounds a decimal from above. -/
theorem ratio_lt_pow (ht : (Nat.toDigits 10 d.digits).length + d.exponent ≤ -(t : Int)) :
    d.ratio.1 * 10 ^ t < d.ratio.2 := by
  have hhigh := lt_pow_length_toDigits d.digits
  have hlen : 0 < (Nat.toDigits 10 d.digits).length := Nat.length_toDigits_pos
  obtain ⟨n, e⟩ := d
  dsimp only at *
  generalize (Nat.toDigits 10 n).length = len at *
  cases e with
  | ofNat k =>
      rw [Int.ofNat_eq_natCast] at ht
      omega
  | negSucc k =>
      calc n * 10 ^ t < 10 ^ len * 10 ^ t :=
            Nat.mul_lt_mul_of_pos_right hhigh (Nat.pow_pos (by decide))
        _ = 10 ^ (len + t) := (Nat.pow_add ..).symm
        _ ≤ 10 ^ (k + 1) := Nat.pow_le_pow_right (by decide) (by omega)

theorem ratio_of_digits_eq_zero (h : d.digits = 0) : d.ratio.1 = 0 := by
  unfold ratio
  split
  · rw [h, Nat.zero_mul]
  · exact h

end Decimal

/-- **A power of ten that is not computed would not have mattered**: where the reader of numerals
cuts a computation short, rounding has the same outcome. -/
theorem ofScaled_eq_ofDecimal (d : Decimal) :
    Format.binary64.ofScaled d = Format.binary64.ofDecimal d := by
  unfold Format.ofScaled
  dsimp only
  split
  · rename_i hzero
    rw [Format.ofDecimal, Format.nearest_eq_zero]
    rw [Decimal.ratio_of_digits_eq_zero hzero, Nat.zero_mul]
    exact d.ratio_pos
  rename_i hne
  split
  · rename_i htop
    symm
    rw [ofDecimal_eq_infinity_iff]
    exact Nat.le_trans (Nat.mul_le_mul_right _ leastTooLarge_le) (Decimal.pow_le_ratio hne htop)
  split
  · rename_i htop
    rw [Format.ofDecimal, Format.nearest_eq_zero]
    generalize Format.binary64.places = unit at *
    calc 2 * (d.ratio.1 * 2 ^ unit) = d.ratio.1 * 2 ^ (unit + 1) := by rw [Nat.pow_succ']; ac_rfl
      _ ≤ d.ratio.1 * 10 ^ (unit + 1) := Nat.mul_le_mul_left _ (Nat.pow_le_pow_left (by decide) _)
      _ < d.ratio.2 := Decimal.ratio_lt_pow (by omega)
  · rfl

end Reckon.Number
