import Reckon.Proofs.Number.Bits

/-!
# The order of the numbers

Two numbers are compared by their signs, then by their exponents, then by their significands. The
code of a magnitude holds the exponent above the significand, so all this is one comparison of
integers: a number stands at its code, or at the opposite of its code if it has a sign
(`ordinal`), and the comparison of two numbers is that of their places (`compare_components`). Only
the two zeros share a place.

Values that are no numbers have no place. There is only one of them (`eq_of_isNaN`).
-/

namespace Reckon.Number

open Float.Model Float.Model.UnpackedFloat

/-! ## Fields -/

/-- The significand and the exponent behind a code that is neither zero nor infinite. -/
def Fields (c m : Nat) (e : Int) : Prop :=
  (c < 2 ^ 52 ∧ m = c ∧ e = -1074)
  ∨ (2 ^ 52 ≤ c ∧ m = 2 ^ 52 + c % 2 ^ 52 ∧ e = (c / 2 ^ 52 : Nat) - 1075)

/-- What is taken apart, with the fields of a finite number. -/
theorem unpack_fields (signed : Bool) {c : Nat} (h : c ≤ Format.binary64.infinity) :
    let u := UnpackedFloat.unpack .binary64 (components signed c)
    (c = Format.binary64.infinity ∧ u = .infinity (signOf signed))
    ∨ (c = 0 ∧ u = .zero (signOf signed))
    ∨ (0 < c ∧ c < Format.binary64.infinity
        ∧ ∃ m e hm, u = .finite (signOf signed) m e hm ∧ Fields c m e) := by
  have hlt := lt_of_le_infinity h
  have hfull := exponent_eq_iff hlt (-1#11)
  have hempty := exponent_eq_iff hlt 0#11
  have hman := mantissa_eq_zero_iff c
  have hmax : (-1#11).toNat = 2047 := rfl
  have hmin : (0#11).toNat = 0 := rfl
  rw [hmax] at hfull
  rw [hmin] at hempty
  rw [infinity_binary64] at h ⊢
  have hE : (BitVec.ofNat 11 (c / 2 ^ 52)).toNat = c / 2 ^ 52 := by
    rw [BitVec.toNat_ofNat, Nat.mod_eq_of_lt (by omega)]
  have hM : (BitVec.ofNat 52 c).toNat = c % 2 ^ 52 := BitVec.toNat_ofNat ..
  rcases unpack_packComponents (signOf signed) (BitVec.ofNat 11 (c / 2 ^ 52)) (BitVec.ofNat 52 c)
    with ⟨he, hz, hu⟩ | ⟨he, hz, hu⟩ | ⟨he, hz, hu⟩ | ⟨he, hz, hm, hu⟩ | ⟨he, he', hm, hu⟩
  · rw [hfull] at he
    exact .inl ⟨by omega, hu⟩
  · rw [hfull] at he
    rw [Ne, hman] at hz
    omega
  · rw [hempty] at he
    rw [hman] at hz
    exact .inr (.inl ⟨by omega, hu⟩)
  · rw [hempty] at he
    rw [Ne, hman] at hz
    exact .inr (.inr ⟨by omega, by omega, _, _, hm, hu, .inl ⟨by omega, by omega, rfl⟩⟩)
  · rw [Ne, hfull] at he
    rw [Ne, hempty] at he'
    refine .inr (.inr ⟨by omega, by omega, _, _, hm, hu, .inr ⟨by omega, ?_, by omega⟩⟩)
    rw [toNat_hidden, hM]

/-- The exponents and then the significands are compared as the codes are. -/
theorem compare_fields {c d m n : Nat} {e f : Int} (h : Fields c m e) (h' : Fields d n f) :
    (compare e f).then (compare m n) = compare (c : Int) d := by
  unfold Fields at h h'
  rcases Nat.lt_trichotomy c d with hcd | rfl | hcd
  · rw [Int.compare_eq_lt.mpr (show (c : Int) < d by omega)]
    rcases Int.lt_or_eq_of_le (show e ≤ f by omega) with hef | rfl
    · rw [Int.compare_eq_lt.mpr hef]
      rfl
    · rw [Int.compare_eq_eq.mpr rfl, Nat.compare_eq_lt.mpr (by omega)]
      rfl
  · rw [Int.compare_eq_eq.mpr rfl, Int.compare_eq_eq.mpr (show e = f by omega),
      Nat.compare_eq_eq.mpr (by omega)]
    rfl
  · rw [Int.compare_eq_gt.mpr (show (d : Int) < c by omega)]
    rcases Int.lt_or_eq_of_le (show f ≤ e by omega) with hef | rfl
    · rw [Int.compare_eq_gt.mpr hef]
      rfl
    · rw [Int.compare_eq_eq.mpr rfl, Nat.compare_eq_gt.mpr (by omega)]
      rfl

/-! ## Places -/

/-- The place of a sign and a code among the integers. -/
def place (signed : Bool) (c : Nat) : Int := if signed then -c else c

theorem compare_neg_neg (a b : Int) : compare (-a) (-b) = (compare a b).swap := by
  rcases Int.lt_trichotomy a b with h | rfl | h
  · rw [Int.compare_eq_lt.mpr h, Int.compare_eq_gt.mpr (by omega)]
    rfl
  · rw [Int.compare_eq_eq.mpr rfl, Int.compare_eq_eq.mpr rfl]
    rfl
  · rw [Int.compare_eq_gt.mpr h, Int.compare_eq_lt.mpr (by omega)]
    rfl

section

variable (signed signed' : Bool) {c d : Nat}

theorem compare_finite {m n : Nat} {e f : Int} {hm : 0 < m} {hn : 0 < n} (hc : 0 < c) (hd : 0 < d)
    (h : Fields c m e) (h' : Fields d n f) :
    (UnpackedFloat.finite (signOf signed) m e hm).compare (.finite (signOf signed') n f hn)
      = some (compare (place signed c) (place signed' d)) := by
  cases signed <;> cases signed'
  · exact congrArg some (compare_fields h h')
  · exact congrArg some (Int.compare_eq_gt.mpr (show -(d : Int) < c by omega)).symm
  · exact congrArg some (Int.compare_eq_lt.mpr (show -(c : Int) < d by omega)).symm
  · change some ((compare e f).then (compare m n)).swap = some (compare (-(c : Int)) (-d))
    rw [compare_neg_neg, compare_fields h h']

/-- **Numbers are compared as their places are.** -/
theorem compare_components (hc : c ≤ Format.binary64.infinity) (hd : d ≤ Format.binary64.infinity) :
    (UnpackedFloat.unpack .binary64 (components signed c)).compare
        (UnpackedFloat.unpack .binary64 (components signed' d))
      = some (compare (place signed c) (place signed' d)) := by
  have hpos : 0 < Format.binary64.infinity := by decide
  have lt {a b : Int} (h : a < b) : Ordering.lt = compare a b := (Int.compare_eq_lt.mpr h).symm
  have gt {a b : Int} (h : b < a) : Ordering.gt = compare a b := (Int.compare_eq_gt.mpr h).symm
  have eq {a b : Int} (h : a = b) : Ordering.eq = compare a b := (Int.compare_eq_eq.mpr h).symm
  rcases unpack_fields signed hc with ⟨hc', hu⟩ | ⟨hc', hu⟩ | ⟨hc', hc'', m, e, hm, hu, hfields⟩ <;>
    rcases unpack_fields signed' hd with
      ⟨hd', hw⟩ | ⟨hd', hw⟩ | ⟨hd', hd'', n, f, hn, hw, hfields'⟩ <;>
    rw [hu, hw]
  -- two finite numbers are left to the last; of all others an infinity or a zero decides
  case inr.inr.inr.inr => exact compare_finite signed signed' hc' hd' hfields hfields'
  all_goals
    cases signed <;> cases signed' <;> refine congrArg some ?_ <;>
      simp only [place, Bool.false_eq_true, if_true, if_false] <;>
      first | exact lt (by omega) | exact gt (by omega) | exact eq (by omega)

end

/-! ## Numbers -/

/-- The place of a number among the integers. -/
def ordinal (v : Float) : Int := place (isSigned v) (code v)

theorem isNaN_iff {v : Float} : v.isNaN = true ↔ Format.binary64.infinity < code v := by
  change (UnpackedFloat.unpack .binary64 v.toBits.toBitVec).isNaN = true ↔ _
  rw [toBits_eq_components]
  rcases unpack_components (isSigned v) (code_lt v) with
    ⟨hc, hu⟩ | ⟨hc, hu⟩ | ⟨hc, hu⟩ | ⟨-, hc, m, e, hm, hu⟩ <;> rw [hu]
  · exact ⟨fun _ => hc, fun _ => rfl⟩
  · exact ⟨fun h => (by cases h), fun h => by omega⟩
  · exact ⟨fun h => (by cases h), fun h => by omega⟩
  · exact ⟨fun h => (by cases h), fun h => by omega⟩

theorem code_le_of_not_isNaN {v : Float} (h : v.isNaN = false) :
    code v ≤ Format.binary64.infinity :=
  Nat.not_lt.mp fun hlt => by
    rw [isNaN_iff.mpr hlt] at h
    cases h

/-- There is one value that is no number. -/
theorem eq_of_isNaN {v w : Float} (hv : v.isNaN = true) (hw : w.isNaN = true) : v = w := by
  have canonical : ∀ v : Float, v.isNaN = true → v.toBits.toBitVec = packedNaN .binary64 := by
    intro v h
    rw [isNaN_iff, infinity_binary64] at h
    have hlt := code_lt v
    have hbits := toBits_eq_components v
    refine v.toModel.valid.eq_packedNaN ?_ ?_
    · change @unpackExponent .binary64 v.toBits.toBitVec = -1#11
      rw [hbits, components, unpackExponent_packComponents, exponent_eq_iff hlt]
      change code v / 2 ^ 52 = 2047
      omega
    · change @unpackMantissa .binary64 v.toBits.toBitVec ≠ 0#52
      rw [hbits, components, unpackMantissa_packComponents, Ne, mantissa_eq_zero_iff]
      omega
  exact float_ext ((canonical v hv).trans (canonical w hw).symm)

section

variable {v w : Float} (hv : v.isNaN = false) (hw : w.isNaN = false)

include hv hw

theorem compare_toModel :
    v.toModel.unpack.compare w.toModel.unpack = some (compare (ordinal v) (ordinal w)) := by
  have h := compare_components (isSigned v) (isSigned w) (code_le_of_not_isNaN hv)
    (code_le_of_not_isNaN hw)
  rw [← toBits_eq_components, ← toBits_eq_components] at h
  exact h

theorem lt_iff : v < w ↔ ordinal v < ordinal w := by
  change decide (v.toModel < w.toModel) = true ↔ _
  rw [decide_eq_true_iff]
  change (v.toModel.unpack.compare w.toModel.unpack == some .lt) = true ↔ _
  rw [compare_toModel hv hw, ← Int.compare_eq_lt]
  cases compare (ordinal v) (ordinal w) <;> decide

theorem le_iff : v ≤ w ↔ ordinal v ≤ ordinal w := by
  change decide (v.toModel ≤ w.toModel) = true ↔ _
  rw [decide_eq_true_iff]
  change (v.toModel.unpack.compare w.toModel.unpack).any (·.isLE) = true ↔ _
  rw [compare_toModel hv hw, ← Int.isLE_compare]
  rfl

/-- Two numbers in one place are one number, unless they are the two zeros. -/
theorem eq_of_ordinal_eq (h : ordinal v = ordinal w) :
    v = w ∨ v = 0 ∧ w = -0 ∨ v = -0 ∧ w = 0 := by
  have hzero : (0 : Float) = ofCode false 0 := by decide +kernel
  rw [negZero_eq_ofCode, hzero, eq_ofCode (code_le_of_not_isNaN hv),
    eq_ofCode (code_le_of_not_isNaN hw)]
  unfold ordinal place at h
  generalize isSigned v = signed, isSigned w = signed' at h ⊢
  cases signed <;> cases signed' <;> simp only [Bool.false_eq_true, if_true, if_false] at h
  · exact .inl (by rw [show code v = code w by omega])
  · obtain ⟨hv, hw⟩ : code v = 0 ∧ code w = 0 := by omega
    exact .inr (.inl ⟨by rw [hv], by rw [hw]⟩)
  · obtain ⟨hv, hw⟩ : code v = 0 ∧ code w = 0 := by omega
    exact .inr (.inr ⟨by rw [hv], by rw [hw]⟩)
  · exact .inl (by rw [show code v = code w by omega])

end

end Reckon.Number
