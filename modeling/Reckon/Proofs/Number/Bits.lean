import Mathlib.Algebra.Group.Nat.Defs
import Reckon.Number.Binary

/-!
# Signs and codes in double precision

The printer and the reader see a number through its sign and its code, and the operations of double
precision are defined on its fields. This module brings the two together: a number is `ofCode` of
its sign and its code (`eq_ofCode`), an opposite changes the sign and keeps the code, a magnitude
keeps the code and has no sign, and the comparison with zero asks for both.

Everything comes from one fact about packing, `pack_withSign_unpack`: taking a number apart, giving
it another sign and putting it together again changes the sign bit and nothing else.
-/

namespace Reckon.Number

open Float.Model Float.Model.UnpackedFloat

/-! ## Fields -/

/-- The sign that a sign bit stands for. -/
def signOf (signed : Bool) : Sign := if signed then .negative else .positive

/-- A number with another sign. -/
def withSign (s : Sign) : UnpackedFloat → UnpackedFloat
  | .notANumber => .notANumber
  | .infinity _ => .infinity s
  | .zero _ => .zero s
  | .finite _ m e h => .finite s m e h

theorem withSign_finite (s t : Sign) {m : Nat} {e : Int} (h : 0 < m) :
    withSign t (.finite s m e h) = .finite t m e h := rfl

theorem neg_withSign (signed : Bool) (u : UnpackedFloat) :
    (withSign (signOf signed) u).neg = withSign (signOf !signed) u := by
  cases u <;> cases signed <;> rfl

theorem abs_eq_withSign (u : UnpackedFloat) : u.abs = withSign (signOf false) u := by
  cases u <;> rfl

theorem unpackSign_packComponents (s : Sign) (E : BitVec 11) (M : BitVec 52) :
    Sign.ofBitVec (unpackSign (packComponents .binary64 s E M)) = s := by
  have hbit : unpackSign (packComponents .binary64 s E M) = s.toBitVec := by
    apply BitVec.eq_of_getLsbD_eq
    intro i hi
    obtain rfl : i = 0 := by omega
    change (((s.toBitVec ++ E ++ M).extractLsb 63 63).cast _).getLsbD 0 = _
    rw [BitVec.getLsbD_cast, BitVec.getLsbD_extractLsb, BitVec.getLsbD_append,
      BitVec.getLsbD_append]
    rfl
  rw [hbit]
  cases s <;> rfl

theorem toNat_packComponents (s : Sign) (E : BitVec 11) (M : BitVec 52) :
    (packComponents .binary64 s E M).toNat
      = s.toBitVec.toNat * 2 ^ 63 + E.toNat * 2 ^ 52 + M.toNat := by
  unfold packComponents
  have hM : M.toNat < 2 ^ 52 := M.isLt
  have hE : E.toNat < 2 ^ 11 := E.isLt
  rw [BitVec.toNat_append, BitVec.toNat_append, ← Nat.shiftLeft_add_eq_or_of_lt hM,
    ← Nat.shiftLeft_add_eq_or_of_lt hE, Nat.shiftLeft_eq, Nat.shiftLeft_eq]
  omega

theorem toNat_hidden (M : BitVec 52) : (1#1 ++ M).toNat = 2 ^ 52 + M.toNat := by
  rw [BitVec.toNat_append, ← Nat.shiftLeft_add_eq_or_of_lt M.isLt, Nat.shiftLeft_eq]
  rfl

/-- What packing a finite number comes to, with the widths of double precision put in. -/
theorem pack_finite (s : Sign) (m : Nat) (e : Int) (hm : 0 < m) :
    UnpackedFloat.pack .binary64 (.finite s m e hm)
      = if 2 ^ 11 ≤ (e + 1023 + 52).toNat + 1 then packedInfinity .binary64 s
        else if m.log2 + 1 = 53 then
          packComponents .binary64 s (BitVec.ofNat 11 (e + 1023 + 52).toNat) (BitVec.ofNat 52 m)
        else packComponents .binary64 s 0#11 (BitVec.ofNat 52 m) :=
  rfl

theorem hidden_pos (M : BitVec 52) : 0 < (1#1 ++ M).toNat := by
  rw [toNat_hidden]
  omega

theorem toNat_pos_of_ne {M : BitVec 52} (h : M ≠ 0#52) : 0 < M.toNat :=
  Nat.pos_of_ne_zero fun h0 => h (BitVec.eq_of_toNat_eq h0)

/-- What unpacking comes to, with the widths of double precision put in. -/
theorem unpack_binary64 {b : BitVec 64} {s : Sign} {E : BitVec 11} {M : BitVec 52}
    (hs : Sign.ofBitVec (@unpackSign .binary64 b) = s)
    (hE : @unpackExponent .binary64 b = E)
    (hM : @unpackMantissa .binary64 b = M) :
    UnpackedFloat.unpack .binary64 b
      = if E = -1#11 then (if M = 0#52 then .infinity s else .notANumber)
        else if E = 0#11 then
          (if h : M = 0#52 then .zero s
            else .finite s M.toNat ((E.toNat : Int) - (1023 + 52) + 1) (toNat_pos_of_ne h))
        else .finite s (1#1 ++ M).toNat ((E.toNat : Int) - (1023 + 52)) (hidden_pos M) := by
  subst hs hE hM
  rfl

/-- The exponent field tells infinity, the numbers without a hidden bit and all others apart. -/
theorem unpack_packComponents (s : Sign) (E : BitVec 11) (M : BitVec 52) :
    let u := UnpackedFloat.unpack .binary64 (packComponents .binary64 s E M)
    (E = -1#11 ∧ M = 0#52 ∧ u = .infinity s)
    ∨ (E = -1#11 ∧ M ≠ 0#52 ∧ u = .notANumber)
    ∨ (E = 0#11 ∧ M = 0#52 ∧ u = .zero s)
    ∨ (E = 0#11 ∧ M ≠ 0#52 ∧ ∃ h, u = .finite s M.toNat (-1074) h)
    ∨ (E ≠ -1#11 ∧ E ≠ 0#11 ∧
        ∃ h, u = .finite s (1#1 ++ M).toNat ((E.toNat : Int) - (1023 + 52)) h) := by
  have hu := unpack_binary64 (unpackSign_packComponents s E M) unpackExponent_packComponents
    unpackMantissa_packComponents
  by_cases hfull : E = -1#11
  · rw [if_pos hfull] at hu
    by_cases hzero : M = 0#52
    · exact .inl ⟨hfull, hzero, hu.trans (if_pos hzero)⟩
    · exact .inr (.inl ⟨hfull, hzero, hu.trans (if_neg hzero)⟩)
  · rw [if_neg hfull] at hu
    by_cases hempty : E = 0#11
    · rw [if_pos hempty] at hu
      by_cases hzero : M = 0#52
      · exact .inr (.inr (.inl ⟨hempty, hzero, hu.trans (dif_pos hzero)⟩))
      · subst hempty
        exact .inr (.inr (.inr (.inl ⟨rfl, hzero, _, hu.trans (dif_neg hzero)⟩)))
    · exact .inr (.inr (.inr (.inr ⟨hfull, hempty, _, hu.trans (if_neg hempty)⟩)))

/-- **Only the sign bit depends on the sign.** A value that is no number has no sign to change, so
it is left out. -/
theorem pack_withSign_unpack {s t : Sign} {E : BitVec 11} {M : BitVec 52}
    (h : E = -1#11 → M = 0#52) :
    UnpackedFloat.pack .binary64
        (withSign t (UnpackedFloat.unpack .binary64 (packComponents .binary64 s E M)))
      = packComponents .binary64 t E M := by
  have hM : M.toNat < 2 ^ 52 := M.isLt
  rcases unpack_packComponents s E M with ⟨rfl, rfl, hu⟩ | ⟨hE, hne, -⟩ | ⟨rfl, rfl, hu⟩
    | ⟨rfl, hne, hm, hu⟩ | ⟨hfull, hempty, hm, hu⟩
  · rw [hu]
    rfl
  · exact absurd (h hE) hne
  · rw [hu]
    rfl
  · -- below the least normal number nothing is hidden, so the mantissa is short
    have hlog : ¬ M.toNat.log2 + 1 = 53 := by
      have hne : M.toNat ≠ 0 := fun h0 => hne (BitVec.eq_of_toNat_eq h0)
      have := (Nat.log2_lt hne).2 hM
      omega
    rw [hu, withSign_finite, pack_finite, if_neg (by decide), if_neg hlog, BitVec.ofNat_toNat,
      BitVec.setWidth_eq]
  · -- the hidden bit fills the mantissa up, and packing takes it away again
    have hE0 : E.toNat ≠ 0 := fun h0 => hempty (BitVec.eq_of_toNat_eq h0)
    have hE1 : E.toNat ≠ 2047 := fun h1 => hfull (BitVec.eq_of_toNat_eq h1)
    have hE : E.toNat < 2 ^ 11 := E.isLt
    have hlog : (2 ^ 52 + M.toNat).log2 = 52 :=
      (Nat.log2_eq_iff (by omega)).2 ⟨by omega, by omega⟩
    have hbias : ((E.toNat : Int) - (1023 + 52) + 1023 + 52).toNat = E.toNat := by omega
    rw [hu, withSign_finite, pack_finite, hbias, if_neg (by omega), toNat_hidden, hlog, if_pos rfl,
      BitVec.ofNat_toNat, BitVec.setWidth_eq]
    congr 1
    apply BitVec.eq_of_toNat_eq
    rw [BitVec.toNat_ofNat]
    omega

theorem withSign_unpack (s : Sign) (E : BitVec 11) (M : BitVec 52) :
    withSign s (UnpackedFloat.unpack .binary64 (packComponents .binary64 s E M))
      = UnpackedFloat.unpack .binary64 (packComponents .binary64 s E M) := by
  rcases unpack_packComponents s E M with ⟨-, -, hu⟩ | ⟨-, -, hu⟩ | ⟨-, -, hu⟩ | ⟨-, -, _, hu⟩
    | ⟨-, -, _, hu⟩
  all_goals
    rw [hu]
    rfl

/-! ## The bits of a sign and a code -/

/-- The bits of the number with a given sign and code. -/
def components (signed : Bool) (c : Nat) : BitVec 64 :=
  packComponents .binary64 (signOf signed) (BitVec.ofNat 11 (c / 2 ^ 52)) (BitVec.ofNat 52 c)

theorem infinity_binary64 : Format.binary64.infinity = 2047 * 2 ^ 52 := by decide

theorem toNat_components {signed : Bool} {c : Nat} (h : c < 2 ^ 63) :
    (components signed c).toNat = if signed then 2 ^ 63 + c else c := by
  rw [components, toNat_packComponents, BitVec.toNat_ofNat, BitVec.toNat_ofNat]
  cases signed with
  | true =>
      change 1 * 2 ^ 63 + c / 2 ^ 52 % 2 ^ 11 * 2 ^ 52 + c % 2 ^ 52 = 2 ^ 63 + c
      omega
  | false =>
      change 0 * 2 ^ 63 + c / 2 ^ 52 % 2 ^ 11 * 2 ^ 52 + c % 2 ^ 52 = c
      omega

theorem exponent_eq_iff {c : Nat} (h : c < 2 ^ 63) (E : BitVec 11) :
    BitVec.ofNat 11 (c / 2 ^ 52) = E ↔ c / 2 ^ 52 = E.toNat := by
  rw [← BitVec.toNat_inj, BitVec.toNat_ofNat, Nat.mod_eq_of_lt (by omega)]

theorem mantissa_eq_zero_iff (c : Nat) : BitVec.ofNat 52 c = 0#52 ↔ c % 2 ^ 52 = 0 := by
  rw [← BitVec.toNat_inj, BitVec.toNat_ofNat]
  rfl

theorem mantissa_eq_zero {c : Nat} (h : c ≤ Format.binary64.infinity)
    (hexp : BitVec.ofNat 11 (c / 2 ^ 52) = -1#11) : BitVec.ofNat 52 c = 0#52 := by
  rw [infinity_binary64] at h
  have hnat : c / 2 ^ 52 = 2047 := (exponent_eq_iff (by omega) _).1 hexp
  rw [mantissa_eq_zero_iff]
  omega

/-- What is taken apart, by where the code stands. -/
theorem unpack_components (signed : Bool) {c : Nat} (h : c < 2 ^ 63) :
    let u := UnpackedFloat.unpack .binary64 (components signed c)
    (Format.binary64.infinity < c ∧ u = .notANumber)
    ∨ (c = Format.binary64.infinity ∧ u = .infinity (signOf signed))
    ∨ (c = 0 ∧ u = .zero (signOf signed))
    ∨ (0 < c ∧ c < Format.binary64.infinity ∧ ∃ m e hm, u = .finite (signOf signed) m e hm) := by
  have hfull := exponent_eq_iff h (-1#11)
  have hempty := exponent_eq_iff h 0#11
  have hman := mantissa_eq_zero_iff c
  have hmax : (-1#11).toNat = 2047 := rfl
  have hmin : (0#11).toNat = 0 := rfl
  rw [hmax] at hfull
  rw [hmin] at hempty
  rw [infinity_binary64]
  rcases unpack_packComponents (signOf signed) (BitVec.ofNat 11 (c / 2 ^ 52)) (BitVec.ofNat 52 c)
    with ⟨hE, hM, hu⟩ | ⟨hE, hM, hu⟩ | ⟨hE, hM, hu⟩ | ⟨hE, hM, hm, hu⟩ | ⟨hE, hE', hm, hu⟩
  · rw [hfull] at hE
    rw [hman] at hM
    exact .inr (.inl ⟨by omega, hu⟩)
  · rw [hfull] at hE
    rw [Ne, hman] at hM
    exact .inl ⟨by omega, hu⟩
  · rw [hempty] at hE
    rw [hman] at hM
    exact .inr (.inr (.inl ⟨by omega, hu⟩))
  · rw [hempty] at hE
    rw [Ne, hman] at hM
    exact .inr (.inr (.inr ⟨by omega, by omega, _, _, hm, hu⟩))
  · rw [Ne, hfull] at hE
    rw [Ne, hempty] at hE'
    exact .inr (.inr (.inr ⟨by omega, by omega, _, _, hm, hu⟩))

/-! ## Numbers -/

theorem float_ext {v w : Float} (h : v.toBits.toBitVec = w.toBits.toBitVec) : v = w := by
  obtain ⟨⟨⟨v⟩, hv⟩⟩ := v
  obtain ⟨⟨⟨w⟩, hw⟩⟩ := w
  obtain rfl : v = w := h
  rfl

theorem code_lt (v : Float) : code v < 2 ^ 63 := Nat.mod_lt _ (by decide)

theorem toBits_eq_components (v : Float) :
    v.toBits.toBitVec = components (isSigned v) (code v) := by
  have hv : v.toBits.toBitVec.toNat < 2 ^ 64 := v.toBits.toBitVec.isLt
  have hcode : code v = v.toBits.toBitVec.toNat % 2 ^ 63 := rfl
  have hsign : isSigned v = decide (2 ^ 63 ≤ v.toBits.toBitVec.toNat) := rfl
  apply BitVec.eq_of_toNat_eq
  rw [toNat_components (code_lt v), hsign]
  split <;> simp only [decide_eq_true_eq] at * <;> omega

/-- The finite numbers are those below infinity. -/
theorem isFinite_iff_code_lt (v : Float) :
    v.isFinite = true ↔ code v < Format.binary64.infinity := by
  change (UnpackedFloat.unpack .binary64 v.toBits.toBitVec).isFinite = true ↔ _
  rw [toBits_eq_components]
  have hpos : 0 < Format.binary64.infinity := by decide
  rcases unpack_components (isSigned v) (code_lt v) with
    ⟨hc, hu⟩ | ⟨hc, hu⟩ | ⟨hc, hu⟩ | ⟨-, hc, m, e, hm, hu⟩
  · rw [hu]
    exact ⟨fun h => (by cases h), fun h => by omega⟩
  · rw [hu]
    exact ⟨fun h => (by cases h), fun h => by omega⟩
  · rw [hu]
    exact ⟨fun _ => by omega, fun _ => rfl⟩
  · rw [hu]
    exact ⟨fun _ => hc, fun _ => rfl⟩

section

variable {signed : Bool} {c : Nat} (h : c ≤ Format.binary64.infinity)

include h

theorem lt_of_le_infinity : c < 2 ^ 63 := by
  rw [infinity_binary64] at h
  omega

theorem toBits_ofCode : (ofCode signed c : Float).toBits.toBitVec = components signed c := by
  have hlt := lt_of_le_infinity h
  have hbits : (UInt64.ofNat (if signed then 2 ^ 63 + c else c)).toBitVec
      = components signed c := by
    apply BitVec.eq_of_toNat_eq
    rw [toNat_components hlt]
    change (if signed then 2 ^ 63 + c else c) % 2 ^ 64 = _
    split <;> omega
  change UnpackedFloat.pack .binary64 (UnpackedFloat.unpack .binary64
    (UInt64.ofNat (if signed then 2 ^ 63 + c else c)).toBitVec) = _
  rw [hbits, components, ← withSign_unpack]
  exact pack_withSign_unpack (mantissa_eq_zero h)

theorem unpack_ofCode : (ofCode signed c : Float).toModel.unpack
    = UnpackedFloat.unpack .binary64 (components signed c) := by
  rw [← toBits_ofCode h]
  rfl

@[simp] theorem code_ofCode : code (ofCode signed c : Float) = c := by
  have hlt := lt_of_le_infinity h
  change (ofCode signed c : Float).toBits.toBitVec.toNat % 2 ^ 63 = c
  rw [toBits_ofCode h, toNat_components hlt]
  split <;> omega

@[simp] theorem isSigned_ofCode : isSigned (ofCode signed c : Float) = signed := by
  have hlt := lt_of_le_infinity h
  change decide (2 ^ 63 ≤ (ofCode signed c : Float).toBits.toBitVec.toNat) = signed
  rw [toBits_ofCode h, toNat_components hlt]
  cases signed with
  | true => exact decide_eq_true (Nat.le_add_right _ _)
  | false => exact decide_eq_false (Nat.not_le.mpr hlt)

theorem neg_ofCode : -(ofCode signed c : Float) = ofCode (!signed) c := by
  apply float_ext
  rw [toBits_ofCode h]
  change UnpackedFloat.pack .binary64 (ofCode signed c : Float).toModel.unpack.neg = _
  rw [unpack_ofCode h, components, ← withSign_unpack, neg_withSign]
  exact pack_withSign_unpack (mantissa_eq_zero h)

theorem abs_ofCode : (ofCode signed c : Float).abs = ofCode false c := by
  apply float_ext
  rw [toBits_ofCode h]
  change UnpackedFloat.pack .binary64 (ofCode signed c : Float).toModel.unpack.abs = _
  rw [unpack_ofCode h, components, abs_eq_withSign]
  exact pack_withSign_unpack (mantissa_eq_zero h)

/-- A number is less than zero if it has a sign and is no zero. -/
theorem ofCode_lt_zero : (ofCode signed c : Float) < 0 ↔ signed = true ∧ c ≠ 0 := by
  have hzero : (0 : Float).toModel.unpack = .zero .positive := rfl
  have hpos : Format.binary64.infinity ≠ 0 := by decide
  -- numbers are compared by their fields
  change decide ((ofCode signed c : Float).toModel < (0 : Float).toModel) = true ↔ _
  rw [decide_eq_true_iff]
  change (ofCode signed c : Float).toModel.unpack.lt (0 : Float).toModel.unpack = true ↔ _
  rw [unpack_ofCode h, hzero]
  rcases unpack_components signed (lt_of_le_infinity h) with
    ⟨hc, hu⟩ | ⟨hc, hu⟩ | ⟨hc, hu⟩ | ⟨hc, -, m, e, hm, hu⟩
  · omega
  · have hlt : (UnpackedFloat.infinity (signOf signed)).lt (.zero .positive) = signed := by
      cases signed <;> rfl
    rw [hu, hc, hlt]
    exact (and_iff_left hpos).symm
  · have hlt : (UnpackedFloat.zero (signOf signed)).lt (.zero .positive) = false := by
      cases signed <;> rfl
    rw [hu, hlt]
    exact ⟨fun hf => (by cases hf), fun hs => absurd hc hs.2⟩
  · have hlt : (UnpackedFloat.finite (signOf signed) m e hm).lt (.zero .positive) = signed := by
      cases signed <;> rfl
    rw [hu, hlt]
    exact (and_iff_left (Nat.ne_of_gt hc)).symm

end

/-- A number is made of its sign and its code. -/
theorem eq_ofCode {v : Float} (h : code v ≤ Format.binary64.infinity) :
    v = ofCode (isSigned v) (code v) := by
  apply float_ext
  rw [toBits_ofCode h, toBits_eq_components]

/-! ## Finite numbers -/

theorem negZero_eq_ofCode : (-0 : Float) = ofCode true 0 := by
  have hzero : (0 : Float) = ofCode false 0 := by decide +kernel
  rw [hzero, neg_ofCode (Nat.zero_le _), Bool.not_false]

section

variable {v : Float} (h : v.isFinite = true)

include h

theorem code_le_of_isFinite : code v ≤ Format.binary64.infinity :=
  Nat.le_of_lt ((isFinite_iff_code_lt v).1 h)

theorem abs_eq_ofCode : v.abs = ofCode false (code v) := by
  have hc := code_le_of_isFinite h
  conv => lhs; rw [eq_ofCode hc]
  exact abs_ofCode hc

theorem abs_of_not_isSigned (hs : isSigned v = false) : v.abs = v := by
  rw [abs_eq_ofCode h, ← hs, ← eq_ofCode (code_le_of_isFinite h)]

theorem neg_abs_of_isSigned (hs : isSigned v = true) : -v.abs = v := by
  rw [abs_eq_ofCode h, neg_ofCode (code_le_of_isFinite h), Bool.not_false, ← hs,
    ← eq_ofCode (code_le_of_isFinite h)]

theorem isFinite_abs : v.abs.isFinite = true := by
  rw [isFinite_iff_code_lt, abs_eq_ofCode h, code_ofCode (code_le_of_isFinite h)]
  exact (isFinite_iff_code_lt v).1 h

theorem isSigned_abs : isSigned v.abs = false := by
  rw [abs_eq_ofCode h, isSigned_ofCode (code_le_of_isFinite h)]

/-- The zero with a sign is the only number that has a sign and is not less than zero. -/
theorem lt_zero_iff : v < 0 ↔ isSigned v = true ∧ v ≠ -0 := by
  have hc := code_le_of_isFinite h
  have hlt : (ofCode (isSigned v) (code v) : Float) < 0 ↔ _ := ofCode_lt_zero hc
  rw [← eq_ofCode hc] at hlt
  rw [hlt]
  constructor
  · rintro ⟨hs, hne⟩
    refine ⟨hs, fun hv => hne ?_⟩
    rw [hv, negZero_eq_ofCode, code_ofCode (Nat.zero_le _)]
  · rintro ⟨hs, hne⟩
    refine ⟨hs, fun hzero => hne ?_⟩
    rw [eq_ofCode hc, hs, hzero, negZero_eq_ofCode]

end

/-! ## Infinity -/

/-- Infinity, which a decimal that is too large becomes. -/
def infinite : Float := ofCode false Format.binary64.infinity

theorem isFinite_infinite : infinite.isFinite = false := by decide +kernel

theorem text_infinite : text infinite = "inf" := by decide +kernel

theorem not_infinite_lt_zero : ¬ infinite < 0 := by decide +kernel

/-- A finite number is written as the shortest decimal for its magnitude, after its sign. -/
theorem text_of_isFinite {v : Float} (h : v.isFinite = true) :
    text v = if isSigned v then "-" ++ String.ofList (Format.binary64.shortest (code v)).chars
      else String.ofList (Format.binary64.shortest (code v)).chars := by
  have hlt := (isFinite_iff_code_lt v).1 h
  have hnan : ¬ (Binary.format Float).infinity < code v := Nat.not_lt.mpr (Nat.le_of_lt hlt)
  have hinf : code v ≠ (Binary.format Float).infinity := Nat.ne_of_lt hlt
  unfold text
  dsimp only
  rw [if_neg hnan, if_neg hinf]
  rfl

/-! ## Decimals -/

theorem Format.ofDecimal_le_infinity (f : Format) (d : Decimal) : f.ofDecimal d ≤ f.infinity :=
  Nat.min_le_right _ _

theorem isSigned_ofDecimal (d : Decimal) : isSigned (ofDecimal false d : Float) = false :=
  isSigned_ofCode (Format.binary64.ofDecimal_le_infinity d)

/-- A decimal that is not too large becomes a finite number, and any other becomes infinity. -/
theorem isFinite_ofDecimal (d : Decimal) :
    (ofDecimal false d : Float).isFinite = true ∨ ofDecimal false d = infinite := by
  have hle := Format.binary64.ofDecimal_le_infinity d
  rcases Nat.lt_or_eq_of_le hle with hlt | heq
  · left
    rw [isFinite_iff_code_lt]
    exact (code_ofCode hle).symm ▸ hlt
  · right
    exact congrArg (ofCode false) heq

/-- The digits that are written for a finite number are read as its magnitude. -/
theorem ofDecimal_shortest_spelled {v : Float} (h : v.isFinite = true) :
    ofDecimal false (.ofDigits (Format.binary64.shortest (code v)).spelled.1
      (Format.binary64.shortest (code v)).spelled.2) = v.abs := by
  have hread : Format.binary64.ofDecimal (.ofDigits (Format.binary64.shortest (code v)).spelled.1
      (Format.binary64.shortest (code v)).spelled.2) = code v := by
    rw [Format.ofDecimal, Decimal.ratio_ofDigits_spelled]
    exact Format.ofDecimal_shortest ((isFinite_iff_code_lt v).1 h)
  rw [abs_eq_ofCode h, ofDecimal]
  exact congrArg (ofCode false) hread

end Reckon.Number
