import Mathlib
import MixedInteger.Arithmetic.Binary64

/-!
# Binary floating-point numbers in order

A floating-point number is undefined or has a rank, by which all others are ordered: the infinities
come last on either side, a finite number goes by its sign, then its exponent and then its
significand, and both zeros have the same rank.  So the comparisons, which are false on an undefined
operand, are those of a linear order on all other numbers.

A magnitude and an opposite change the sign of a number and nothing else, and the product of zero
and any number is a zero or undefined.  No other result of an operation is looked at here.
-/

namespace MixedInteger

open Arithmetic Float.Model Float.Model.UnpackedFloat

namespace Binary64

/-! ## Ranks -/

/-- The place of a number among all others that are defined. -/
def unpackedRank : UnpackedFloat → ℤ ×ₗ ℤ ×ₗ ℤ
  | .notANumber => toLex (0, toLex (0, 0))
  | .infinity .negative => toLex (-2, toLex (0, 0))
  | .infinity .positive => toLex (2, toLex (0, 0))
  | .zero _ => toLex (0, toLex (0, 0))
  | .finite .negative m e _ => toLex (-1, toLex (-e, -m))
  | .finite .positive m e _ => toLex (1, toLex (e, m))

@[inherit_doc unpackedRank]
def rank (a : Float) : ℤ ×ₗ ℤ ×ₗ ℤ :=
  unpackedRank a.toModel.unpack

theorem compare_natCast (a b : ℕ) : compare (a : ℤ) b = compare a b := by
  have hmono : StrictMono fun k : ℕ ↦ (k : ℤ) := fun _ _ ↦ Int.ofNat_lt.2
  rw [← cmp_eq_compare, ← cmp_eq_compare]
  exact hmono.cmp_map_eq a b

theorem compare_neg (a b : ℤ) : compare (-a) (-b) = (compare a b).swap := by
  have hanti : StrictAnti fun k : ℤ ↦ -k := fun _ _ ↦ Int.neg_lt_neg
  rw [← cmp_eq_compare, ← cmp_eq_compare, cmp_swap]
  exact hanti.cmp_map_eq a b

/-- Defined numbers compare as their ranks do. -/
theorem compare_eq {a b : UnpackedFloat} (ha : a.isNaN = false) (hb : b.isNaN = false) :
    a.compare b = some (compare (unpackedRank a) (unpackedRank b)) := by
  cases a with
  | notANumber => cases ha
  | infinity s => cases b with
    | notANumber => cases hb
    | infinity t => cases s <;> cases t <;> rfl
    | zero t => cases s <;> rfl
    | finite t => cases s <;> cases t <;> rfl
  | zero s => cases b with
    | notANumber => cases hb
    | infinity t => cases t <;> rfl
    | zero t => rfl
    | finite t => cases t <;> rfl
  | finite s m₁ e₁ => cases b with
    | notANumber => cases hb
    | infinity t => cases s <;> cases t <;> rfl
    | zero t => cases s <;> rfl
    | finite t m₂ e₂ => cases s with
      | negative => cases t with
        | negative =>
          change some ((compare e₁ e₂).then (compare m₁ m₂)).swap =
            some ((compare (-e₁) (-e₂)).then (compare (-(m₁ : ℤ)) (-m₂)))
          rw [compare_neg, compare_neg, compare_natCast, Ordering.swap_then]
        | positive => rfl
      | positive => cases t with
        | negative => rfl
        | positive =>
          change some ((compare e₁ e₂).then (compare m₁ m₂)) =
            some ((compare e₁ e₂).then (compare (m₁ : ℤ) m₂))
          rw [compare_natCast]

theorem compare_of_isNaN {a b : UnpackedFloat} (h : ¬ (a.isNaN = false ∧ b.isNaN = false)) :
    a.compare b = none := by
  cases a with
  | notANumber => rfl
  | _ => cases b with
    | notANumber => rfl
    | _ => exact absurd ⟨rfl, rfl⟩ h

theorem unpacked_lt_iff {a b : UnpackedFloat} : a.lt b = true ↔
    (a.isNaN = false ∧ b.isNaN = false) ∧ unpackedRank a < unpackedRank b := by
  unfold UnpackedFloat.lt
  by_cases h : a.isNaN = false ∧ b.isNaN = false
  · rw [compare_eq h.1 h.2, and_iff_right h, beq_iff_eq, Option.some.injEq]
    exact compare_lt_iff_lt
  · rw [compare_of_isNaN h]
    exact iff_of_false Bool.false_ne_true fun hlt ↦ h hlt.1

theorem unpacked_le_iff {a b : UnpackedFloat} : a.le b = true ↔
    (a.isNaN = false ∧ b.isNaN = false) ∧ unpackedRank a ≤ unpackedRank b := by
  unfold UnpackedFloat.le
  by_cases h : a.isNaN = false ∧ b.isNaN = false
  · rw [compare_eq h.1 h.2, and_iff_right h, Option.any_some, Ordering.isLE_iff_ne_gt]
    exact compare_le_iff_le
  · rw [compare_of_isNaN h]
    exact iff_of_false Bool.false_ne_true fun hle ↦ h hle.1

/-! ## Comparisons -/

variable {a b c : Float}

protected theorem lt_iff : a < b ↔ (a.isNaN = false ∧ b.isNaN = false) ∧ rank a < rank b :=
  decide_eq_true_iff.trans unpacked_lt_iff

protected theorem le_iff : a ≤ b ↔ (a.isNaN = false ∧ b.isNaN = false) ∧ rank a ≤ rank b :=
  decide_eq_true_iff.trans unpacked_le_iff

protected theorem lt_trans (hab : a < b) (hbc : b < c) : a < c := by
  rw [Binary64.lt_iff] at hab hbc ⊢
  exact ⟨⟨hab.1.1, hbc.1.2⟩, hab.2.trans hbc.2⟩

protected theorem not_lt (ha : a.isNaN = false) (hb : b.isNaN = false) : ¬ a < b ↔ b ≤ a := by
  rw [Binary64.lt_iff, Binary64.le_iff, and_iff_right ⟨ha, hb⟩, and_iff_right ⟨hb, ha⟩, not_lt]

/-! ## Kinds of numbers -/

theorem isUndefined_eq (a : Float) : isUndefined a = a.isNaN := by
  rw [isUndefined, Bool.eq_iff_iff, Bool.not_eq_true', decide_eq_false_iff_not, Binary64.le_iff]
  simp

theorem rank_infinity : rank Arithmetic.infinity = toLex (2, toLex (0, 0)) := rfl

theorem rank_neg_infinity : rank (-Arithmetic.infinity) = toLex (-2, toLex (0, 0)) := rfl

theorem isFinite_eq (a : Float) : Arithmetic.isFinite a = a.isFinite := by
  rw [Arithmetic.isFinite, Bool.eq_iff_iff, Bool.and_eq_true, decide_eq_true_eq,
    decide_eq_true_eq, Binary64.lt_iff, Binary64.lt_iff, rank_infinity, rank_neg_infinity]
  unfold rank Float.isNaN Float.isFinite Float.Model.isNaN Float.Model.isFinite
  have hinfinity : (Arithmetic.infinity : Float).toModel.unpack.isNaN = false := rfl
  have hneg : (-Arithmetic.infinity : Float).toModel.unpack.isNaN = false := rfl
  rw [hinfinity, hneg]
  cases a.toModel.unpack with
  | finite s =>
    cases s <;>
      simp [unpackedRank, UnpackedFloat.isNaN, UnpackedFloat.isFinite, Prod.Lex.toLex_lt_toLex]
  | infinity s => cases s <;> simp [unpackedRank, UnpackedFloat.isNaN, UnpackedFloat.isFinite]
  | _ => simp [unpackedRank, UnpackedFloat.isNaN, UnpackedFloat.isFinite, Prod.Lex.toLex_lt_toLex]

/-- A finite number is defined. -/
theorem isNaN_of_isFinite (ha : a.isFinite = true) : a.isNaN = false := by
  change a.toModel.unpack.isFinite = true at ha
  change a.toModel.unpack.isNaN = false
  cases hu : a.toModel.unpack with
  | notANumber =>
    rw [hu] at ha
    cases ha
  | _ => rfl

/-- A defined number is infinite or finite. -/
theorem isInfinite_eq (ha : a.isNaN = false) : Arithmetic.isInfinite a = !a.isFinite := by
  have hinfinity : (Arithmetic.infinity : Float).isNaN = false := rfl
  have hneg : (-Arithmetic.infinity : Float).isNaN = false := rfl
  rw [← isFinite_eq, Arithmetic.isInfinite, Arithmetic.isFinite, Bool.eq_iff_iff, Bool.or_eq_true,
    Bool.not_and, Bool.or_eq_true, Bool.not_eq_true', Bool.not_eq_true', decide_eq_true_eq,
    decide_eq_true_eq, decide_eq_false_iff_not, decide_eq_false_iff_not, Binary64.not_lt hneg ha,
    Binary64.not_lt ha hinfinity]

theorem unpack_injective : Function.Injective fun a : Float ↦ a.toModel.unpack := by
  intro a b h
  rw [← Float.toBits_inj, ← UInt64.toBitVec_inj]
  exact (unpack_inj_of_valid a.toModel.valid b.toModel.valid).1 h

/-- The infinities come before and after all other numbers. -/
theorem rank_cases (a : Float) :
    a = Arithmetic.infinity ∨ a = -Arithmetic.infinity ∨
      (rank (-Arithmetic.infinity) < rank a ∧ rank a < rank Arithmetic.infinity) := by
  rw [rank_infinity, rank_neg_infinity, rank]
  cases hu : a.toModel.unpack with
  | infinity s => cases s with
    | positive => exact .inl (unpack_injective hu)
    | negative => exact .inr (.inl (unpack_injective hu))
  | finite s => cases s <;> simp [unpackedRank, Prod.Lex.toLex_lt_toLex]
  | _ => simp [unpackedRank, Prod.Lex.toLex_lt_toLex]

theorem infinity_le_iff : Arithmetic.infinity ≤ a ↔ a = Arithmetic.infinity := by
  constructor
  · intro h
    obtain ⟨-, hrank⟩ := Binary64.le_iff.1 h
    rcases rank_cases a with rfl | rfl | ⟨-, hlt⟩
    · rfl
    · exact absurd hrank (by decide)
    · exact absurd hlt (not_lt.2 hrank)
  · rintro rfl
    exact Binary64.le_iff.2 ⟨⟨rfl, rfl⟩, le_rfl⟩

/-- No number lies above the infinity. -/
theorem not_infinity_lt (a : Float) : ¬ Arithmetic.infinity < a := by
  intro h
  obtain ⟨⟨-, hdefined⟩, hrank⟩ := Binary64.lt_iff.1 h
  have hle : Arithmetic.infinity ≤ a := Binary64.le_iff.2 ⟨⟨rfl, hdefined⟩, hrank.le⟩
  rw [infinity_le_iff.1 hle] at hrank
  exact lt_irrefl _ hrank

theorem le_neg_infinity_iff : a ≤ -Arithmetic.infinity ↔ a = -Arithmetic.infinity := by
  constructor
  · intro h
    obtain ⟨-, hrank⟩ := Binary64.le_iff.1 h
    rcases rank_cases a with rfl | rfl | ⟨hlt, -⟩
    · exact absurd hrank (by decide)
    · rfl
    · exact absurd hlt (not_lt.2 hrank)
  · rintro rfl
    exact Binary64.le_iff.2 ⟨⟨rfl, rfl⟩, le_rfl⟩

/-! ## Signs -/

/-- An unpacked number with another sign. -/
def withSign (s : Sign) : UnpackedFloat → UnpackedFloat
  | .notANumber => .notANumber
  | .infinity _ => .infinity s
  | .zero _ => .zero s
  | .finite _ m e hm => .finite s m e hm

theorem unpack_packComponents {spec : Format} (s t : Sign) (e : BitVec spec.exponentBits)
    (m : BitVec spec.mantissaBitsWithoutImplicit) :
    UnpackedFloat.unpack spec (packComponents spec s e m) =
      withSign s (UnpackedFloat.unpack spec (packComponents spec t e m)) := by
  unfold UnpackedFloat.unpack
  simp only [unpackMantissa_packComponents, unpackExponent_packComponents,
    unpackSign_packComponents, Sign.ofBitVec_toBitVec]
  split_ifs <;> rfl

/-- The sign of a number is packed and unpacked apart from the rest. -/
theorem unpack_pack_withSign (s : Sign) (u : UnpackedFloat) :
    (pack (withSign s u)).unpack = withSign s (pack u).unpack := by
  cases u with
  | notANumber =>
    change UnpackedFloat.unpack .binary64 (packedNaN .binary64) =
      withSign s (UnpackedFloat.unpack .binary64 (packedNaN .binary64))
    rw [unpack_packedNaN]
    rfl
  | infinity t => exact unpack_packComponents s t _ _
  | zero t => exact unpack_packComponents s t _ _
  | finite t m e hm =>
    change UnpackedFloat.unpack .binary64 (UnpackedFloat.pack .binary64 (.finite s m e hm)) =
      withSign s (UnpackedFloat.unpack .binary64 (UnpackedFloat.pack .binary64 (.finite t m e hm)))
    unfold UnpackedFloat.pack
    dsimp only
    split_ifs
    · exact unpack_packComponents s t _ _
    · exact unpack_packComponents s t _ _
    · exact unpack_packComponents s t _ _

theorem unpack_pack_unpack (a : Float) : (pack a.toModel.unpack).unpack = a.toModel.unpack :=
  congrArg (UnpackedFloat.unpack .binary64) (pack_unpack_of_valid a.toModel.valid)

theorem unpack_abs (a : Float) : a.abs.toModel.unpack = withSign .positive a.toModel.unpack := by
  have habs : a.toModel.unpack.abs = withSign .positive a.toModel.unpack := by
    cases a.toModel.unpack <;> rfl
  calc
    a.abs.toModel.unpack = (pack (withSign .positive a.toModel.unpack)).unpack :=
      congrArg (fun u ↦ (pack u).unpack) habs
    _ = withSign .positive a.toModel.unpack := by rw [unpack_pack_withSign, unpack_pack_unpack]

theorem unpack_neg (a : Float) : (-a).toModel.unpack = a.toModel.unpack.neg := by
  obtain ⟨s, hs⟩ : ∃ s, a.toModel.unpack.neg = withSign s a.toModel.unpack := by
    cases a.toModel.unpack with
    | notANumber => exact ⟨.positive, rfl⟩
    | _ => exact ⟨_, rfl⟩
  calc
    (-a).toModel.unpack = (pack (withSign s a.toModel.unpack)).unpack :=
      congrArg (fun u ↦ (pack u).unpack) hs
    _ = a.toModel.unpack.neg := by rw [unpack_pack_withSign, unpack_pack_unpack, hs]

theorem isNaN_abs (a : Float) : a.abs.isNaN = a.isNaN := by
  change a.abs.toModel.unpack.isNaN = a.toModel.unpack.isNaN
  rw [unpack_abs]
  cases a.toModel.unpack <;> rfl

theorem isFinite_abs (a : Float) : a.abs.isFinite = a.isFinite := by
  change a.abs.toModel.unpack.isFinite = a.toModel.unpack.isFinite
  rw [unpack_abs]
  cases a.toModel.unpack <;> rfl

/-- The magnitude of a defined number that is not finite is infinite. -/
theorem abs_of_not_finite (hdefined : a.isNaN = false) (h : ¬ a.isFinite = true) :
    a.abs = Arithmetic.infinity := by
  change a.toModel.unpack.isNaN = false at hdefined
  change ¬ a.toModel.unpack.isFinite = true at h
  apply unpack_injective
  change a.abs.toModel.unpack = .infinity .positive
  rw [unpack_abs]
  cases hu : a.toModel.unpack with
  | notANumber =>
    rw [hu] at hdefined
    cases hdefined
  | infinity s => rfl
  | _ =>
    rw [hu] at h
    exact absurd rfl h

/-! ## Products with zero -/

theorem rank_pack_zero (s : Sign) :
    unpackedRank (pack (.zero s)).unpack = toLex (0, toLex (0, 0)) := by
  cases s <;> rfl

theorem isNaN_pack_notANumber : (pack .notANumber).unpack.isNaN = true := rfl

/-- The product of zero and a number is a zero, if it is defined. -/
theorem rank_zero_mul (h : (0 * a).isNaN = false) : rank (0 * a) = toLex (0, toLex (0, 0)) := by
  change (pack (UnpackedFloat.mul .binary64 (.zero .positive) a.toModel.unpack)).unpack.isNaN =
    false at h
  change unpackedRank
    (pack (UnpackedFloat.mul .binary64 (.zero .positive) a.toModel.unpack)).unpack = _
  cases hu : a.toModel.unpack with
  | zero s => exact rank_pack_zero _
  | finite s => exact rank_pack_zero _
  | _ =>
    rw [hu] at h
    exact absurd (isNaN_pack_notANumber.symm.trans h) Bool.noConfusion

/-- The opposite of a number that is not negative is not positive. -/
theorem rank_neg (h : 0 ≤ a) : rank (-a) ≤ toLex (0, toLex (0, 0)) := by
  obtain ⟨⟨-, hdefined⟩, hrank⟩ := Binary64.le_iff.1 h
  change toLex (0, toLex (0, 0)) ≤ unpackedRank a.toModel.unpack at hrank
  rw [rank, unpack_neg]
  cases hu : a.toModel.unpack with
  | notANumber => exact le_rfl
  | zero s => exact le_rfl
  | infinity s => cases s with
    | positive => decide
    | negative => exact absurd (hu ▸ hrank) (by decide)
  | finite s m e hm => cases s with
    | positive => simp [UnpackedFloat.neg, unpackedRank, Prod.Lex.toLex_le_toLex]
    | negative => simp [hu, unpackedRank, Prod.Lex.toLex_le_toLex] at hrank

theorem not_zero_mul_lt {tolerance : Float} (htolerance : 0 ≤ tolerance) (a : Float) :
    ¬ 0 * a < -tolerance := by
  intro h
  obtain ⟨⟨hdefined, -⟩, hrank⟩ := Binary64.lt_iff.1 h
  rw [rank_zero_mul hdefined] at hrank
  exact absurd (rank_neg htolerance) (not_le.2 hrank)

end Binary64

end MixedInteger
