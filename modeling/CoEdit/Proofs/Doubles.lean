import CoEdit.Backoff
import Mathlib.Algebra.Group.Nat.Defs

/-!
# Doubles

What a backoff needs to know of its arithmetic, in the logical model of doubles. A double unpacks to a
sign, a mantissa below `2 ^ 53` and an exponent of at least `-1074` (`Canonical`). Adding doubles raises
their exponents by two at most (`Below.add`), so the way between one less and one more than a number from
zero to one is of finite length (`isFinite_spread`). Truncation keeps the order of doubles
(`toUInt64_le_of_not_lt`), so that a delay that is not above its ceiling is no more milliseconds long
(`whole_least_le`).
-/

namespace CoEdit.Doubles

open Float.Model UnpackedFloat

/-- What an unpacked double is like. -/
def Canonical : UnpackedFloat → Prop
  | .finite _ m e _ => m < 2 ^ 53 ∧ -1074 ≤ e ∧ (2 ^ 52 ≤ m ∨ e = -1074)
  | _ => True

/-- Zero, or a finite number with an exponent from the least one up to `k`. -/
def Below (k : Int) : UnpackedFloat → Prop
  | .zero _ => True
  | .finite _ m e _ => m < 2 ^ 53 ∧ -1074 ≤ e ∧ e ≤ k
  | _ => False

variable {x y : UnpackedFloat} {k : Int}

theorem Below.mono (h : Below k x) {l : Int} (hkl : k ≤ l) : Below l x := by
  cases x with
  | finite s m e hm => exact ⟨h.1, h.2.1, Int.le_trans h.2.2 hkl⟩
  | _ => exact h

theorem Below.isFinite (h : Below k x) : x.isFinite := by
  cases x <;> first | rfl | exact h.elim

theorem toNat_implicit (m : BitVec 52) : (1#1 ++ m).toNat = 2 ^ 52 + m.toNat := by
  rw [BitVec.toNat_append, ← Nat.shiftLeft_add_eq_or_of_lt m.isLt]
  rfl

section
variable (b : BitVec Format.binary64.numBits)

/-- The four kinds of doubles, by their exponent bits. -/
theorem unpack_cases :
    ((unpackExponent b).toNat = 2047 ∧ unpackMantissa b = 0#_ ∧
        unpack Format.binary64 b = .infinity (Sign.ofBitVec (unpackSign b)) ∨
      (unpackExponent b).toNat = 2047 ∧ unpackMantissa b ≠ 0#_ ∧
        unpack Format.binary64 b = .notANumber) ∨
    (unpackExponent b).toNat < 2047 ∧
      ((∃ s, unpack Format.binary64 b = .zero s) ∨
        ∃ s m e hm, unpack Format.binary64 b = .finite s m e hm ∧ m < 2 ^ 53 ∧ -1074 ≤ e ∧
          (2 ^ 52 ≤ m ∨ e = -1074) ∧ e ≤ max (((unpackExponent b).toNat : Int) - 1075) (-1074)) := by
  have hm : (unpackMantissa b).toNat < 2 ^ 52 := (unpackMantissa b).isLt
  have he : (unpackExponent b).toNat < 2 ^ 11 := (unpackExponent b).isLt
  have hbias : (Format.binary64.exponentBias : Int) = 1023 := rfl
  unfold UnpackedFloat.unpack; dsimp only
  rw [hbias]
  by_cases hones : unpackExponent b = -1#_
  · rw [if_pos hones]
    have hones : (unpackExponent b).toNat = 2047 := by rw [hones]; rfl
    by_cases hzero : unpackMantissa b = 0#_
    · rw [if_pos hzero]
      exact .inl (.inl ⟨hones, hzero, rfl⟩)
    · rw [if_neg hzero]
      exact .inl (.inr ⟨hones, hzero, rfl⟩)
  · rw [if_neg hones]
    have hlt : (unpackExponent b).toNat < 2047 := by
      have : (unpackExponent b).toNat ≠ 2047 := fun h => hones (BitVec.eq_of_toNat_eq h)
      omega
    refine .inr ⟨hlt, ?_⟩
    by_cases hleast : unpackExponent b = 0#_
    · rw [if_pos hleast]
      have hleast : (unpackExponent b).toNat = 0 := by rw [hleast]; rfl
      by_cases hzero : unpackMantissa b = 0#_
      · rw [dif_pos hzero]
        exact .inl ⟨_, rfl⟩
      · rw [dif_neg hzero]
        have hpos := Nat.pos_of_ne_zero fun h => hzero (BitVec.eq_of_toNat_eq h)
        refine .inr ⟨_, _, _, hpos, rfl, ?_, ?_, .inr ?_, ?_⟩ <;> omega
    · rw [if_neg hleast]
      have hleast : (unpackExponent b).toNat ≠ 0 := fun h => hleast (BitVec.eq_of_toNat_eq h)
      refine .inr ⟨_, _, _, by rw [toNat_implicit]; omega, rfl, ?_, ?_, .inl ?_, ?_⟩
      · rw [toNat_implicit]; omega
      · omega
      · rw [toNat_implicit]; omega
      · omega

theorem canonical_unpack : Canonical (unpack Format.binary64 b) := by
  rcases unpack_cases b with (⟨-, -, h⟩ | ⟨-, -, h⟩) | ⟨-, ⟨s, h⟩ | ⟨s, m, e, hm, h, hlt, hlo, hn, -⟩⟩
  all_goals rw [h]
  · trivial
  · trivial
  · trivial
  · exact ⟨hlt, hlo, hn⟩

variable {b}

theorem below_unpack (hk : -1074 ≤ k) (hlt : k < 972)
    (h : ((unpackExponent b).toNat : Int) ≤ k + 1075) : Below k (unpack Format.binary64 b) := by
  rcases unpack_cases b with (⟨he, -⟩ | ⟨he, -⟩) | ⟨-, ⟨s, h'⟩ | ⟨s, m, e, hm, h', hlt, hlo, -, hle⟩⟩
  · omega
  · omega
  · rw [h']; trivial
  · rw [h']; exact ⟨hlt, hlo, by omega⟩

end

theorem Below.unpack_pack (h : Below k x) (hk : -1074 ≤ k) (hlt : k < 972) :
    Below k (unpack Format.binary64 (UnpackedFloat.pack Format.binary64 x)) := by
  have hbias : (Format.binary64.exponentBias : Int) = 1023 := rfl
  refine below_unpack hk hlt ?_
  cases x with
  | zero s =>
    unfold UnpackedFloat.pack packedZero; dsimp only
    rw [unpackExponent_packComponents]
    show ((0 : Nat) : Int) ≤ _
    omega
  | finite s m e hm =>
    obtain ⟨-, hlo, he⟩ := h
    unfold UnpackedFloat.pack; dsimp only
    rw [hbias, if_neg (by omega)]
    split
    · rw [unpackExponent_packComponents, BitVec.toNat_ofNat]
      have := Nat.mod_le (e + 1023 + 52).toNat (2 ^ 11)
      omega
    · rw [unpackExponent_packComponents]
      show ((0 : Nat) : Int) ≤ _
      omega
  | _ => exact h.elim

theorem mantissa_shiftRight (em : ExtendedMantissa) (n : Nat) :
    (em >>> n).mantissa = em.mantissa / 2 ^ n := by
  induction n with
  | zero => simp [HShiftRight.hShiftRight, Nat.repeat]
  | succ n ih =>
    show (ExtendedMantissa.shiftRightOne (em >>> n)).mantissa = _
    simp only [ExtendedMantissa.shiftRightOne, ih, Nat.div_div_eq_div_mul, Nat.pow_succ]

theorem roundedMantissa_bounds (em : ExtendedMantissa) :
    em.mantissa ≤ em.roundedMantissa ∧ em.roundedMantissa ≤ em.mantissa + 1 := by
  unfold ExtendedMantissa.roundedMantissa
  cases em.accuracy with
  | exact => exact ⟨Nat.le_refl _, Nat.le_succ _⟩
  | inexact o => cases o <;> simp only [Accuracy.roundToNearestEven] <;> omega

/-- How far a mantissa is shifted to have at most 53 bits. -/
def shift (m : Nat) (e : Int) : Nat := (max ((m.log2 : Int) + 1 + e - 53) (-1074) - e).toNat

theorem shift_bounds {m : Nat} {e : Int} (hm : 0 < m) (he : -1074 ≤ e) :
    0 < m / 2 ^ shift m e ∧ m / 2 ^ shift m e < 2 ^ 53 := by
  have hlow := Nat.log2_self_le (Nat.ne_of_gt hm)
  have hhigh : m < 2 ^ (m.log2 + 1) := Nat.lt_log2_self
  unfold shift
  generalize m.log2 = l at *
  by_cases hl : 52 ≤ l
  · have hshift : (max ((l : Int) + 1 + e - 53) (-1074) - e).toNat = l - 52 := by omega
    have hl₁ : 2 ^ l = 2 ^ 52 * 2 ^ (l - 52) := by rw [← Nat.pow_add]; congr 1; omega
    have hl₂ : 2 ^ (l + 1) = 2 ^ 53 * 2 ^ (l - 52) := by rw [← Nat.pow_add]; congr 1; omega
    rw [hshift]
    constructor
    · refine Nat.div_pos (Nat.le_trans ?_ hlow) (Nat.two_pow_pos _)
      rw [hl₁]
      exact Nat.le_mul_of_pos_left _ (Nat.two_pow_pos _)
    · rw [Nat.div_lt_iff_lt_mul (Nat.two_pow_pos _), ← hl₂]
      exact hhigh
  · have hshift : (max ((l : Int) + 1 + e - 53) (-1074) - e).toNat = 0 := by omega
    rw [hshift, Nat.pow_zero, Nat.div_one]
    exact ⟨hm, Nat.lt_of_lt_of_le hhigh (Nat.pow_le_pow_right (by decide) (by omega))⟩

theorem shift_le {m : Nat} {e : Int} {n : Nat} (hm : 0 < m) (he : e ≤ k) (hk : -1074 ≤ k)
    (h : m < 2 ^ (n + (k - e).toNat)) (hn : 53 ≤ n) : e + shift m e ≤ k + (n - 53) := by
  have hlog : m.log2 < n + (k - e).toNat := (Nat.log2_lt (Nat.ne_of_gt hm)).2 h
  unfold shift
  omega

/-- Rounding a mantissa of 54 bits over the exponent `k` raises the exponent by two at most: once to
shift the mantissa, and once more if it then carries. -/
theorem below_roundWithAccuracy {s : Sign} {m : Nat} {e : Int} (hm : 0 < m) (he : -1074 ≤ e)
    (hk : e ≤ k) (h : m < 2 ^ (54 + (k - e).toNat)) :
    Below (k + 2) (roundWithAccuracy Format.binary64 s m e .exact) := by
  obtain ⟨hpos, hlt⟩ := shift_bounds hm he
  have hle := shift_le hm hk (Int.le_trans he hk) h (by decide)
  let em := ExtendedMantissa.ofMantissaAndAccuracy m .exact >>> shift m e
  have hem : em.mantissa = m / 2 ^ shift m e := mantissa_shiftRight ..
  obtain ⟨hr₁, hr₂⟩ := roundedMantissa_bounds em
  have hr : 0 < em.roundedMantissa := by omega
  have he' : -1074 ≤ e + shift m e := by omega
  have hb := shift_bounds hr he'
  have hle' : e + shift m e + shift em.roundedMantissa (e + shift m e) ≤ k + 1 + (54 - 53 : Nat) := by
    refine shift_le hr hle (by omega) ?_ (Nat.le_succ 53)
    calc em.roundedMantissa ≤ 2 ^ 53 := by omega
      _ < 2 ^ 54 := by decide
      _ ≤ 2 ^ (54 + (k + 1 - (e + shift m e)).toNat) :=
        Nat.pow_le_pow_right (by decide) (Nat.le_add_right ..)
  let final := (ExtendedMantissa.ofMantissaAndAccuracy em.roundedMantissa .exact >>>
    shift em.roundedMantissa (e + shift m e)).mantissa
  show Below (k + 2) (if hz : final = 0 then _ else .finite _ final _ _)
  by_cases hz : final = 0
  · rw [dif_pos hz]
    trivial
  · rw [dif_neg hz]
    refine ⟨?_, ?_, ?_⟩
    · exact Nat.lt_of_le_of_lt (Nat.le_of_eq (mantissa_shiftRight ..)) hb.2
    · show -1074 ≤ e + shift m e + (shift em.roundedMantissa (e + shift m e) : Int)
      omega
    · show e + shift m e + (shift em.roundedMantissa (e + shift m e) : Int) ≤ _
      omega

theorem below_normalize {m e : Int} {s : Sign} (he : -1074 ≤ e) (hk : e ≤ k)
    (h : m.natAbs < 2 ^ (54 + (k - e).toNat)) : Below (k + 2) (normalize Format.binary64 m e s) := by
  have hround (s : Sign) {m : Nat} (hm : 0 < m) (h : m < 2 ^ (54 + (k - e).toNat)) :
      Below (k + 2) (round Format.binary64 s m e) := by
    have hlog : m.log2 < 54 + (k - e).toNat := (Nat.log2_lt (Nat.ne_of_gt hm)).2 h
    let a := (e - Format.binary64.targetExponent (totalExponent m e)).toNat
    have ha : a = (e - max ((m.log2 : Int) + 1 + e - 53) (-1074)).toNat := rfl
    show Below (k + 2) (roundWithAccuracy Format.binary64 s (m <<< a) (e - a) .exact)
    rw [Nat.shiftLeft_eq]
    refine below_roundWithAccuracy (Nat.mul_pos hm (Nat.two_pow_pos _)) (by omega) (by omega) ?_
    have hexp : 54 + (k - (e - a)).toNat = 54 + (k - e).toNat + a := by omega
    rw [hexp, Nat.pow_add]
    exact Nat.mul_lt_mul_of_pos_right h (Nat.two_pow_pos _)
  unfold UnpackedFloat.normalize
  split
  · rename_i hc
    have := Int.compare_eq_lt.1 hc
    exact hround _ (by omega) (by omega)
  · trivial
  · rename_i hc
    have := Int.compare_eq_gt.1 hc
    exact hround _ (by omega) (by omega)

theorem natAbs_apply (s : Sign) (m : Nat) : (s.apply m).natAbs = m := by
  cases s <;> simp [Sign.apply]

theorem aligned_lt {m : Nat} {e l : Int} (hm : m < 2 ^ 53) (hk : e ≤ k) :
    m <<< (e - l).toNat < 2 ^ (53 + (k - l).toNat) := by
  rw [Nat.shiftLeft_eq]
  calc m * 2 ^ (e - l).toNat < 2 ^ 53 * 2 ^ (e - l).toNat :=
        Nat.mul_lt_mul_of_pos_right hm (Nat.two_pow_pos _)
    _ = 2 ^ (53 + (e - l).toNat) := (Nat.pow_add ..).symm
    _ ≤ 2 ^ (53 + (k - l).toNat) := Nat.pow_le_pow_right (by decide) (by omega)

theorem below_combined {s s₁ s₂ : Sign} {m₁ m₂ : Nat} {e₁ e₂ m : Int} {hm₁ : 0 < m₁} {hm₂ : 0 < m₂}
    (h₁ : Below k (.finite s₁ m₁ e₁ hm₁)) (h₂ : Below k (.finite s₂ m₂ e₂ hm₂))
    (hm : m.natAbs ≤ m₁ <<< (e₁ - min e₁ e₂).toNat + m₂ <<< (e₂ - min e₁ e₂).toNat) :
    Below (k + 2) (normalize Format.binary64 m (min e₁ e₂) s) := by
  obtain ⟨hlt₁, hlo₁, hle₁⟩ := h₁
  obtain ⟨hlt₂, hlo₂, hle₂⟩ := h₂
  refine below_normalize (by omega) (by omega) ?_
  have h₁ : _ < 2 ^ (53 + (k - min e₁ e₂).toNat) := aligned_lt hlt₁ hle₁
  have h₂ : _ < 2 ^ (53 + (k - min e₁ e₂).toNat) := aligned_lt hlt₂ hle₂
  have hpow : 2 ^ (54 + (k - min e₁ e₂).toNat) = 2 * 2 ^ (53 + (k - min e₁ e₂).toNat) := by
    rw [← Nat.pow_succ']; congr 1; omega
  omega

theorem Below.add (hx : Below k x) (hy : Below k y) :
    Below (k + 2) (UnpackedFloat.add Format.binary64 x y) := by
  have hk : k ≤ k + 2 := by omega
  cases x with
  | zero s₁ =>
    cases y with
    | zero s₂ =>
      show Below _ (if _ then _ else _)
      split <;> trivial
    | finite => exact hy.mono hk
    | _ => exact hy.elim
  | finite s₁ m₁ e₁ hm₁ =>
    cases y with
    | zero s₂ => exact hx.mono hk
    | finite s₂ m₂ e₂ hm₂ =>
      refine below_combined hx hy (Nat.le_trans (Int.natAbs_add_le ..) (Nat.le_of_eq ?_))
      rw [natAbs_apply, natAbs_apply]
    | _ => exact hy.elim
  | _ => exact hx.elim

theorem Below.sub (hx : Below k x) (hy : Below k y) :
    Below (k + 2) (UnpackedFloat.sub Format.binary64 x y) := by
  have hk : k ≤ k + 2 := by omega
  cases x with
  | zero s₁ =>
    cases y with
    | zero s₂ =>
      show Below _ (if _ then _ else _)
      split <;> trivial
    | finite => exact hy.mono hk
    | _ => exact hy.elim
  | finite s₁ m₁ e₁ hm₁ =>
    cases y with
    | zero s₂ => exact hx.mono hk
    | finite s₂ m₂ e₂ hm₂ =>
      refine below_combined hx hy (Nat.le_trans (Int.natAbs_sub_le ..) (Nat.le_of_eq ?_))
      rw [natAbs_apply, natAbs_apply]
    | _ => exact hy.elim
  | _ => exact hx.elim

/-! ### The order of doubles -/

theorem compare_swap (x y : UnpackedFloat) : y.compare x = (x.compare y).map Ordering.swap := by
  have hlex (e₁ e₂ : Int) (m₁ m₂ : Nat) : ((compare e₂ e₁).then (compare m₂ m₁)) =
      ((compare e₁ e₂).then (compare m₁ m₂)).swap := by
    rw [Ordering.swap_then, Int.compare_swap, Nat.compare_swap]
  rcases x with (_ | _) | _ | _ | ⟨_ | _, _, _, _⟩ <;>
    rcases y with (_ | _) | _ | _ | ⟨_ | _, _, _, _⟩ <;>
    first | rfl | exact congrArg some (hlex ..) | exact congrArg some (congrArg Ordering.swap (hlex ..))

theorem compare_isSome (hx : x.isNaN = false) (hy : y.isNaN = false) : (x.compare y).isSome := by
  rcases x with (_ | _) | _ | _ | ⟨_ | _, _, _, _⟩ <;>
    rcases y with (_ | _) | _ | _ | ⟨_ | _, _, _, _⟩ <;> 
    first | rfl | exact Bool.noConfusion hx | exact Bool.noConfusion hy

/-- The absolute value of a finite number, cut off to a whole one. -/
def magnitude (m : Nat) (e : Int) : Nat := m * 2 ^ (e + 1074).toNat / 2 ^ 1074

theorem magnitude_eq {m : Nat} {e : Int} (he : -1074 ≤ e) :
    m * 2 ^ e.toNat / 2 ^ (-e).toNat = magnitude m e := by
  unfold magnitude
  generalize hc : 1074 = c at *
  rcases Int.le_total 0 e with h | h
  · have h₁ : (-e).toNat = 0 := by omega
    have h₂ : (e + 1074).toNat = e.toNat + c := by omega
    rw [h₁, Nat.pow_zero, Nat.div_one, show (e + (1074 : Int)).toNat = e.toNat + c from h₂, Nat.pow_add,
      ← Nat.mul_assoc, Nat.mul_div_cancel _ (Nat.two_pow_pos _)]
  · have h₁ : e.toNat = 0 := by omega
    have h₂ : c = (e + 1074).toNat + (-e).toNat := by omega
    rw [h₁, Nat.pow_zero, Nat.mul_one]
    conv => rhs; rw [h₂, Nat.pow_add, Nat.mul_comm, Nat.mul_div_mul_left _ _ (Nat.two_pow_pos _)]

theorem roundToInt_eq {s : Sign} {m : Nat} {e : Int} (he : -1074 ≤ e) :
    roundToInt s m e = s.apply (magnitude m e) := by
  have hm : (ExtendedMantissa.ofMantissaAndAccuracy (m <<< (e - 0).toNat) .exact >>>
      (0 - (e - (e - 0).toNat)).toNat).mantissa = magnitude m e := by
    rw [mantissa_shiftRight, ← magnitude_eq he]
    show m <<< (e - 0).toNat / _ = _
    rw [Nat.shiftLeft_eq, Int.sub_zero]
    congr 2
    omega
  show s.apply _ = _
  rw [hm]

/-- Of two numbers the one with the greater exponent is greater, unless its mantissa is short of bits:
that is so only at the least exponent. -/
theorem magnitude_mono {m₁ m₂ : Nat} {e₁ e₂ : Int} (hm₁ : m₁ < 2 ^ 53) (he₁ : -1074 ≤ e₁)
    (hm₂ : 2 ^ 52 ≤ m₂ ∨ e₂ = -1074) (h : e₁ < e₂ ∨ e₁ = e₂ ∧ m₁ ≤ m₂) :
    magnitude m₁ e₁ ≤ magnitude m₂ e₂ := by
  refine Nat.div_le_div_right ?_
  rcases h with h | ⟨rfl, h⟩
  · have hm₂ : 2 ^ 52 ≤ m₂ := hm₂.resolve_right (by omega)
    calc m₁ * 2 ^ (e₁ + 1074).toNat ≤ 2 ^ 53 * 2 ^ (e₁ + 1074).toNat :=
          Nat.mul_le_mul_right _ (Nat.le_of_lt hm₁)
      _ = 2 ^ 52 * 2 ^ ((e₁ + 1074).toNat + 1) := by rw [Nat.pow_succ 2 (e₁ + 1074).toNat]; omega
      _ ≤ 2 ^ 52 * 2 ^ (e₂ + 1074).toNat :=
          Nat.mul_le_mul_left _ (Nat.pow_le_pow_right (by decide) (by omega))
      _ ≤ m₂ * 2 ^ (e₂ + 1074).toNat := Nat.mul_le_mul_right _ hm₂
  · exact Nat.mul_le_mul_right _ h

theorem toNat_toUInt64 (x : UnpackedFloat) :
    x.toUInt64.toNat = min (x.toInt 0 (UInt64.size - 1)).toNat (UInt64.size - 1) := by
  have hsize : UInt64.size = 18446744073709551616 := rfl
  show (UInt64.ofNatClamp _).toNat = _
  unfold UInt64.ofNatClamp
  split
  · rw [UInt64.toNat_ofNatLT]; omega
  · show 18446744073709551615 = _
    omega

theorem toUInt64_mono (hx : Canonical x) (hy : Canonical y) (h : (x.compare y).any (·.isLE)) :
    x.toUInt64.toNat ≤ y.toUInt64.toNat := by
  rw [toNat_toUInt64, toNat_toUInt64]
  have hzero (hz : (x.toInt 0 (UInt64.size - 1)).toNat = 0) : min (x.toInt 0 (UInt64.size - 1)).toNat
      (UInt64.size - 1) ≤ min (y.toInt 0 (UInt64.size - 1)).toNat (UInt64.size - 1) := by
    rw [hz]; omega
  cases x with
  | notANumber => exact absurd h Bool.false_ne_true
  | zero s => exact hzero rfl
  | infinity s =>
    cases s with
    | negative => exact hzero rfl
    | positive =>
      rcases y with (_ | _) | _ | _ | ⟨_ | _, _, _, _⟩ <;>
        first | exact Nat.le_refl _ | exact absurd h Bool.false_ne_true
  | finite s m₁ e₁ hm₁ =>
    obtain ⟨hlt₁, hlo₁, -⟩ := hx
    cases s with
    | negative =>
      refine hzero ?_
      show (roundToInt .negative m₁ e₁).toNat = 0
      rw [roundToInt_eq hlo₁]
      show (-(magnitude m₁ e₁ : Int)).toNat = 0
      omega
    | positive =>
      cases y with
      | infinity s =>
        cases s with
        | negative => exact absurd h Bool.false_ne_true
        | positive => exact Nat.min_le_right ..
      | finite s m₂ e₂ hm₂ =>
        obtain ⟨-, hlo₂, hn₂⟩ := hy
        cases s with
        | negative => exact absurd h Bool.false_ne_true
        | positive =>
          have hle : ((compare e₁ e₂).then (compare m₁ m₂)).isLE := h
          have hmag : magnitude m₁ e₁ ≤ magnitude m₂ e₂ := by
            refine magnitude_mono hlt₁ hlo₁ hn₂ ((Ordering.isLE_then_iff_or.1 hle).imp ?_ ?_)
            · exact Int.compare_eq_lt.1
            · exact fun h => ⟨Int.compare_eq_eq.1 h.1, Nat.isLE_compare.1 h.2⟩
          show min (roundToInt .positive m₁ e₁).toNat _ ≤ min (roundToInt .positive m₂ e₂).toNat _
          rw [roundToInt_eq hlo₁, roundToInt_eq hlo₂]
          show min (magnitude m₁ e₁ : Int).toNat _ ≤ min (magnitude m₂ e₂ : Int).toNat _
          omega
      | _ => exact absurd h Bool.false_ne_true

theorem le_iff {a b : Float} :
    a ≤ b ↔ (a.toModel.unpack.compare b.toModel.unpack).any (·.isLE) = true := by
  show decide (a.toModel ≤ b.toModel) = true ↔ _
  rw [decide_eq_true_iff]; rfl

theorem lt_iff {a b : Float} :
    a < b ↔ a.toModel.unpack.compare b.toModel.unpack = some .lt := by
  show decide (a.toModel < b.toModel) = true ↔ _
  rw [decide_eq_true_iff]
  exact beq_iff_eq

theorem beq_iff {a b : Float} :
    (a == b) = true ↔ a.toModel.unpack.compare b.toModel.unpack = some .eq := by
  show (a.toModel.unpack.compare b.toModel.unpack == some .eq) = true ↔ _
  exact beq_iff_eq

theorem unpack_zero : (0 : Float).toModel.unpack = .zero .positive := rfl

theorem unpack_one : (1 : Float).toModel.unpack = .finite .positive (2 ^ 52) (-52) (by decide) := rfl

theorem unpack_add {a b : Float} : (a + b).toModel.unpack = unpack Format.binary64
    (UnpackedFloat.pack Format.binary64
      (UnpackedFloat.add Format.binary64 a.toModel.unpack b.toModel.unpack)) := rfl

theorem unpack_sub {a b : Float} : (a - b).toModel.unpack = unpack Format.binary64
    (UnpackedFloat.pack Format.binary64
      (UnpackedFloat.sub Format.binary64 a.toModel.unpack b.toModel.unpack)) := rfl

theorem lt_of_le_of_not_beq {a b : Float} (h : a ≤ b) (hne : ¬ (a == b) = true) : a < b := by
  rw [le_iff] at h
  rw [beq_iff] at hne
  rw [lt_iff]
  rcases hc : a.toModel.unpack.compare b.toModel.unpack with _ | _ | _ | _ <;> simp_all

theorem below_of_le_one {j : Float} (h₀ : 0 ≤ j) (h₁ : j ≤ 1) : Below (-52) j.toModel.unpack := by
  rw [le_iff, unpack_zero] at h₀
  rw [le_iff, unpack_one] at h₁
  have hcan : Canonical j.toModel.unpack := canonical_unpack _
  cases hj : j.toModel.unpack with
  | notANumber => rw [hj] at h₀; exact absurd h₀ Bool.false_ne_true
  | zero s => trivial
  | infinity s =>
    rw [hj] at h₀ h₁
    cases s with
    | negative => exact absurd h₀ Bool.false_ne_true
    | positive => exact absurd h₁ Bool.false_ne_true
  | finite s m e hm =>
    rw [hj] at h₀ h₁ hcan
    cases s with
    | negative => exact absurd h₀ Bool.false_ne_true
    | positive =>
      have hle : ((compare e (-52)).then (compare m (2 ^ 52))).isLE := h₁
      refine ⟨hcan.1, hcan.2.1, ?_⟩
      exact Int.isLE_compare.1 (Ordering.isLE_left_of_isLE_then hle)

/-- The way between one less and one more than a number from zero to one is of finite length. -/
theorem isFinite_spread {j : Float} (h₀ : 0 ≤ j) (h₁ : j ≤ 1) :
    ((1 + j) - (1 - j)).isFinite = true := by
  have hj := below_of_le_one h₀ h₁
  have hone : Below (-52) (1 : Float).toModel.unpack := by
    rw [unpack_one]; exact ⟨by decide, by decide, by decide⟩
  have hadd : Below (-50) (1 + j).toModel.unpack := by
    rw [unpack_add]
    exact (hone.add hj).unpack_pack (by decide) (by decide)
  have hsub : Below (-50) (1 - j).toModel.unpack := by
    rw [unpack_sub]
    exact (hone.sub hj).unpack_pack (by decide) (by decide)
  have h : Below (-48) ((1 + j) - (1 - j)).toModel.unpack := by
    rw [unpack_sub]
    exact (hadd.sub hsub).unpack_pack (by decide) (by decide)
  exact h.isFinite

theorem toUInt64_le_of_not_lt {a b : Float} (ha : a.isNaN = false) (hb : b.isNaN = false)
    (h : ¬ b < a) : a.toUInt64.toNat ≤ b.toUInt64.toNat := by
  refine toUInt64_mono (canonical_unpack _) (canonical_unpack _) ?_
  rw [lt_iff, compare_swap a.toModel.unpack] at h
  have hsome := compare_isSome (x := a.toModel.unpack) (y := b.toModel.unpack) ha hb
  show (a.toModel.unpack.compare b.toModel.unpack).any _ = true
  rcases hc : a.toModel.unpack.compare b.toModel.unpack with _ | _ | _ | _ <;> simp_all

/-! ### Decimals -/

theorem isNaN_unpack {b : BitVec Format.binary64.numBits}
    (h : (unpackExponent b).toNat = 2047 → unpackMantissa b = 0#_) :
    (unpack Format.binary64 b).isNaN = false := by
  rcases unpack_cases b with (⟨-, -, h'⟩ | ⟨he, hm, -⟩) | ⟨-, ⟨s, h'⟩ | ⟨s, m, e, hm, h', -⟩⟩
  · rw [h']; rfl
  · exact absurd (h he) hm
  · rw [h']; rfl
  · rw [h']; rfl

theorem isNaN_unpack_pack (h : x.isNaN = false) :
    (unpack Format.binary64 (UnpackedFloat.pack Format.binary64 x)).isNaN = false := by
  refine isNaN_unpack fun he => ?_
  cases x with
  | notANumber => cases h
  | infinity s => exact unpackMantissa_packComponents
  | zero s => exact unpackMantissa_packComponents
  | finite s m e hm =>
    unfold UnpackedFloat.pack at he ⊢; dsimp only at he ⊢
    split at he
    · rw [if_pos ‹_›]
      exact unpackMantissa_packComponents
    · rename_i hlt
      split at he
      · rw [unpackExponent_packComponents, BitVec.toNat_ofNat] at he
        have := Nat.mod_le
          (e + Format.binary64.exponentBias + Format.binary64.mantissaBitsWithoutImplicit).toNat (2 ^ 11)
        have hbits : 2 ^ Format.binary64.exponentBits = 2048 := rfl
        omega
      · rw [unpackExponent_packComponents] at he
        cases he

theorem nearestBits_le (n : Nat) (e : Int) : Decimal.nearestBits n e ≤ Decimal.infinityBits := by
  unfold Decimal.nearestBits
  split
  · exact Nat.le_refl _
  · split
    · exact Nat.zero_le _
    · unfold Decimal.bitsOfFraction
      split
      · exact Nat.zero_le _
      · exact Nat.min_le_left ..

theorem isNaN_ofNat (n : Nat) : (Decimal.ofNat n).isNaN = false := by
  have hle := nearestBits_le n 0
  refine isNaN_unpack_pack (isNaN_unpack fun he => ?_)
  have hinf : Decimal.infinityBits = 2047 * 2 ^ 52 := rfl
  have hbits : (UInt64.ofNat (Decimal.nearestBits n 0)).toBitVec.toNat = Decimal.nearestBits n 0 := by
    show (UInt64.ofNat _).toNat = _
    rw [UInt64.toNat_ofNat_of_lt']
    exact Nat.lt_of_le_of_lt hle (by decide)
  have he : (UInt64.ofNat (Decimal.nearestBits n 0)).toBitVec.toNat >>> 52 % 2 ^ 11 = 2047 := by
    rw [← he]
    simp [unpackExponent]
  have hm : (unpackMantissa (UInt64.ofNat (Decimal.nearestBits n 0)).toBitVec :
      BitVec Format.binary64.mantissaBitsWithoutImplicit).toNat =
      (UInt64.ofNat (Decimal.nearestBits n 0)).toBitVec.toNat % 2 ^ 52 := by
    simp [unpackMantissa]
  refine BitVec.eq_of_toNat_eq ?_
  rw [hbits, Nat.shiftRight_eq_div_pow] at he
  rw [hm, hbits]
  show _ = 0
  omega

end CoEdit.Doubles

namespace CoEdit.Backoff

open Doubles Float.Model UnpackedFloat

theorem toUInt64_least {x y : Float} (hy : y.isNaN = false) :
    (least x y).toUInt64.toNat ≤ y.toUInt64.toNat := by
  unfold least
  rw [hy, if_neg Bool.false_ne_true]
  split
  · exact Nat.le_refl _
  · rename_i hx
    split
    · exact Nat.le_refl _
    · exact toUInt64_le_of_not_lt (by simpa using hx) hy ‹_›

theorem whole_bounds (x : Float) :
    x.toUInt64.toNat ≤ whole x ∧ whole x ≤ x.toUInt64.toNat + 1 ∧ whole x < Checked.limit := by
  have hlt := x.toUInt64.toNat_lt
  unfold whole Checked.limit
  dsimp only
  split <;> omega

/-- Rounding to whole numbers adds at most one to what is not above a ceiling. -/
theorem whole_least_le {x y : Float} (hy : y.isNaN = false) : whole (least x y) ≤ whole y + 1 := by
  obtain ⟨-, hx, -⟩ := whole_bounds (least x y)
  obtain ⟨hy', -⟩ := whole_bounds y
  have := toUInt64_least (x := x) hy
  omega

end CoEdit.Backoff
