import InitialValue.Binary64.Magnitude
import InitialValue.Proofs.Binary64.Finite
import Mathlib.Tactic.SplitIfs

/-! Values taken apart and put together again. The mantissa and the exponent of a
finite value are canonical: the mantissa has 53 bits, unless the exponent is the
least one. Packing keeps what is canonical, and beyond the greatest exponent it
yields infinity. The negative of a value is therefore just the value with the other
sign, and its magnitude the value without a sign. -/

namespace InitialValue.Binary64

open Float.Model (Format UnpackedFloat)
open Float.Model.UnpackedFloat

/-- Mantissas and exponents of finite values. -/
structure Canonical (m : Nat) (e : Int) : Prop where
  lt : m < 2 ^ 53
  least : leastExponent ≤ e
  greatest : e ≤ greatestExponent
  normal : 2 ^ 52 ≤ m ∨ e = leastExponent

theorem toNat_one_append (b : BitVec 52) : (1#1 ++ b).toNat = 2 ^ 52 + b.toNat := by
  rw [BitVec.toNat_append, ← Nat.shiftLeft_add_eq_or_of_lt b.isLt]
  rfl

theorem canonical_of_unpack {b : BitVec Format.binary64.numBits} {s : Sign} {m : Nat} {e : Int}
    {hm : 0 < m} (hu : unpack Format.binary64 b = .finite s m e hm) : Canonical m e := by
  obtain ⟨hlt, hgreatest⟩ := bounds_of_unpack hu
  have hbias : (Format.binary64.exponentBias : Int) = 1023 := rfl
  suffices h : leastExponent ≤ e ∧ (2 ^ 52 ≤ m ∨ e = leastExponent) from ⟨hlt, h.1, hgreatest, h.2⟩
  unfold unpack at hu
  dsimp only at hu
  by_cases he : unpackExponent b = -1#_
  · rw [if_pos he] at hu
    by_cases hz : unpackMantissa b = 0#_
    · rw [if_pos hz] at hu
      cases hu
    · rw [if_neg hz] at hu
      cases hu
  · rw [if_neg he] at hu
    by_cases h0 : unpackExponent b = 0#_
    · rw [if_pos h0] at hu
      by_cases hz : unpackMantissa b = 0#_
      · rw [dif_pos hz] at hu
        cases hu
      · rw [dif_neg hz] at hu
        cases hu
        rw [h0, hbias]
        exact ⟨by decide, .inr (by decide)⟩
    · rw [if_neg h0] at hu
      cases hu
      have hpos : 0 < (unpackExponent b).toNat :=
        Nat.pos_of_ne_zero fun h => h0 (BitVec.eq_of_toNat_eq h)
      have hm := toNat_one_append (unpackMantissa b)
      rw [hbias]
      unfold leastExponent
      refine ⟨?_, .inl ?_⟩ <;> omega

/-! ### Packing -/

theorem toNat_ofNat_of_lt {w n : Nat} (h : n < 2 ^ w) : (BitVec.ofNat w n).toNat = n := by
  rw [BitVec.toNat_ofNat, Nat.mod_eq_of_lt h]

/-- The exponent field of a normal value is neither of the two that are set apart. -/
theorem exponentField_ne {b : Nat} (h0 : b ≠ 0) (hb : b ≤ 2046) :
    BitVec.ofNat 11 b ≠ -1#11 ∧ BitVec.ofNat 11 b ≠ 0#11 := by
  have hto := toNat_ofNat_of_lt (show b < 2 ^ 11 by omega)
  refine ⟨ne_neg_one_iff.mpr (by omega), fun h => h0 ?_⟩
  rw [← hto, h]
  rfl

theorem finite_congr {s s' : Sign} {m m' : Nat} {e e' : Int} {hm : 0 < m} {hm' : 0 < m'}
    (hs : s = s') (h : m = m') (he : e = e') :
    UnpackedFloat.finite s m e hm = .finite s' m' e' hm' := by
  subst hs h he
  rfl

/-- The sign is put into the first bit and read from there. -/
theorem ofBitVec_unpackSign (s : Sign) (e : BitVec 11) (m : BitVec 52) :
    Sign.ofBitVec (unpackSign (packComponents Format.binary64 s e m)) = s := by
  have hbit : unpackSign (packComponents Format.binary64 s e m) = s.toBitVec := by
    change BitVec.extractLsb' 63 1 (s.toBitVec ++ e ++ m : BitVec (1 + 11 + 52)) = s.toBitVec
    rw [BitVec.extractLsb'_append_eq_of_le (by decide),
      BitVec.extractLsb'_append_eq_of_le (by decide)]
    simp
  rw [hbit]
  cases s <;> rfl

theorem unpack_packComponents_normal {s : Sign} {m : BitVec 52} {b : Nat} (h0 : b ≠ 0)
    (hb : b ≤ 2046) :
    unpack Format.binary64 (packComponents Format.binary64 s (BitVec.ofNat 11 b) m) =
      .finite s (2 ^ 52 + m.toNat) (b - 1075) (by omega) := by
  obtain ⟨hne, hne0⟩ := exponentField_ne h0 hb
  have hexponent : unpackExponent (packComponents Format.binary64 s (BitVec.ofNat 11 b) m) =
      BitVec.ofNat 11 b := unpackExponent_packComponents ..
  have hmantissa : unpackMantissa (packComponents Format.binary64 s (BitVec.ofNat 11 b) m) = m :=
    unpackMantissa_packComponents ..
  unfold unpack
  refine (if_neg (by rw [hexponent]; exact hne)).trans
    ((if_neg (by rw [hexponent]; exact hne0)).trans
    (finite_congr (ofBitVec_unpackSign ..) ?_ ?_))
  · rw [hmantissa, toNat_one_append]
  · rw [hexponent, toNat_ofNat_of_lt (show b < 2 ^ 11 by omega)]
    rfl

theorem unpack_packComponents_subnormal {s : Sign} {m : BitVec 52} (hm : 0 < m.toNat) :
    unpack Format.binary64 (packComponents Format.binary64 s 0#11 m) =
      .finite s m.toNat leastExponent hm := by
  have hz : m ≠ 0#52 := fun h => Nat.ne_of_gt hm (congrArg BitVec.toNat h)
  have hexponent : unpackExponent (packComponents Format.binary64 s 0#11 m) = 0#11 :=
    unpackExponent_packComponents ..
  have hmantissa : unpackMantissa (packComponents Format.binary64 s 0#11 m) = m :=
    unpackMantissa_packComponents ..
  unfold unpack
  refine (if_neg (by rw [hexponent]; decide)).trans ((if_pos hexponent).trans
    ((dif_neg (by rw [hmantissa]; exact hz)).trans (finite_congr (ofBitVec_unpackSign ..) ?_ ?_)))
  · rw [hmantissa]
  · rw [hexponent]
    rfl

theorem pack_finite (s : Sign) (m : Nat) (e : Int) (hm : 0 < m) :
    pack Format.binary64 (.finite s m e hm) =
      if 2 ^ 11 ≤ (e + 1023 + 52).toNat + 1 then packedInfinity Format.binary64 s
      else if m.log2 + 1 = 53 then
        packComponents Format.binary64 s (BitVec.ofNat 11 (e + 1023 + 52).toNat) (BitVec.ofNat 52 m)
      else packComponents Format.binary64 s 0#11 (BitVec.ofNat 52 m) := rfl

/-- Packing keeps what is canonical. -/
theorem unpack_pack_finite {s : Sign} {m : Nat} {e : Int} {hm : 0 < m} (hc : Canonical m e) :
    (Float.Model.pack (.finite s m e hm)).unpack = .finite s m e hm := by
  obtain ⟨hlt, hleast, hgreatest, hnormal⟩ := hc
  unfold leastExponent at hleast hnormal
  unfold greatestExponent at hgreatest
  change unpack Format.binary64 (pack Format.binary64 (.finite s m e hm)) = _
  rw [pack_finite, if_neg (by omega)]
  by_cases hn : 2 ^ 52 ≤ m
  · have hlog : m.log2 = 52 := (Nat.log2_eq_iff (Nat.ne_of_gt hm)).mpr ⟨hn, hlt⟩
    have hmod : (BitVec.ofNat 52 m).toNat = m - 2 ^ 52 := by
      rw [BitVec.toNat_ofNat]
      omega
    rw [if_pos (by omega)]
    refine (unpack_packComponents_normal (by omega) (by omega)).trans
      (finite_congr rfl ?_ ?_) <;> omega
  · have hlt' : m < 2 ^ 52 := by omega
    have hto := toNat_ofNat_of_lt hlt'
    have hlog : m.log2 < 52 := (Nat.log2_lt (Nat.ne_of_gt hm)).mpr hlt'
    obtain rfl := hnormal.resolve_left hn
    rw [if_neg (by omega)]
    exact (unpack_packComponents_subnormal (by omega)).trans (finite_congr rfl hto rfl)

/-- Beyond the greatest exponent there is only infinity. -/
theorem unpack_pack_infinity {s : Sign} {m : Nat} {e : Int} {hm : 0 < m}
    (he : greatestExponent < e) : (Float.Model.pack (.finite s m e hm)).unpack = .infinity s := by
  unfold greatestExponent at he
  change unpack Format.binary64 (pack Format.binary64 (.finite s m e hm)) = _
  rw [pack_finite, if_pos (by omega)]
  cases s <;> rfl

/-! ### The other sign -/

theorem unpack_neg (a : Float) : (-a).toModel.unpack = a.toModel.unpack.neg := by
  change (Float.Model.pack a.toModel.unpack.neg).unpack = _
  cases hu : a.toModel.unpack with
  | infinity s => cases s <;> rfl
  | notANumber => rfl
  | zero s => cases s <;> rfl
  | finite s m e hm => exact unpack_pack_finite (canonical_of_unpack hu)

theorem unpack_abs (a : Float) : a.abs.toModel.unpack = a.toModel.unpack.abs := by
  change (Float.Model.pack a.toModel.unpack.abs).unpack = _
  cases hu : a.toModel.unpack with
  | infinity s | zero s => cases s <;> rfl
  | notANumber => rfl
  | finite s m e hm => exact unpack_pack_finite (canonical_of_unpack hu)

theorem abs_unpack_congr {b b' : BitVec Format.binary64.numBits}
    (he : unpackExponent b = unpackExponent b') (hm : unpackMantissa b = unpackMantissa b')
    (hs : Sign.ofBitVec (unpackSign b') = .positive) :
    (unpack Format.binary64 b).abs = unpack Format.binary64 b' := by
  unfold unpack
  dsimp only
  rw [he, hs]
  by_cases hlast : unpackExponent b' = -1#11
  · rw [if_pos hlast, if_pos hlast]
    by_cases hz : unpackMantissa b' = 0#52
    · rw [if_pos (hm.trans hz), if_pos hz]
      rfl
    · rw [if_neg fun h => hz (hm.symm.trans h), if_neg hz]
      rfl
  rw [if_neg hlast, if_neg hlast]
  by_cases hfirst : unpackExponent b' = 0#11
  · rw [if_pos hfirst, if_pos hfirst]
    by_cases hz : unpackMantissa b' = 0#52
    · rw [dif_pos (hm.trans hz), dif_pos hz]
      rfl
    · rw [dif_neg fun h => hz (hm.symm.trans h), dif_neg hz]
      exact finite_congr rfl (congrArg BitVec.toNat hm) rfl
  · rw [if_neg hfirst, if_neg hfirst]
    exact finite_congr rfl (congrArg (fun m => (1#1 ++ m).toNat) hm) rfl

theorem abs_unpack_packComponents (s : Sign) (e : BitVec 11) (m : BitVec 52) :
    (unpack Format.binary64 (packComponents Format.binary64 s e m)).abs =
      unpack Format.binary64 (packComponents Format.binary64 .positive e m) := by
  have hexponent (s : Sign) : unpackExponent (packComponents Format.binary64 s e m) = e :=
    unpackExponent_packComponents ..
  have hmantissa (s : Sign) : unpackMantissa (packComponents Format.binary64 s e m) = m :=
    unpackMantissa_packComponents ..
  exact abs_unpack_congr ((hexponent s).trans (hexponent .positive).symm)
    ((hmantissa s).trans (hmantissa .positive).symm) (ofBitVec_unpackSign ..)

/-- The sign decides nothing about how the magnitude is packed. -/
theorem abs_unpack_pack (u : UnpackedFloat) :
    (Float.Model.pack u).unpack.abs = (Float.Model.pack u.abs).unpack := by
  cases u with
  | infinity s | zero s => cases s <;> rfl
  | notANumber => rfl
  | finite s m e hm =>
    change (unpack Format.binary64 (pack Format.binary64 (.finite s m e hm))).abs =
      unpack Format.binary64 (pack Format.binary64 (.finite .positive m e hm))
    rw [pack_finite, pack_finite]
    split_ifs
    · cases s <;> rfl
    · exact abs_unpack_packComponents s _ _
    · exact abs_unpack_packComponents s _ _

@[simp] theorem isFinite_abs (a : Float) : a.abs.isFinite = a.isFinite := by
  change a.abs.toModel.unpack.isFinite = a.toModel.unpack.isFinite
  rw [unpack_abs]
  cases a.toModel.unpack <;> rfl

@[simp] theorem isFinite_neg (a : Float) : (-a).isFinite = a.isFinite := by
  change (-a).toModel.unpack.isFinite = a.toModel.unpack.isFinite
  rw [unpack_neg]
  cases a.toModel.unpack <;> rfl

@[simp] theorem isNaN_neg (a : Float) : (-a).isNaN = a.isNaN := by
  change (-a).toModel.unpack.isNaN = a.toModel.unpack.isNaN
  rw [unpack_neg]
  cases a.toModel.unpack <;> rfl

@[simp] theorem isNaN_abs (a : Float) : a.abs.isNaN = a.isNaN := by
  change a.abs.toModel.unpack.isNaN = a.toModel.unpack.isNaN
  rw [unpack_abs]
  cases a.toModel.unpack <;> rfl

theorem isFinite_iff {a : Float} : a.isFinite = true ↔ a.isNaN = false ∧ a.isInf = false := by
  change a.toModel.unpack.isFinite = true ↔
    a.toModel.unpack.isNaN = false ∧ a.toModel.unpack.isInf = false
  cases a.toModel.unpack with
  | infinity s => exact ⟨nofun, fun h => nomatch h.2⟩
  | notANumber => exact ⟨nofun, fun h => nomatch h.1⟩
  | zero s | finite s m e hm => exact ⟨fun _ => ⟨rfl, rfl⟩, fun _ => rfl⟩

end InitialValue.Binary64
