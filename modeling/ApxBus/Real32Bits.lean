import ApxBus.Real32
set_option autoImplicit false

/-! Single-precision numbers by the sign, the exponent and the fraction of their patterns. -/

namespace ApxBus.Real32
open Float.Model (Format)
open Float.Model.UnpackedFloat

theorem finite_congr {g : Sign} {m n : Nat} {x y : Int} {hm : 0 < m} {hn : 0 < n} (h : m = n)
    (hxy : x = y) : finite g m x hm = finite g n y hn := by
  subst h hxy
  rfl

theorem unpack_components {v : BitVec 32} {s : BitVec 1} {e : BitVec 8} {f : BitVec 23}
    (hm : @unpackMantissa Format.binary32 v = f) (he : @unpackExponent Format.binary32 v = e)
    (hs : @unpackSign Format.binary32 v = s) : unpack Format.binary32 v =
    if e = 255#8 then if f = 0#23 then infinity (Sign.ofBitVec s) else notANumber
    else if e = 0#8 then
      if h : f = 0#23 then zero (Sign.ofBitVec s)
      else finite (Sign.ofBitVec s) f.toNat (e.toNat-150+1) (BitVec.toNat_pos_of_ne_zero h)
    else finite (Sign.ofBitVec s) (2^23+f.toNat) (e.toNat-150) (by omega) := by
  have hf : (1#1 ++ f).toNat = 2^23+f.toNat := by
    rw [BitVec.toNat_append]
    change 1 <<< 23 ||| _ = _
    rw [← Nat.shiftLeft_add_eq_or_of_lt f.isLt]
    rfl
  subst hm he hs
  unfold unpack
  refine if_congr Iff.rfl rfl ?_
  refine if_congr Iff.rfl rfl ?_
  exact finite_congr hf rfl

section
variable (s : BitVec 1) (e : BitVec 8) (f : BitVec 23)

theorem sign_toBitVec : (Sign.ofBitVec s).toBitVec = s := by
  revert s
  decide

theorem pattern_eq : s ++ e ++ f = packComponents Format.binary32 (Sign.ofBitVec s) e f := by
  unfold packComponents
  rw [sign_toBitVec]

theorem unpack_pattern : unpack Format.binary32 (s ++ e ++ f) =
    if e = 255#8 then if f = 0#23 then infinity (Sign.ofBitVec s) else notANumber
    else if e = 0#8 then
      if h : f = 0#23 then zero (Sign.ofBitVec s)
      else finite (Sign.ofBitVec s) f.toNat (e.toNat-150+1) (BitVec.toNat_pos_of_ne_zero h)
    else finite (Sign.ofBitVec s) (2^23+f.toNat) (e.toNat-150) (by omega) := by
  have hm : @unpackMantissa Format.binary32 (s ++ e ++ f) = f := by
    rw [pattern_eq,unpackMantissa_packComponents]
  have he : @unpackExponent Format.binary32 (s ++ e ++ f) = e := by
    rw [pattern_eq,unpackExponent_packComponents]
  have hs : @unpackSign Format.binary32 (s ++ e ++ f) = s := by
    refine BitVec.eq_of_getLsbD_eq fun i hi => ?_
    obtain rfl : i = 0 := by omega
    have h : (s ++ e ++ f).getLsbD 31 = s.getLsbD 0 := by
      rw [BitVec.getLsbD_append,BitVec.getLsbD_append]
      rfl
    rw [← h]
    unfold unpackSign
    rw [BitVec.getLsbD_cast,BitVec.getLsbD_extractLsb]
    rfl
  exact unpack_components hm he hs

end

theorem pack_finite (s : Sign) (m : Nat) (e : Int) (h : 0 < m) :
    pack Format.binary32 (.finite s m e h) =
      if 256 ≤ (e+127+23).toNat+1 then packedInfinity Format.binary32 s
      else if m.log2+1 = 24 then
        packComponents Format.binary32 s (BitVec.ofNat 8 (e+127+23).toNat) (BitVec.ofNat 23 m)
      else packComponents Format.binary32 s 0#8 (BitVec.ofNat 23 m) := by
  have hbias : ((Format.binary32.exponentBias : Nat) : Int) = 127 := rfl
  have hm : Format.binary32.mantissaBits = 24 := rfl
  unfold pack
  dsimp only
  rw [hbias,hm]
  rfl

section
variable {s : BitVec 1} {e : BitVec 8} {f : BitVec 23}

theorem bits_ofBits (h : ¬ (e = 255#8 ∧ f ≠ 0#23)) : bits (ofBits (s ++ e ++ f)) = s ++ e ++ f := by
  have hb : bits (ofBits (s ++ e ++ f)) =
    pack Format.binary32 (unpack Format.binary32 (s ++ e ++ f)) := rfl
  have hlt := f.isLt
  refine (hb.trans ?_).trans (pattern_eq s e f).symm
  rw [unpack_pattern]
  by_cases h1 : e = 255#8
  · have h2 : f = 0#23 := not_not.mp fun h2 => h ⟨h1,h2⟩
    rw [if_pos h1,if_pos h2,h1,h2]
    rfl
  have he := e.isLt
  have hne : e.toNat ≠ 255 := fun h => h1 (BitVec.eq_of_toNat_eq h)
  rw [if_neg h1]
  by_cases h0 : e = 0#8
  · have hz : e.toNat = 0 := congrArg BitVec.toNat h0
    rw [if_pos h0]
    by_cases h2 : f = 0#23
    · rw [dif_pos h2,h0,h2]
      rfl
    · have hlog := (Nat.log2_lt (BitVec.toNat_pos_of_ne_zero h2).ne').mpr hlt
      rw [dif_neg h2,pack_finite,if_neg (by omega),if_neg (by omega),BitVec.ofNat_toNat,
        BitVec.setWidth_eq,h0]
  · have hlog : (2^23+f.toNat).log2 = 23 := by
      rw [Nat.log2_eq_iff (by omega)]
      omega
    have hf : BitVec.ofNat 23 (2^23+f.toNat) = f := by
      refine BitVec.eq_of_toNat_eq ?_
      rw [BitVec.toNat_ofNat,Nat.add_mod_left,Nat.mod_eq_of_lt hlt]
    have hexp : (((e.toNat : Int)-150)+127+23).toNat = e.toNat := by omega
    rw [if_neg h0,pack_finite,hexp,if_neg (by omega),hlog,if_pos rfl,hf,BitVec.ofNat_toNat,
      BitVec.setWidth_eq]

theorem unpack_cases (P : Float.Model.UnpackedFloat → Prop) (h : ¬ (e = 255#8 ∧ f ≠ 0#23))
    (hinf : e = 255#8 → f = 0#23 → P (infinity (Sign.ofBitVec s)))
    (hzero : e = 0#8 → f = 0#23 → P (zero (Sign.ofBitVec s)))
    (hfin : ∀ m x hm, ¬ (e = 0#8 ∧ f = 0#23) → P (finite (Sign.ofBitVec s) m x hm)) :
    P (unpack Format.binary32 (s ++ e ++ f)) := by
  rw [unpack_pattern]
  by_cases h1 : e = 255#8
  · have h2 : f = 0#23 := not_not.mp fun h2 => h ⟨h1,h2⟩
    rw [if_pos h1,if_pos h2]
    exact hinf h1 h2
  rw [if_neg h1]
  by_cases h0 : e = 0#8
  · rw [if_pos h0]
    by_cases h2 : f = 0#23
    · rw [dif_pos h2]
      exact hzero h0 h2
    · rw [dif_neg h2]
      exact hfin _ _ _ fun h => h2 h.2
  · rw [if_neg h0]
    exact hfin _ _ _ fun h => h0 h.1

theorem bits_ofBits_nan (h : e = 255#8 ∧ f ≠ 0#23) :
    bits (ofBits (s ++ e ++ f)) = pack Format.binary32 notANumber := by
  have hb : bits (ofBits (s ++ e ++ f)) =
    pack Format.binary32 (unpack Format.binary32 (s ++ e ++ f)) := rfl
  rw [hb,unpack_pattern,if_pos h.1,if_neg h.2]

theorem isNaN_ofBits : (ofBits (s ++ e ++ f)).isNaN = true ↔ e = 255#8 ∧ f ≠ 0#23 := by
  have hn : (ofBits (s ++ e ++ f)).isNaN =
    (unpack Format.binary32 (bits (ofBits (s ++ e ++ f)))).isNaN := rfl
  rw [hn]
  by_cases h : e = 255#8 ∧ f ≠ 0#23
  · rw [bits_ofBits_nan h]
    exact iff_of_true rfl h
  · refine iff_of_false ?_ h
    rw [bits_ofBits h]
    refine unpack_cases (fun u => ¬ u.isNaN = true) h (fun _ _ => ?_) (fun _ _ => ?_) fun _ _ _ _ =>
      ?_
    · exact Bool.false_ne_true
    · exact Bool.false_ne_true
    · exact Bool.false_ne_true

theorem ofBits_beq_zero : (ofBits (s ++ e ++ f) == ofNat 0) = true ↔ e = 0#8 ∧ f = 0#23 := by
  have hn : (ofBits (s ++ e ++ f) == ofNat 0) =
    (unpack Format.binary32 (bits (ofBits (s ++ e ++ f)))).beq (.zero .positive) := rfl
  rw [hn]
  by_cases h : e = 255#8 ∧ f ≠ 0#23
  · rw [bits_ofBits_nan h]
    refine iff_of_false (by decide) fun h0 => ?_
    rw [h.1] at h0
    exact absurd h0.1 (by decide)
  · rw [bits_ofBits h]
    refine unpack_cases (fun u => u.beq (.zero .positive) = true ↔ e = 0#8 ∧ f = 0#23) h
      (fun he _ => ?_) (fun he hf => ?_) fun _ _ _ hne => ?_
    · refine iff_of_false ?_ fun h0 => absurd (he.symm.trans h0.1) (by decide)
      cases Sign.ofBitVec s <;> exact Bool.false_ne_true
    · refine iff_of_true ?_ ⟨he,hf⟩
      cases Sign.ofBitVec s <;> rfl
    · refine iff_of_false ?_ hne
      cases Sign.ofBitVec s <;> exact Bool.false_ne_true

end

end ApxBus.Real32
