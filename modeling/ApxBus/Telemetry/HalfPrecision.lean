import ApxBus.BinaryFloat
import ApxBus.Real32Bits
import ApxBus.ShiftRegister
import ApxBus.Telemetry.ValueUnpack
set_option autoImplicit false

/-! Half-precision numbers: packing rounds to the nearest one, and unpacking is exact. -/

namespace ApxBus.Telemetry
open Real32 BinaryFloat

/-- The pattern without sign that a number with exponent `e` and fraction `f` is rounded to. -/
def roundedF16 (e f : Nat) : Nat :=
  if e ≤ 112 then
    if e < 102 then 0 else (2^23+f+2^(125-e))/2^(126-e)
  else if e < 143 then ((e-112)*2^23+f+2^12)/2^13
  else 31*2^10

section
variable (s : BitVec 1) (e : BitVec 8) (f : BitVec 23)

theorem mask_sign : (s ++ e ++ f) &&& 0x80000000#32 = s ++ 0#8 ++ 0#23 :=
  pattern_and_first s e f

theorem mask_exponent : (s ++ e ++ f) &&& 0x7F800000#32 = 0#1 ++ e ++ 0#23 :=
  pattern_and_second s e f

theorem mask_fraction : (s ++ e ++ f) &&& 0x007FFFFF#32 = 0#1 ++ 0#8 ++ f :=
  pattern_and_third s e f

theorem mask_magnitude : (s ++ e ++ f) &&& 0x7FFFFFFF#32 = 0#1 ++ e ++ f :=
  pattern_and_rest s e f

end

def signed16 (s : BitVec 1) (k : Nat) : BitVec 16 := s ++ BitVec.ofNat 15 k

theorem signed16_toNat (s : BitVec 1) {k : Nat} (hk : k < 2^15) :
    (signed16 s k).toNat = s.toNat*2^15+k := by
  have h : (BitVec.ofNat 15 k).toNat = k := Nat.mod_eq_of_lt hk
  rw [signed16,BitVec.toNat_append,h,← Nat.shiftLeft_add_eq_or_of_lt hk,Nat.shiftLeft_eq]

theorem sign_or (s : BitVec 1) {y : BitVec 16} {k : Nat} (hy : y.toNat = k) (hk : k < 2^15) :
    ((s ++ 0#8 ++ 0#23) >>> 16).setWidth 16 ||| y = signed16 s k := by
  have hs : ((s ++ 0#8 ++ 0#23) >>> 16).setWidth 16 = s ++ 0#15 := by
    revert s
    decide
  have hk' : (BitVec.ofNat 15 k).toNat = k := Nat.mod_eq_of_lt hk
  have hz : y = 0#1 ++ BitVec.ofNat 15 k := by
    refine BitVec.eq_of_toNat_eq ?_
    rw [BitVec.toNat_append,hk',hy]
    exact (Nat.zero_or k).symm
  have hor := @BitVec.or_append 1 15 s 0#1 0#15 (BitVec.ofNat 15 k)
  rw [BitVec.or_zero,BitVec.zero_or] at hor
  rw [hs,hz]
  exact hor

theorem hidden_toNat (f : BitVec 23) :
    ((0#1 ++ 0#8 ++ f) ||| 0x00800000#32).toNat = 2^23+f.toNat := by
  have h := or_pattern 0#1 0#8 f 0#1 1#8 0#23
  rw [BitVec.or_zero,BitVec.zero_or,BitVec.or_zero] at h
  refine (congrArg BitVec.toNat h).trans ?_
  rw [pattern_toNat]
  rfl

theorem div_add_bit (q k : Nat) : q/2^(k+1)+q/2^k%2 = (q+2^k)/2^(k+1) := by
  have hpos := Nat.two_pow_pos k
  rw [Nat.pow_succ,← Nat.div_div_eq_div_mul,← Nat.div_div_eq_div_mul,Nat.add_div_right _ hpos]
  omega

theorem bit_test {w i : Nat} (hi : i < w) (y : BitVec w) :
    y &&& BitVec.twoPow w i ≠ 0#w ↔ y.toNat/2^i%2 = 1 := by
  have hbit : y.getLsbD i = decide (y.toNat/2^i%2 = 1) := Nat.testBit_eq_decide_div_mod_eq
  rw [and_twoPow_ne_zero hi,hbit,decide_eq_true_iff]

theorem shiftRight_and_one (y : BitVec 32) (k : Nat) :
    (y >>> k) &&& 1#32 ≠ 0#32 ↔ y.toNat/2^k%2 = 1 := by
  rw [← BitVec.twoPow_zero,bit_test (by decide),BitVec.toNat_ushiftRight,
    Nat.shiftRight_eq_div_pow,Nat.pow_zero,Nat.div_one]

theorem roundedF16_lt {e f : Nat} (hf : f < 2^23) : roundedF16 e f < 2^15 := by
  unfold roundedF16
  split_ifs with h1 h2 h3
  · decide
  · have h14 : 2^14 ≤ 2^(126-e) := Nat.pow_le_pow_right (by decide) (by omega)
    have h23 : 2^(125-e) ≤ 2^23 := Nat.pow_le_pow_right (by decide) (by omega)
    exact Nat.div_lt_of_lt_mul (by omega)
  · omega
  · decide

theorem denormal_toNat {y : BitVec 32} {e f : Nat} (hy : y.toNat = 2^23+f) (hf : f < 2^23)
    (he : e ≤ 112) (he' : 102 ≤ e) :
    (if (y >>> (125-e)) &&& 1#32 ≠ 0#32 then (y >>> (126-e)).setWidth 16+1#16
      else (y >>> (126-e)).setWidth 16 : BitVec 16).toNat = roundedF16 e f := by
  have hdiv : ((y >>> (126-e)).setWidth 16).toNat = (2^23+f)/2^(126-e) := by
    have h14 : 2^14 ≤ 2^(126-e) := Nat.pow_le_pow_right (by decide) (by omega)
    have hlt : (2^23+f)/2^(126-e) < 2^16 := Nat.div_lt_of_lt_mul (by omega)
    rw [BitVec.toNat_setWidth,BitVec.toNat_ushiftRight,Nat.shiftRight_eq_div_pow,hy,
      Nat.mod_eq_of_lt hlt]
  have hround := div_add_bit (2^23+f) (125-e)
  rw [show 125-e+1 = 126-e by omega] at hround
  have hr : roundedF16 e f = (2^23+f+2^(125-e))/2^(126-e) := by
    unfold roundedF16
    rw [if_pos he,if_neg (by omega)]
  have hlt := @roundedF16_lt e f hf
  by_cases hbit : (y >>> (125-e)) &&& 1#32 ≠ 0#32
  · rw [if_pos hbit]
    rw [shiftRight_and_one,hy] at hbit
    rw [BitVec.toNat_add,hdiv]
    change ((2^23+f)/2^(126-e)+1)%2^16 = _
    omega
  · rw [if_neg hbit]
    rw [shiftRight_and_one,hy] at hbit
    omega

theorem ofInt_shiftLeft {w k n : Nat} {i : Int} (hi : i = n) (hn : n*2^k < 2^w) :
    (BitVec.ofInt w i <<< k).toNat = n*2^k := by
  have hnw : n < 2^w := (Nat.le_mul_of_pos_right n (Nat.two_pow_pos k)).trans_lt hn
  rw [hi,BitVec.ofInt_natCast,BitVec.toNat_shiftLeft,BitVec.toNat_ofNat,Nat.mod_eq_of_lt hnw,
    Nat.shiftLeft_eq,Nat.mod_eq_of_lt hn]

/-- The exponent of a normal number gets the other bias, and its fraction is rounded. -/
theorem normal_rounded (s : BitVec 1) (f : BitVec 23) {e : Nat} (he : 112 < e) (he' : e < 143) :
    let y : BitVec 16 := ((s ++ 0#8 ++ 0#23) >>> 16).setWidth 16 |||
      (BitVec.ofInt 16 ((e : Int)-127+15) <<< 10) |||
      ((0#1 ++ 0#8 ++ f : BitVec 32) >>> 13).setWidth 16
    (if (0#1 ++ 0#8 ++ f : BitVec 32) &&& 0x00001000#32 ≠ 0#32 then y+1#16 else y) =
      signed16 s (roundedF16 e f.toNat) := by
  have hlt := f.isLt
  have hfrac : (0#1 ++ 0#8 ++ f).toNat = f.toNat := by
    rw [pattern_toNat]
    simp
  have hhe : (BitVec.ofInt 16 ((e : Int)-127+15) <<< 10).toNat = (e-112)*2^10 :=
    ofInt_shiftLeft (by omega) (by omega)
  have hhm : (((0#1 ++ 0#8 ++ f : BitVec 32) >>> 13).setWidth 16).toNat = f.toNat/2^13 := by
    rw [BitVec.toNat_setWidth,BitVec.toNat_ushiftRight,Nat.shiftRight_eq_div_pow,hfrac]
    omega
  have hor : ((BitVec.ofInt 16 ((e : Int)-127+15) <<< 10) |||
      ((0#1 ++ 0#8 ++ f : BitVec 32) >>> 13).setWidth 16).toNat = (e-112)*2^10+f.toNat/2^13 := by
    rw [BitVec.toNat_or,hhe,hhm,← Nat.shiftLeft_eq]
    exact (Nat.shiftLeft_add_eq_or_of_lt (by omega) _).symm
  have hround := div_add_bit ((e-112)*2^23+f.toNat) 12
  have hr : roundedF16 e f.toNat = ((e-112)*2^23+f.toNat+2^12)/2^13 := by
    unfold roundedF16
    rw [if_neg (by omega),if_pos (by omega)]
  have htest := bit_test (show 12 < 32 by decide) (0#1 ++ 0#8 ++ f : BitVec 32)
  rw [hfrac] at htest
  dsimp only
  rw [BitVec.or_assoc,sign_or s hor (by omega)]
  by_cases hbit : (0#1 ++ 0#8 ++ f : BitVec 32) &&& 0x00001000#32 ≠ 0#32
  · rw [if_pos hbit]
    have hone := htest.mp hbit
    refine BitVec.eq_of_toNat_eq ?_
    have hs := s.isLt
    rw [BitVec.toNat_add,signed16_toNat s (by omega),signed16_toNat s (by omega)]
    change (_+1)%2^16 = _
    omega
  · rw [if_neg hbit]
    have hzero := htest.not.mp hbit
    congr 1
    omega

/-- What packing does to a number. -/
theorem floatToF16_number {s : BitVec 1} {e : BitVec 8} {f : BitVec 23} (he : e ≠ 255#8)
    (h0 : ¬ (e = 0#8 ∧ f = 0#23)) :
    floatToF16 (ofBits (s ++ e ++ f)) = signed16 s (roundedF16 e.toNat f.toNat) := by
  have hnum : ¬ (e = 255#8 ∧ f ≠ 0#23) := fun h => he h.1
  have hlt := f.isLt
  have hexp : ((0#1 ++ e ++ 0#23) >>> 23).toNat = e.toNat := by
    rw [BitVec.toNat_ushiftRight,pattern_toNat,Nat.shiftRight_eq_div_pow]
    simp
  have hmag : (0#1 ++ e ++ f : BitVec 32) ≠ 0#32 := fun h =>
    h0 (pattern_inj.mp (h.trans (show 0#32 = 0#1 ++ 0#8 ++ 0#23 from rfl))).2
  have hsign := @sign_or s 0#16 0 rfl (by decide)
  rw [BitVec.or_zero] at hsign
  unfold floatToF16
  rw [if_neg (ofBits_beq_zero.not.mpr h0),if_neg (isNaN_ofBits.not.mpr hnum),bits_ofBits hnum]
  dsimp only
  rw [mask_magnitude,mask_sign,mask_exponent,mask_fraction,if_neg hmag]
  by_cases hz : (0#1 ++ e ++ 0#23 : BitVec 32) = 0#32
  · obtain ⟨-,rfl,-⟩ := pattern_inj.mp (hz.trans (show 0#32 = 0#1 ++ 0#8 ++ 0#23 from rfl))
    rw [if_pos hz,hsign]
    rfl
  have hi : (0#1 ++ e ++ 0#23 : BitVec 32) ≠ 0x7F800000#32 := fun h =>
    he (pattern_inj.mp (h.trans (show 0x7F800000#32 = 0#1 ++ 255#8 ++ 0#23 from rfl))).2.1
  rw [if_neg hz,if_neg hi,hexp]
  by_cases hbig : ((e.toNat : Int)-127+15) ≥ 0x1F
  · rw [if_pos hbig]
    refine (sign_or s (show (0x7C00#16).toNat = 31*2^10 from rfl) (by decide)).trans ?_
    unfold roundedF16
    rw [if_neg (by omega),if_neg (by omega)]
  rw [if_neg hbig]
  by_cases hsmall : ((e.toNat : Int)-127+15) ≤ 0
  · rw [if_pos hsmall]
    by_cases htiny : 14-((e.toNat : Int)-127+15) > 24
    · rw [if_pos htiny,hsign]
      unfold roundedF16
      rw [if_pos (by omega),if_pos (by omega)]
    · have h14 : (14-((e.toNat : Int)-127+15)).toNat = 126-e.toNat := by omega
      have h13 : (13-((e.toNat : Int)-127+15)).toNat = 125-e.toNat := by omega
      rw [if_neg htiny,h14,h13]
      exact sign_or s (denormal_toNat (hidden_toNat f) hlt (by omega) (by omega))
        (roundedF16_lt hlt)
  · rw [if_neg hsmall]
    exact normal_rounded s f (by omega) (by omega)

theorem sign_shift (s : BitVec 1) :
    (s ++ 0#5 ++ 0#10).setWidth 32 <<< 16 = s ++ 0#8 ++ 0#23 := by
  revert s
  decide

theorem exponent_shift (g : BitVec 5) :
    ((0#1 ++ g ++ 0#10 : BitVec 16) >>> 10).toNat = g.toNat := by
  revert g
  decide

theorem fraction_toNat (h : BitVec 10) : (0#1 ++ 0#5 ++ h : BitVec 16).toNat = h.toNat := by
  rw [pattern_toNat]
  simp

theorem magnitude_zero {s : BitVec 1} {g : BitVec 5} {h : BitVec 10} (hz : s ++ g ++ h = 0#16) :
    g = 0#5 ∧ h = 0#10 :=
  (pattern_inj.mp (hz.trans (show 0#16 = 0#1 ++ 0#5 ++ 0#10 from rfl))).2

theorem join (s : BitVec 1) {y z : BitVec 32} {e f : Nat} (hy : y.toNat = e*2^23)
    (hz : z.toNat = f) (he : e < 2^8) (hf : f < 2^23) :
    ((s ++ 0#5 ++ 0#10).setWidth 32 <<< 16) ||| y ||| z =
      s ++ BitVec.ofNat 8 e ++ BitVec.ofNat 23 f := by
  have hy' : y = 0#1 ++ BitVec.ofNat 8 e ++ 0#23 := by
    refine BitVec.eq_of_toNat_eq ?_
    rw [pattern_toNat,hy]
    simp
    omega
  have hz' : z = 0#1 ++ 0#8 ++ BitVec.ofNat 23 f := by
    refine BitVec.eq_of_toNat_eq ?_
    rw [pattern_toNat,hz]
    simp
    omega
  have h1 := or_pattern s 0#8 0#23 0#1 (BitVec.ofNat 8 e) 0#23
  have h2 := or_pattern s (BitVec.ofNat 8 e) 0#23 0#1 0#8 (BitVec.ofNat 23 f)
  simp only [BitVec.or_zero,BitVec.zero_or] at h1 h2
  rw [sign_shift,hy',hz']
  exact (congrArg (· ||| _) h1).trans h2

theorem normalizeF16_spec (fuel : Nat) {hm : BitVec 16} {h : Nat} (hh : hm.toNat = h)
    (hlt : h < 2^10) (hfuel : 2^10 ≤ h*2^fuel) (e : Nat) :
    ∃ j y, normalizeF16 fuel hm e = (y,e+j) ∧ y.toNat = h*2^(j+1) ∧ 2^10 ≤ h*2^(j+1) ∧
      h*2^(j+1) < 2^11 := by
  induction fuel generalizing hm h e with
  | zero =>
    rw [Nat.pow_zero,Nat.mul_one] at hfuel
    omega
  | succ fuel ih =>
    have hy : (hm <<< 1).toNat = h*2 := by
      rw [BitVec.toNat_shiftLeft,hh,Nat.shiftLeft_eq]
      omega
    have hbit : (hm <<< 1) &&& 0x0400#16 = 0#16 ↔ h*2 < 2^10 := by
      have htest := bit_test (show 10 < 16 by decide) (hm <<< 1)
      rw [hy] at htest
      rw [← not_iff_not]
      refine htest.trans ?_
      omega
    rw [normalizeF16]
    by_cases hlow : h*2 < 2^10
    · rw [if_pos (hbit.mpr hlow)]
      obtain ⟨j,y,hn,hy',hlo,hhi⟩ := ih hy hlow (by rw [Nat.mul_assoc,← Nat.pow_succ']; exact hfuel)
        (e+1)
      have hj : h*2*2^(j+1) = h*2^(j+1+1) := by
        rw [Nat.mul_assoc,← Nat.pow_succ']
      rw [hj] at hy' hlo hhi
      exact ⟨j+1,y,by rw [hn,Nat.add_assoc,Nat.add_comm 1],hy',hlo,hhi⟩
    · rw [if_neg (hbit.not.mpr hlow)]
      exact ⟨0,_,rfl,hy,by omega,by omega⟩

theorem unpack_normal (s : BitVec 1) {g : BitVec 5} (h : BitVec 10) (hg : g ≠ 31#5)
    (hg0 : g ≠ 0#5) :
    ∃ (e : BitVec 8) (f : BitVec 23), e ≠ 255#8 ∧
      units 23 (e.toNat*2^23+f.toNat) = units 10 (g.toNat*2^10+h.toNat)*2^125 ∧
      ((s ++ 0#5 ++ 0#10).setWidth 32 <<< 16) |||
        (BitVec.ofInt 32 ((g.toNat : Int)-15+127) <<< 23) |||
        ((0#1 ++ 0#5 ++ h : BitVec 16).setWidth 32 <<< 13) = s ++ e ++ f := by
  have hglt := g.isLt
  have hhlt := h.isLt
  have hgne : g.toNat ≠ 31 := fun hc => hg (BitVec.eq_of_toNat_eq hc)
  have hgpos : g.toNat ≠ 0 := fun hc => hg0 (BitVec.eq_of_toNat_eq hc)
  have hexp : (BitVec.ofInt 32 ((g.toNat : Int)-15+127) <<< 23).toNat = (g.toNat+112)*2^23 :=
    ofInt_shiftLeft (by omega) (by omega)
  have hfrac : ((0#1 ++ 0#5 ++ h : BitVec 16).setWidth 32 <<< 13).toNat = h.toNat*2^13 := by
    rw [BitVec.toNat_shiftLeft,BitVec.toNat_setWidth,fraction_toNat,Nat.shiftLeft_eq]
    omega
  have he8 : (BitVec.ofNat 8 (g.toNat+112)).toNat = g.toNat+112 := Nat.mod_eq_of_lt (by omega)
  have hf23 : (BitVec.ofNat 23 (h.toNat*2^13)).toNat = h.toNat*2^13 := Nat.mod_eq_of_lt (by omega)
  refine ⟨_,_,fun hc => ?_,?_,join s hexp hfrac (by omega) (by omega)⟩
  · have h255 : (255#8).toNat = 255 := rfl
    rw [hc] at he8
    omega
  · have hb := @units_between 10 (g.toNat*2^10+h.toNat) 13 112 (by omega) 0 (by decide)
    rw [he8,hf23]
    rw [Nat.zero_mul,Nat.add_zero,Nat.add_zero] at hb
    refine (congrArg (units 23) ?_).trans (hb.trans ?_)
    · omega
    · ring

theorem mask_low (y : BitVec 16) : (y &&& 0x03FF#16).toNat = y.toNat%2^10 := by
  rw [BitVec.toNat_and]
  exact Nat.and_two_pow_sub_one_eq_mod y.toNat 10

/-- A denormal becomes a normal number. -/
theorem unpack_denormal (s : BitVec 1) {h : BitVec 10} (h0 : h ≠ 0#10) :
    ∃ (e : BitVec 8) (f : BitVec 23), e ≠ 255#8 ∧
      units 23 (e.toNat*2^23+f.toNat) = h.toNat*2^125 ∧
      let n := normalizeF16 10 (0#1 ++ 0#5 ++ h) 0
      ((s ++ 0#5 ++ 0#10).setWidth 32 <<< 16) |||
        (BitVec.ofInt 32 ((0 : Int)-15+127-n.2) <<< 23) |||
        ((n.1 &&& 0x03FF#16).setWidth 32 <<< 13) = s ++ e ++ f := by
  have hhlt := h.isLt
  have hpos : 0 < h.toNat := BitVec.toNat_pos_of_ne_zero h0
  obtain ⟨j,y,hn,hy,hlo,hhi⟩ := normalizeF16_spec 10 (fraction_toNat h) hhlt (by omega) 0
  have hj : j ≤ 9 := by
    by_contra hc
    have hp : 2^11 ≤ 2^(j+1) := Nat.pow_le_pow_right (by decide) (by omega)
    have hle : 1*2^(j+1) ≤ h.toNat*2^(j+1) := Nat.mul_le_mul_right _ hpos
    omega
  rw [hn]
  dsimp only
  have hexp : (BitVec.ofInt 32 ((0 : Int)-15+127-((0+j : Nat) : Int)) <<< 23).toNat =
      (112-j)*2^23 := ofInt_shiftLeft (by omega) (by omega)
  have hfrac : ((y &&& 0x03FF#16).setWidth 32 <<< 13).toNat = (h.toNat*2^(j+1)-2^10)*2^13 := by
    rw [BitVec.toNat_shiftLeft,BitVec.toNat_setWidth,mask_low,hy,Nat.shiftLeft_eq]
    omega
  have he8 : (BitVec.ofNat 8 (112-j)).toNat = 112-j := Nat.mod_eq_of_lt (by omega)
  have hf23 : (BitVec.ofNat 23 ((h.toNat*2^(j+1)-2^10)*2^13)).toNat = (h.toNat*2^(j+1)-2^10)*2^13 :=
    Nat.mod_eq_of_lt (by omega)
  refine ⟨_,_,fun hc => ?_,?_,join s hexp hfrac (by omega) (by omega)⟩
  · have h255 : (255#8).toNat = 255 := rfl
    rw [hc] at he8
    omega
  · have hb := @units_binade 23 (111-j) ((h.toNat*2^(j+1)-2^10)*2^13) (by omega)
    rw [he8,hf23,show 112-j = 111-j+1 by omega,hb]
    have hsum : 2^23+(h.toNat*2^(j+1)-2^10)*2^13 = h.toNat*2^(j+1)*2^13 := by omega
    have hpow : 2^(j+1)*2^13*2^(111-j) = 2^125 := by
      rw [← Nat.pow_add,← Nat.pow_add,show j+1+13+(111-j) = 125 by omega]
    rw [hsum,← hpow]
    ring

/-- A number of half precision is unpacked without change. -/
theorem floatFromF16_pattern (s : BitVec 1) {g : BitVec 5} (h : BitVec 10) (hg : g ≠ 31#5) :
    ∃ (e : BitVec 8) (f : BitVec 23), e ≠ 255#8 ∧
      units 23 (e.toNat*2^23+f.toNat) = units 10 (g.toNat*2^10+h.toNat)*2^125 ∧
      (floatFromF16 (s ++ g ++ h) = s ++ e ++ f ∨
        floatFromF16 (s ++ g ++ h) = 0#32 ∧ units 10 (g.toNat*2^10+h.toNat) = 0) := by
  have hsign : (s ++ g ++ h) &&& 0x8000#16 = s ++ 0#5 ++ 0#10 := pattern_and_first s g h
  have hexp : (s ++ g ++ h) &&& 0x7C00#16 = 0#1 ++ g ++ 0#10 := pattern_and_second s g h
  have hfrac : (s ++ g ++ h) &&& 0x03FF#16 = 0#1 ++ 0#5 ++ h := pattern_and_third s g h
  have hmag : (s ++ g ++ h) &&& 0x7FFF#16 = 0#1 ++ g ++ h := pattern_and_rest s g h
  have hnum : ∀ (e : BitVec 8) (f : BitVec 23), e ≠ 255#8 →
      (if (ofBits (s ++ e ++ f)).isNaN then 0#32 else s ++ e ++ f) = s ++ e ++ f :=
    fun e f he => if_neg (isNaN_ofBits.not.mpr fun hc => he hc.1)
  unfold floatFromF16
  rw [hmag,hsign,hexp,hfrac]
  dsimp only
  by_cases hv : (s ++ g ++ h : BitVec 16) = 0#16
  · obtain ⟨rfl,rfl⟩ := magnitude_zero hv
    exact ⟨0#8,0#23,by decide,by simp [units],Or.inr ⟨if_pos hv,by simp [units]⟩⟩
  rw [if_neg hv]
  by_cases hm : (0#1 ++ g ++ h : BitVec 16) = 0#16
  · obtain ⟨rfl,rfl⟩ := magnitude_zero hm
    refine ⟨0#8,0#23,by decide,by simp [units],Or.inl ?_⟩
    rw [if_pos hm,sign_shift]
    exact hnum _ _ (by decide)
  rw [if_neg hm,exponent_shift]
  by_cases hden : (0#1 ++ g ++ 0#10 : BitVec 16) = 0#16
  · obtain rfl := (magnitude_zero hden).1
    obtain ⟨e,f,he,hu,hj⟩ := unpack_denormal s fun hc : h = 0#10 => hm (hc ▸ hden)
    dsimp only at hj
    refine ⟨e,f,he,?_,Or.inl ?_⟩
    · have h0 : (0#5).toNat*2^10+h.toNat = h.toNat := by
        simp
      rw [hu,h0,units_of_lt h.isLt]
    · rw [if_pos hden]
      refine (congrArg (fun x => if (ofBits x).isNaN then 0#32 else x) hj).trans ?_
      exact hnum _ _ he
  · have hinf : (0#1 ++ g ++ 0#10 : BitVec 16) ≠ 0x7C00#16 := by
      intro hc
      have hn := congrArg (fun x : BitVec 16 => (x >>> 10).toNat) hc
      rw [exponent_shift] at hn
      exact hg (BitVec.eq_of_toNat_eq hn)
    obtain ⟨e,f,he,hu,hj⟩ := unpack_normal s h hg fun hc => hden (by rw [hc]; rfl)
    refine ⟨e,f,he,hu,Or.inl ?_⟩
    rw [if_neg hden,if_neg hinf,hj]
    exact hnum _ _ he

theorem units_midpoint {x : Nat} (h : 2^10 ≤ x) :
    2*units 23 (112*2^23+(x*2^13+2^12)) = (units 10 x+units 10 (x+1))*2^125 := by
  have hb := @units_between 10 x 13 112 h (2^12) (by decide)
  have hlt := units_strictMono 10 (Nat.lt_succ_self x)
  obtain ⟨d,hd⟩ := Nat.exists_eq_add_of_lt hlt
  rw [Nat.succ_eq_add_one] at hd
  have hsub : units 10 (x+1)-units 10 x = d+1 := by omega
  rw [hsub] at hb
  refine (congrArg (2*·) hb).trans ?_
  rw [hd]
  ring

theorem round_bounds (q k : Nat) : let h := (q+2^k)/2^(k+1)
    (∀ j, j+1 = h → (j+h)*2^(k+1) ≤ 2*q) ∧ 2*q < (h+(h+1))*2^(k+1) := by
  have hpos : 0 < 2^(k+1) := Nat.two_pow_pos _
  have hle := Nat.div_mul_le_self (q+2^k) (2^(k+1))
  have hlt := Nat.lt_div_mul_add (a := q+2^k) hpos
  dsimp only
  generalize (q+2^k)/2^(k+1) = h at hle hlt
  rw [Nat.pow_succ] at hle hlt ⊢
  refine ⟨fun j hj => ?_,?_⟩
  · subst hj
    have hs := Nat.add_one_mul j (2^k*2)
    rw [Nat.add_mul]
    omega
  · have hs := Nat.add_one_mul h (2^k*2)
    rw [Nat.add_mul]
    omega

/-- The number is between the midpoints to both sides of the pattern. -/
theorem roundedF16_rounds {e f : Nat} (he : e < 143) (hf : f < 2^23) :
    (∀ j, j+1 = roundedF16 e f → (units 10 j+units 10 (roundedF16 e f))*2^125 ≤
      2*units 23 (e*2^23+f)) ∧
    2*units 23 (e*2^23+f) < (units 10 (roundedF16 e f)+units 10 (roundedF16 e f+1))*2^125 := by
  unfold roundedF16
  by_cases h112 : e ≤ 112
  · rw [if_pos h112]
    by_cases h102 : e < 102
    · rw [if_pos h102]
      refine ⟨fun j hj => absurd hj (Nat.succ_ne_zero j),?_⟩
      have hlt := units_strictMono 23 (show e*2^23+f < 102*2^23 by omega)
      have hb := @units_binade 23 101 0 (Nat.zero_le _)
      rw [Nat.add_zero,Nat.add_zero] at hb
      rw [hb] at hlt
      rw [units_of_lt (show 0 < 2^10 by decide),units_of_lt (show 0+1 < 2^10 by decide)]
      omega
    · obtain ⟨n,rfl⟩ : ∃ n, e = n+1 := ⟨e-1,by omega⟩
      have hk : 126-(n+1) = 125-(n+1)+1 := by omega
      obtain ⟨hlow,hhigh⟩ := round_bounds (2^23+f) (125-(n+1))
      rw [if_neg h102,hk]
      have hbound : (2^23+f+2^(125-(n+1)))/2^(125-(n+1)+1) < 2^11 := by
        have h14 : 2^14 ≤ 2^(125-(n+1)+1) := Nat.pow_le_pow_right (by decide) (by omega)
        have h23 : 2^(125-(n+1)) ≤ 2^23 := Nat.pow_le_pow_right (by decide) (by omega)
        exact Nat.div_lt_of_lt_mul (by omega)
      generalize (2^23+f+2^(125-(n+1)))/2^(125-(n+1)+1) = h at hlow hhigh hbound
      have hpow : 2^125 = 2^(125-(n+1)+1)*2^n := by
        rw [← Nat.pow_add,show 125-(n+1)+1+n = 125 by omega]
      rw [units_binade n hf.le,units_of_le hbound.le,units_of_le (Nat.succ_le_of_lt hbound),hpow,
        ← Nat.mul_assoc,← Nat.mul_assoc]
      refine ⟨fun j hj => ?_,Nat.mul_lt_mul_of_pos_right hhigh (Nat.two_pow_pos n)⟩
      rw [units_of_le (by omega : j ≤ 2^11),← Nat.mul_assoc]
      exact Nat.mul_le_mul_right _ (hlow j hj)
  · rw [if_neg h112,if_pos he]
    obtain ⟨a,ha⟩ : ∃ a, a = (e-112)*2^23+f := ⟨_,rfl⟩
    obtain ⟨h,hh⟩ : ∃ h, h = (a+2^12)/2^13 := ⟨_,rfl⟩
    have hpat : e*2^23+f = 112*2^23+a := by omega
    have hpos : 2^23 ≤ a := by omega
    have hnormal : 2^10 ≤ h := by omega
    have hle : ∀ j, j+1 = h → j*2^13+2^12 ≤ a := by
      intro j hj
      omega
    have hlt : a < h*2^13+2^12 := by omega
    rw [hpat,← ha,← hh]
    refine ⟨fun j hj => ?_,?_⟩
    · rcases Nat.lt_or_ge j (2^10) with hden | hge
      · have h10 : h = 2^10 := by omega
        have hj' := (units_strictMono 10 (show j < 2^10 from hden)).le
        have hge := (units_strictMono 23).monotone (Nat.add_le_add_left hpos (112*2^23))
        have hb := @units_binade 23 112 0 (Nat.zero_le _)
        have hu := units_of_le (show 2^10 ≤ 2^(10+1) by decide)
        rw [show (112+1)*2^23+0 = 112*2^23+2^23 from rfl] at hb
        rw [hb,Nat.add_zero] at hge
        rw [h10]
        rw [hu] at hj' ⊢
        refine le_trans (Nat.mul_le_mul_right _ (Nat.add_le_add_right hj' _)) ?_
        refine le_trans (le_of_eq ?_) (Nat.mul_le_mul_left 2 hge)
        ring
      · have hmid := units_midpoint hge
        have hge := (units_strictMono 23).monotone (Nat.add_le_add_left (hle j hj) (112*2^23))
        rw [← hj,← hmid]
        exact Nat.mul_le_mul_left 2 hge
    · rw [← units_midpoint hnormal]
      exact Nat.mul_lt_mul_of_pos_left (units_strictMono 23 (Nat.add_lt_add_left hlt _)) (by decide)

theorem packed_nan {s : BitVec 1} {f : BitVec 23} (hf : f ≠ 0#23) :
    floatToF16 (ofBits (s ++ 255#8 ++ f)) = 0#16 := by
  unfold floatToF16
  rw [if_neg (ofBits_beq_zero.not.mpr fun h => absurd h.1 (by decide)),
    if_pos (isNaN_ofBits.mpr ⟨rfl,hf⟩)]
  rfl

theorem packed_value (s : BitVec 1) {e : BitVec 8} (f : BitVec 23) (he : e ≠ 255#8) :
    (floatToF16 (ofBits (s ++ e ++ f))).toNat%2^15 = roundedF16 e.toNat f.toNat ∧
    value 10 15 (floatToF16 (ofBits (s ++ e ++ f))) =
      (if s.msb then -1 else 1)*(units 10 (roundedF16 e.toNat f.toNat)/2^24) := by
  by_cases h0 : e = 0#8 ∧ f = 0#23
  · have hz : floatToF16 (ofBits (s ++ e ++ f)) = 0#16 := by
      unfold floatToF16
      rw [if_pos (ofBits_beq_zero.mpr h0)]
    have hr : roundedF16 e.toNat f.toNat = 0 := by
      rw [h0.1,h0.2]
      rfl
    rw [hz,hr,units_of_lt (by decide),Nat.cast_zero,zero_div,mul_zero]
    exact ⟨rfl,value_zero 10 15 16⟩
  · have hlt := @roundedF16_lt e.toNat f.toNat f.isLt
    have hmag : (signed16 s (roundedF16 e.toNat f.toNat)).toNat%2^15 =
      roundedF16 e.toNat f.toNat := by
      rw [signed16_toNat s hlt]
      omega
    have hmsb : (signed16 s (roundedF16 e.toNat f.toNat)).msb = s.msb := by
      refine (BitVec.msb_append).trans ?_
      rw [if_neg (by decide)]
    rw [floatToF16_number he h0]
    refine ⟨hmag,?_⟩
    unfold value
    rw [hmsb,show 16-1 = 15 from rfl,hmag]

theorem unpacked_value {v : BitVec 16} (hv : Finite 10 v) :
    Finite 23 (floatFromF16 v) ∧ value 23 127 (floatFromF16 v) = value 10 15 v := by
  obtain ⟨s,g,h,rfl⟩ := @exists_pattern 1 5 10 v
  have hg := (finite_pattern s g h).mp hv
  obtain ⟨e,f,he,hu,hx⟩ := floatFromF16_pattern s h fun hc : g = 31#5 => by
    rw [hc] at hg
    exact absurd hg (by decide)
  have hvalue := value_pattern s g h 15
  rcases hx with hx | ⟨hx,hz⟩
  · have helt := e.isLt
    have hne : e.toNat ≠ 255 := fun hc => he (BitVec.eq_of_toNat_eq hc)
    rw [hx]
    refine ⟨(finite_pattern s e f).mpr (by omega),?_⟩
    refine (value_pattern s e f 127).trans (Eq.trans ?_ hvalue.symm)
    rw [hu,Nat.cast_mul,Nat.cast_pow,show 23+127-1 = 10+15-1+125 from rfl,pow_add]
    rw [Nat.cast_ofNat,mul_div_mul_right _ _ (pow_ne_zero _ two_ne_zero)]
  · rw [hx,hvalue,hz,Nat.cast_zero,zero_div,mul_zero]
    exact ⟨by decide,value_zero 23 127 32⟩

theorem roundedF16_overflow {e f : Nat} (he : e < 255) (hf : f < 2^23) :
    (65520*2^149 ≤ units 23 (e*2^23+f) → roundedF16 e f = 31*2^10) ∧
    (units 23 (e*2^23+f) < 65520*2^149 → e < 143 ∧ roundedF16 e f < 31*2^10) := by
  have hb := @units_binade 23 141 (2^23-2^12) (by decide)
  have hu : (2^23+(2^23-2^12))*2^141 = 65520*2^149 := by decide
  rw [hu] at hb
  rw [← hb,(units_strictMono 23).le_iff_le,(units_strictMono 23).lt_iff_lt]
  unfold roundedF16
  refine ⟨fun h => ?_,fun h => ?_⟩
  · rw [if_neg (by omega)]
    by_cases h143 : e < 143
    · rw [if_pos h143]
      omega
    · rw [if_neg h143]
  · refine ⟨by omega,?_⟩
    by_cases h112 : e ≤ 112
    · rw [if_pos h112]
      by_cases h102 : e < 102
      · rw [if_pos h102]
        decide
      · have h14 : 2^14 ≤ 2^(126-e) := Nat.pow_le_pow_right (by decide) (by omega)
        have h23 : 2^(125-e) ≤ 2^23 := Nat.pow_le_pow_right (by decide) (by omega)
        rw [if_neg h102]
        exact Nat.div_lt_of_lt_mul (by omega)
    · rw [if_neg h112,if_pos (by omega)]
      omega

def half (j : Nat) : ℚ := units 10 j/2^24

theorem half_strictMono : StrictMono half := by
  intro i j h
  exact div_lt_div_of_pos_right (Nat.cast_lt.mpr (units_strictMono 10 h)) (by positivity)

theorem half_zero : half 0 = 0 := by
  rw [half,units_of_lt (by decide),Nat.cast_zero,zero_div]

theorem roundedF16_half {e f : Nat} (he : e < 143) (hf : f < 2^23) :
    Rounds half (units 23 (e*2^23+f)/2^149) (roundedF16 e f) := by
  obtain ⟨hlow,hhigh⟩ := roundedF16_rounds he hf
  have hsum : ∀ i j, half i+half j = ((units 10 i+units 10 j)*2^125 : Nat)/2^149 := by
    intro i j
    rw [half,half,← add_div,show (149 : Nat) = 24+125 from rfl,pow_add,Nat.cast_mul,Nat.cast_add,
      Nat.cast_pow,Nat.cast_ofNat,mul_div_mul_right _ _ (pow_ne_zero _ two_ne_zero)]
  have htwo : 2*((units 23 (e*2^23+f) : ℚ)/2^149) = (2*units 23 (e*2^23+f) : Nat)/2^149 := by
    rw [Nat.cast_mul,Nat.cast_ofNat,mul_div_assoc]
  refine ⟨fun j hj => ?_,?_⟩
  · rw [hsum,htwo]
    exact div_le_div_of_nonneg_right (Nat.cast_le.mpr (hlow j hj)) (by positivity)
  · rw [hsum,htwo]
    exact div_lt_div_of_pos_right (Nat.cast_lt.mpr hhigh) (by positivity)

theorem signed16_infinity (s : BitVec 1) :
    signed16 s (31*2^10) = if s.msb then 0xFC00#16 else 0x7C00#16 := by
  revert s
  decide

/-- Packing rounds to the nearest number of half precision, of two the greater one, from 65520 on to
an infinity; none of the numbers becomes zero. -/
theorem f16_nearest (x : BitVec 32) :
    (IsNaN 23 x → floatToF16 (ofBits x) = 0#16) ∧
    (Finite 23 x → 65520 ≤ |value 23 127 x| →
      floatToF16 (ofBits x) = if x.msb then 0xFC00#16 else 0x7C00#16) ∧
    (Finite 23 x → |value 23 127 x| < 65520 →
      let v := floatToF16 (ofBits x)
      Finite 10 v ∧ Finite 23 (floatFromF16 v) ∧
        value 23 127 (floatFromF16 v) = value 10 15 v ∧
        ∀ y : BitVec 16, Finite 10 y →
          |value 23 127 x-value 23 127 (floatFromF16 v)| ≤ |value 23 127 x-value 10 15 y| ∧
          (|value 23 127 x-value 23 127 (floatFromF16 v)| = |value 23 127 x-value 10 15 y| →
            |value 10 15 y| ≤ |value 23 127 (floatFromF16 v)|)) := by
  obtain ⟨s,e,f,rfl⟩ := @exists_pattern 1 8 23 x
  have hflt := f.isLt
  have hvalue := value_pattern s e f 127
  have hne : Finite 23 (s ++ e ++ f) → e ≠ 255#8 := by
    intro hfin hc
    rw [finite_pattern,hc] at hfin
    exact absurd hfin (by decide)
  have habs : |value 23 127 (s ++ e ++ f)| = units 23 (e.toNat*2^23+f.toNat)/2^149 := by
    rw [abs_value,pattern_magnitude]
  have hlt : e ≠ 255#8 → e.toNat < 255 := by
    intro he
    have := e.isLt
    have hc : e.toNat ≠ 255 := fun hc => he (BitVec.eq_of_toNat_eq hc)
    omega
  refine ⟨fun hnan => ?_,fun hfin hge => ?_,fun hfin hsmall => ?_⟩
  · obtain ⟨he,hf⟩ := (isNaN_pattern s e f).mp hnan
    have he' : e = 255#8 := BitVec.eq_of_toNat_eq (Nat.succ.inj he)
    rw [he']
    exact packed_nan fun hc => hf (congrArg BitVec.toNat hc)
  · have he := hne hfin
    rw [habs,le_div_iff₀ (by positivity)] at hge
    have hge' : 65520*2^149 ≤ units 23 (e.toNat*2^23+f.toNat) := by exact_mod_cast hge
    have hr := (roundedF16_overflow (hlt he) hflt).1 hge'
    have h0 : ¬ (e = 0#8 ∧ f = 0#23) := by
      rintro ⟨rfl,rfl⟩
      exact absurd hr (by decide)
    rw [floatToF16_number he h0,hr,pattern_msb]
    exact signed16_infinity s
  · have he := hne hfin
    rw [habs,div_lt_iff₀ (by positivity)] at hsmall
    have hsmall' : units 23 (e.toNat*2^23+f.toNat) < 65520*2^149 := by exact_mod_cast hsmall
    obtain ⟨h143,hr⟩ := (roundedF16_overflow (hlt he) hflt).2 hsmall'
    obtain ⟨hmag,hpacked⟩ := packed_value s f he
    dsimp only
    have hfin16 : Finite 10 (floatToF16 (ofBits (s ++ e ++ f))) := by
      unfold BinaryFloat.Finite
      rw [show 16-1 = 15 from rfl,hmag]
      omega
    obtain ⟨hfin32,hsame⟩ := unpacked_value hfin16
    refine ⟨hfin16,hfin32,hsame,fun y hy => ?_⟩
    have hround := roundedF16_half h143 hflt
    have hpos : (0 : ℚ) ≤ units 23 (e.toNat*2^23+f.toNat)/2^149 :=
      div_nonneg (Nat.cast_nonneg _) (by positivity)
    have hle : |value 10 15 y| ≤ |value 10 15 (floatToF16 (ofBits (s ++ e ++ f)))| ↔
        half (y.toNat%2^15) ≤ half (roundedF16 e.toNat f.toNat) := by
      rw [abs_value,abs_value,show 16-1 = 15 from rfl,hmag]
      rfl
    have hx : value 23 127 (s ++ e ++ f) = (if s.msb then -1 else 1)*
      (units 23 (e.toNat*2^23+f.toNat)/2^149) := hvalue
    have hv : value 10 15 (floatToF16 (ofBits (s ++ e ++ f))) =
      (if s.msb then -1 else 1)*half (roundedF16 e.toNat f.toNat) := hpacked
    have hy' : value 10 15 y = (if y.msb then -1 else 1)*half (y.toNat%2^15) := rfl
    rw [hsame,hle,hv,hx,hy',abs_signed_sub,abs_signed_sub,if_pos rfl]
    by_cases hs : s.msb = y.msb
    · rw [if_pos hs]
      exact hround.nearest half_strictMono _
    · rw [if_neg hs]
      exact hround.nearest_neg half_strictMono half_zero hpos _

end ApxBus.Telemetry
