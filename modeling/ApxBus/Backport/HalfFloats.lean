import ApxBus.Backport.Variables
import ApxBus.Telemetry.HalfPrecision
set_option autoImplicit false

/-! The two codecs of half precision, that of the backport and that of the telemetry: where they
agree, and numbers that are packed and unpacked again and again. -/

namespace ApxBus.Backport
open Telemetry Real32 BinaryFloat

theorem floatFromF16_eq (h : BitVec 16) : floatFromF16 h =
    if h = 0#16 then 0#32 else if (ofBits (unpackedF2 h)).isNaN then 0#32 else unpackedF2 h := rfl

theorem floatToF16_eq (v : Float32) : floatToF16 v =
    if v == ofNat 0 then 0#16 else packF2 (if v.isNaN then 0#32 else bits v) := rfl

section
variable (s : BitVec 1)

theorem isValid_pattern (e : BitVec 8) (f : BitVec 23) : isValid (s ++ e ++ f) = (e != 255#8) := by
  unfold isValid
  rw [mask_exponent]
  have hinf : 0x7F800000#32 = 0#1 ++ 255#8 ++ 0#23 := rfl
  rw [hinf,Bool.eq_iff_iff,decide_eq_true_iff,bne_iff_ne,not_iff_not,pattern_inj]
  simp

theorem packF2_pattern {e : BitVec 8} (f : BitVec 23) (hnum : ¬ (e = 255#8 ∧ f ≠ 0#23))
    (h0 : ¬ (e = 0#8 ∧ f = 0#23)) :
    packF2 (s ++ e ++ f) = floatToF16 (ofBits (s ++ e ++ f)) := by
  rw [floatToF16_eq,if_neg (ofBits_beq_zero.not.mpr h0),if_neg (isNaN_ofBits.not.mpr hnum),
    bits_ofBits hnum]

theorem packF2_nan {f : BitVec 23} (hf : f ≠ 0#23) : packF2 (s ++ 255#8 ++ f) = 0xFE00#16 := by
  have hmag : (0#1 ++ 255#8 ++ f : BitVec 32) ≠ 0#32 := fun h =>
    absurd (pattern_inj.mp (h.trans (show 0#32 = 0#1 ++ 0#8 ++ 0#23 from rfl))).2.1 (by decide)
  have hfrac : (0#1 ++ 0#8 ++ f : BitVec 32) ≠ 0#32 := fun h =>
    hf (pattern_inj.mp (h.trans (show 0#32 = 0#1 ++ 0#8 ++ 0#23 from rfl))).2.2
  unfold packF2
  dsimp only
  rw [mask_magnitude,mask_exponent,mask_fraction,if_neg hmag,if_neg (by decide),
    if_pos (show (0#1 ++ 255#8 ++ 0#23 : BitVec 32) = 0x7F800000#32 from rfl),if_neg hfrac]

theorem zero_cases {e : BitVec 8} {f : BitVec 23} (h0 : e = 0#8 ∧ f = 0#23) :
    s ++ e ++ f = 0#32 ∨ s ++ e ++ f = 0x80000000#32 := by
  rw [h0.1,h0.2]
  revert s
  decide

end

theorem isNaN_iff (s : BitVec 1) (e : BitVec 8) (f : BitVec 23) :
    IsNaN 23 (s ++ e ++ f) ↔ e = 255#8 ∧ f ≠ 0#23 := by
  rw [isNaN_pattern,Ne,Ne,← @BitVec.toNat_inj 8 e,← @BitVec.toNat_inj 23 f]
  change e.toNat+1 = 256 ∧ _ ↔ e.toNat = 255 ∧ ¬ f.toNat = 0
  omega

theorem packF2_eq (x : BitVec 32) : packF2 x =
    if IsNaN 23 x then 0xFE00#16 else if x = 0x80000000#32 then 0x8000#16
    else floatToF16 (ofBits x) := by
  obtain ⟨s,e,f,rfl⟩ := @exists_pattern 1 8 23 x
  by_cases hnan : e = 255#8 ∧ f ≠ 0#23
  · rw [if_pos ((isNaN_iff s e f).mpr hnan),hnan.1]
    exact packF2_nan s hnan.2
  rw [if_neg ((isNaN_iff s e f).not.mpr hnan)]
  by_cases h0 : e = 0#8 ∧ f = 0#23
  · have hpacked : floatToF16 (ofBits (s ++ e ++ f)) = 0#16 := by
      rw [floatToF16_eq,if_pos (ofBits_beq_zero.mpr h0)]
    rw [hpacked]
    rcases zero_cases s h0 with hz | hz
    · rw [hz]
      rfl
    · rw [hz]
      rfl
  · rw [if_neg,packF2_pattern s f hnan h0]
    intro hz
    obtain ⟨-,he,hf⟩ := pattern_inj.mp (hz.trans (show 0x80000000#32 = 1#1 ++ 0#8 ++ 0#23 from rfl))
    exact h0 ⟨he,hf⟩

theorem finite16_iff (s : BitVec 1) (g : BitVec 5) (h : BitVec 10) :
    Finite 10 (s ++ g ++ h) ↔ g ≠ 31#5 := by
  have hlt := g.isLt
  rw [finite_pattern,Ne,← @BitVec.toNat_inj 5 g]
  change g.toNat+1 < 32 ↔ ¬ g.toNat = 31
  omega

theorem units_ne_zero {j : Nat} (hj : j ≠ 0) : units 10 j ≠ 0 := by
  have h := units_strictMono 10 (Nat.pos_of_ne_zero hj)
  omega

theorem floatFromF16_number {h : BitVec 16} (hf : Finite 10 h) :
    h = 0#16 ∨ h = 0x8000#16 ∨ ∃ (s : BitVec 1) (g : BitVec 5) (t : BitVec 10) (e : BitVec 8)
      (f : BitVec 23), h = s ++ g ++ t ∧ g ≠ 31#5 ∧ g.toNat*2^10+t.toNat ≠ 0 ∧ e ≠ 255#8 ∧
      ¬ (e = 0#8 ∧ f = 0#23) ∧
      units 23 (e.toNat*2^23+f.toNat) = units 10 (g.toNat*2^10+t.toNat)*2^125 ∧
      floatFromF16 h = s ++ e ++ f := by
  obtain ⟨s,g,t,rfl⟩ := @exists_pattern 1 5 10 h
  have hg := (finite16_iff s g t).mp hf
  by_cases hj : g.toNat*2^10+t.toNat = 0
  · have hg0 : g = 0#5 := BitVec.eq_of_toNat_eq (show g.toNat = 0 by omega)
    have ht0 : t = 0#10 := BitVec.eq_of_toNat_eq (show t.toNat = 0 by omega)
    rw [hg0,ht0]
    have hs : ∀ s : BitVec 1, s ++ 0#5 ++ 0#10 = 0#16 ∨ s ++ 0#5 ++ 0#10 = 0x8000#16 := by decide
    exact (hs s).imp_right Or.inl
  · obtain ⟨e,f,he,hu,hx⟩ := floatFromF16_pattern s t hg
    have hx := hx.resolve_right fun hz => units_ne_zero hj hz.2
    refine Or.inr (Or.inr ⟨s,g,t,e,f,rfl,hg,hj,he,?_,hu,hx⟩)
    rintro ⟨rfl,rfl⟩
    have hz : units 23 ((0#8).toNat*2^23+(0#23).toNat) = 0 := by simp [units]
    rw [hz,eq_comm,Nat.mul_eq_zero] at hu
    exact units_ne_zero hj (hu.resolve_right (pow_ne_zero 125 two_ne_zero))

theorem unpackedF2_number {h : BitVec 16} (hf : Finite 10 h) :
    unpackedF2 h = floatFromF16 h ∧ isValid (floatFromF16 h) = true := by
  rcases floatFromF16_number hf with rfl | rfl | ⟨s,g,t,e,f,-,-,-,he,hne,-,hx⟩
  · exact ⟨rfl,rfl⟩
  · decide +kernel
  · have hvalid : isValid (floatFromF16 h) = true := by
      rw [hx,isValid_pattern]
      exact bne_iff_ne.mpr he
    have h0 : floatFromF16 h ≠ 0#32 := by
      rw [hx]
      intro hz
      exact hne (pattern_inj.mp (hz.trans (show 0#32 = 0#1 ++ 0#8 ++ 0#23 from rfl))).2
    refine ⟨?_,hvalid⟩
    rw [floatFromF16_eq] at h0 ⊢
    split_ifs at h0 ⊢
    · exact absurd rfl h0
    · exact absurd rfl h0
    · rfl

theorem unpackedF2_special (s : BitVec 1) (t : BitVec 10) : unpackedF2 (s ++ 31#5 ++ t) =
    if t = 0#10 then s ++ 255#8 ++ 0#23 else 0xFFC00000#32 := by
  have hsign : (s ++ 31#5 ++ t) &&& 0x8000#16 = s ++ 0#5 ++ 0#10 := pattern_and_first s _ t
  have hexp : (s ++ 31#5 ++ t) &&& 0x7C00#16 = 0#1 ++ 31#5 ++ 0#10 := pattern_and_second s _ t
  have hfrac : (s ++ 31#5 ++ t) &&& 0x03FF#16 = 0#1 ++ 0#5 ++ t := pattern_and_third s _ t
  have hmag : (s ++ 31#5 ++ t) &&& 0x7FFF#16 = 0#1 ++ 31#5 ++ t := pattern_and_rest s _ t
  have hne : (0#1 ++ 31#5 ++ t : BitVec 16) ≠ 0#16 := fun hz =>
    absurd (pattern_inj.mp (hz.trans (show 0#16 = 0#1 ++ 0#5 ++ 0#10 from rfl))).2.1 (by decide)
  have hzero : (0#1 ++ 0#5 ++ t : BitVec 16) = 0#16 ↔ t = 0#10 := by
    rw [show 0#16 = 0#1 ++ 0#5 ++ 0#10 from rfl,pattern_inj]
    simp
  have hinf : ∀ s : BitVec 1,
      ((s ++ 0#5 ++ 0#10).setWidth 32 <<< 16) ||| 0x7F800000#32 = s ++ 255#8 ++ 0#23 := by decide
  unfold unpackedF2
  dsimp only
  rw [hmag,hexp,hsign,hfrac,if_neg hne,if_neg (by decide),
    if_pos (show (0#1 ++ 31#5 ++ 0#10 : BitVec 16) = 0x7C00#16 from rfl),hinf]
  simp only [hzero]

theorem special_of_not_finite {h : BitVec 16} (hf : ¬ Finite 10 h) :
    ∃ (s : BitVec 1) (t : BitVec 10), h = s ++ 31#5 ++ t := by
  obtain ⟨s,g,t,rfl⟩ := @exists_pattern 1 5 10 h
  obtain rfl : g = 31#5 := by
    by_contra hg
    exact hf ((finite16_iff s g t).mpr hg)
  exact ⟨s,t,rfl⟩

theorem unpackF2_eq (h : BitVec 16) :
    unpackF2 h = if Finite 10 h then floatFromF16 h else 0#32 := by
  unfold unpackF2
  by_cases hf : Finite 10 h
  · obtain ⟨heq,hvalid⟩ := unpackedF2_number hf
    rw [if_pos hf,heq,if_pos hvalid]
  · rw [if_neg hf,if_neg]
    obtain ⟨s,t,rfl⟩ := special_of_not_finite hf
    rw [unpackedF2_special]
    split_ifs
    · rw [isValid_pattern]
      decide
    · decide

theorem roundedF16_exact {e f j : Nat} (he : e < 255) (hf : f < 2^23) (hj : j < 31*2^10)
    (hu : units 23 (e*2^23+f) = units 10 j*2^125) : roundedF16 e f = j := by
  have hmono := units_strictMono 10
  have hsmall : units 23 (e*2^23+f) < 65520*2^149 := by
    have hle := hmono.monotone (show j ≤ 31*2^10-1 by omega)
    have htop : units 10 (31*2^10-1) = 65504*2^24 := by decide
    rw [htop] at hle
    calc units 23 (e*2^23+f) = units 10 j*2^125 := hu
      _ ≤ 65504*2^24*2^125 := Nat.mul_le_mul_right _ hle
      _ < 65520*2^149 := by decide
  obtain ⟨h143,-⟩ := (roundedF16_overflow he hf).2 hsmall
  obtain ⟨hlow,hhigh⟩ := roundedF16_rounds h143 hf
  have hpos : 0 < 2^125 := Nat.two_pow_pos 125
  generalize roundedF16 e f = r at hlow hhigh ⊢
  rw [hu,← Nat.mul_assoc] at hhigh
  have hhigh := Nat.lt_of_mul_lt_mul_right hhigh
  rcases Nat.lt_trichotomy j r with hlt | heq | hlt
  · have h1 := hlow (r-1) (by omega)
    rw [hu,← Nat.mul_assoc] at h1
    have h1 := Nat.le_of_mul_le_mul_right h1 hpos
    have h2 := hmono.monotone (show j ≤ r-1 by omega)
    have h3 := hmono (show r-1 < r by omega)
    omega
  · exact heq.symm
  · have h2 := hmono.monotone (show r+1 ≤ j by omega)
    have h3 := hmono (show r < r+1 by omega)
    omega

theorem floatToF16_unpacked {h : BitVec 16} (hf : Finite 10 h) (hs : h ≠ 0x8000#16) :
    floatToF16 (ofBits (floatFromF16 h)) = h := by
  rcases floatFromF16_number hf with rfl | rfl | ⟨s,g,t,e,f,rfl,hg,-,he,hne,hu,hx⟩
  · decide +kernel
  · exact absurd rfl hs
  · have helt := e.isLt
    have hglt := g.isLt
    have htlt := t.isLt
    have he255 : e.toNat ≠ 255 := fun hc => he (BitVec.eq_of_toNat_eq hc)
    have hg31 : g.toNat ≠ 31 := fun hc => hg (BitVec.eq_of_toNat_eq hc)
    rw [hx,floatToF16_number he hne,roundedF16_exact (by omega) f.isLt (by omega) hu]
    apply BitVec.eq_of_toNat_eq
    rw [signed16_toNat s (by omega),pattern_toNat]
    omega

theorem packF2_unpacked {h : BitVec 16} (hf : Finite 10 h) : packF2 (unpackF2 h) = h := by
  rw [unpackF2_eq,if_pos hf]
  by_cases hs : h = 0x8000#16
  · rw [hs]
    decide +kernel
  · rcases floatFromF16_number hf with rfl | rfl | ⟨s,g,t,e,f,-,-,-,he,hne,-,hx⟩
    · decide +kernel
    · exact absurd rfl hs
    · have hpacked := floatToF16_unpacked hf hs
      rw [hx] at hpacked ⊢
      rw [packF2_pattern s f (fun hn => he hn.1) hne,hpacked]

theorem packed_finite_iff {x : BitVec 32} (hn : ¬ IsNaN 23 x) :
    Finite 10 (floatToF16 (ofBits x)) ↔ Finite 23 x ∧ |value 23 127 x| < 65520 := by
  obtain ⟨s,e,f,rfl⟩ := @exists_pattern 1 8 23 x
  have hnum := (isNaN_iff s e f).not.mp hn
  have helt := e.isLt
  by_cases he : e = 255#8
  · subst he
    obtain rfl : f = 0#23 := by
      by_contra hf
      exact hnum ⟨rfl,hf⟩
    refine iff_of_false ?_ fun h => absurd ((finite_pattern s _ _).mp h.1) (by decide)
    rw [← packF2_pattern s 0#23 hnum (by decide)]
    revert s
    decide
  · have he255 : e.toNat ≠ 255 := fun hc => he (BitVec.eq_of_toNat_eq hc)
    have habs : |value 23 127 (s ++ e ++ f)| = units 23 (e.toNat*2^23+f.toNat)/2^149 := by
      rw [abs_value,pattern_magnitude]
    have hlt : |value 23 127 (s ++ e ++ f)| < 65520 ↔
        units 23 (e.toNat*2^23+f.toNat) < 65520*2^149 := by
      rw [habs,div_lt_iff₀ (by positivity)]
      norm_cast
    rw [and_iff_right ((finite_pattern s e f).mpr (by omega)),hlt,BinaryFloat.Finite,
      show 16-1 = 15 from rfl,(packed_value s f he).1]
    obtain ⟨hge,hle⟩ := roundedF16_overflow (show e.toNat < 255 by omega) f.isLt
    constructor
    · intro h
      by_contra hno
      rw [hge (Nat.le_of_not_lt hno)] at h
      exact absurd h (by decide)
    · intro h
      have hr := (hle h).2
      omega

/-- The codecs of the backport are those of the telemetry, but for the zero with a sign and for what
is no number; and what comes out of them is the same, but that the backport makes zeros of the
numbers from 65520 on. -/
theorem codecs_agree (x : BitVec 32) (h : BitVec 16) :
    packF2 x = (if IsNaN 23 x then 0xFE00#16 else if x = 0x80000000#32 then 0x8000#16
      else floatToF16 (ofBits x)) ∧
    unpackF2 h = (if Finite 10 h then floatFromF16 h else 0#32) ∧
    unpackF2 (packF2 x) =
      if Finite 23 x ∧ |value 23 127 x| < 65520 then
        if x = 0x80000000#32 then x else floatFromF16 (floatToF16 (ofBits x))
      else 0#32 := by
  refine ⟨packF2_eq x,unpackF2_eq h,?_⟩
  rw [packF2_eq]
  by_cases hn : IsNaN 23 x
  · rw [if_pos hn,if_neg]
    · decide +kernel
    · rintro ⟨hf,-⟩
      unfold BinaryFloat.IsNaN at hn
      unfold BinaryFloat.Finite at hf
      omega
  rw [if_neg hn]
  by_cases hz : x = 0x80000000#32
  · rw [if_pos hz,if_pos hz,hz,if_pos]
    · decide +kernel
    · refine ⟨by decide,?_⟩
      rw [abs_value,show (0x80000000#32).toNat%2^(32-1) = 0 from rfl,
        units_of_lt (Nat.two_pow_pos 23),Nat.cast_zero,zero_div]
      norm_num
  · rw [if_neg hz,if_neg hz,unpackF2_eq]
    simp only [packed_finite_iff hn]

inductive Codec where
  | backport | telemetry
  deriving DecidableEq, Repr

def Codec.relay (h : BitVec 16) : Codec → BitVec 16
  | .backport => packF2 (unpackF2 h)
  | .telemetry => floatToF16 (ofBits (floatFromF16 h))

def Codec.Keeps (h : BitVec 16) : Codec → Prop
  | .backport => Finite 10 h
  | .telemetry => ¬ IsNaN 10 h ∧ h ≠ 0x8000#16

instance (h : BitVec 16) (c : Codec) : Decidable (c.Keeps h) :=
  match c with
  | .backport => inferInstanceAs (Decidable (Finite 10 h))
  | .telemetry => inferInstanceAs (Decidable (_ ∧ _))

theorem floatFromF16_nan {s : BitVec 1} {t : BitVec 10} (ht : t ≠ 0#10) :
    floatFromF16 (s ++ 31#5 ++ t) = 0#32 := by
  have hne : (s ++ 31#5 ++ t : BitVec 16) ≠ 0#16 := fun hz =>
    absurd (pattern_inj.mp (hz.trans (show 0#16 = 0#1 ++ 0#5 ++ 0#10 from rfl))).2.1 (by decide)
  rw [floatFromF16_eq,if_neg hne,unpackedF2_special,if_neg ht,if_pos]
  rw [show 0xFFC00000#32 = 1#1 ++ 255#8 ++ 0x400000#23 from rfl]
  exact isNaN_ofBits.mpr ⟨rfl,by decide⟩

theorem finite_not_nan {h : BitVec 16} (hf : Finite 10 h) : ¬ IsNaN 10 h := by
  unfold BinaryFloat.IsNaN
  unfold BinaryFloat.Finite at hf
  omega

theorem Codec.relay_kept {h : BitVec 16} {c : Codec} (hk : c.Keeps h) : c.relay h = h := by
  cases c with
  | backport => exact packF2_unpacked hk
  | telemetry =>
    obtain ⟨hn,hs⟩ := hk
    by_cases hf : Finite 10 h
    · exact floatToF16_unpacked hf hs
    · obtain ⟨s,t,rfl⟩ := special_of_not_finite hf
      obtain rfl : t = 0#10 := by
        by_contra ht
        exact hn ((isNaN_pattern s _ t).mpr ⟨rfl,fun hz => ht (BitVec.eq_of_toNat_eq hz)⟩)
      have hinf : ∀ s : BitVec 1, floatToF16 (ofBits (floatFromF16 (s ++ 31#5 ++ 0#10))) =
          s ++ 31#5 ++ 0#10 := by decide +kernel
      exact hinf s

theorem Codec.relay_dropped {h : BitVec 16} {c : Codec} (hk : ¬ c.Keeps h) : c.relay h = 0#16 := by
  cases c with
  | backport =>
    have hu := unpackF2_eq h
    rw [if_neg (show ¬ Finite 10 h from hk)] at hu
    change packF2 (unpackF2 h) = 0#16
    rw [hu]
    rfl
  | telemetry =>
    by_cases hs : h = 0x8000#16
    · rw [hs]
      decide +kernel
    · have hn : IsNaN 10 h := by
        by_contra hn
        exact hk ⟨hn,hs⟩
      obtain ⟨s,t,rfl⟩ := special_of_not_finite fun hf => finite_not_nan hf hn
      have ht : t ≠ 0#10 := fun hz => ((isNaN_pattern s _ t).mp hn).2 (by rw [hz]; rfl)
      change floatToF16 (ofBits (floatFromF16 (s ++ 31#5 ++ t))) = 0#16
      rw [floatFromF16_nan ht]
      decide +kernel

/-- However often and in whatever order a number is sent on, it is left as it was or is zero. -/
theorem Codec.relayed (h : BitVec 16) (l : List Codec) :
    l.foldl (fun h c => Codec.relay h c) h = if ∀ c ∈ l, Codec.Keeps h c then h else 0#16 := by
  have hkeep : ∀ (h : BitVec 16) (l : List Codec), (∀ c ∈ l, Codec.Keeps h c) →
      l.foldl (fun h c => Codec.relay h c) h = h := by
    intro h l hl
    induction l with
    | nil => rfl
    | cons c l ih =>
      obtain ⟨hc,hl⟩ := List.forall_mem_cons.mp hl
      rw [List.foldl_cons,Codec.relay_kept hc]
      exact ih hl
  have hzero : ∀ c, Codec.Keeps 0#16 c := by
    rintro (_ | _) <;> decide
  split_ifs with hl
  · exact hkeep h l hl
  · induction l with
    | nil => exact absurd (by simp) hl
    | cons c l ih =>
      rw [List.foldl_cons]
      by_cases hc : Codec.Keeps h c
      · rw [Codec.relay_kept hc]
        exact ih fun hall => hl (List.forall_mem_cons.mpr ⟨hc,hall⟩)
      · rw [Codec.relay_dropped hc]
        exact hkeep _ l fun c _ => hzero c

end ApxBus.Backport
