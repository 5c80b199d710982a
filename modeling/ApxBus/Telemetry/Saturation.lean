import ApxBus.BinaryFloat
import ApxBus.Telemetry.ValueUnpack
import Mathlib.Data.Rat.Floor
set_option autoImplicit false

/-! The integer formats: what comes of an unsigned number that is packed and unpacked. -/

namespace ApxBus.Telemetry
open Mandala Real32

variable {casts : Casts} {raw : BitVec 32} {type : TypeId} {fmt : Fmt}

def number (raw : BitVec 32) : TypeId → ℚ
  | .byte => ((raw.setWidth 8).toNat : ℚ)
  | .word => ((raw.setWidth 16).toNat : ℚ)
  | .dword => (raw.toNat : ℚ)
  | .real => BinaryFloat.value 23 127 raw

/-- A format with an integer on the wire, from `lo` to `hi`, and its unit. -/
structure IntegerFmt where
  scale : Nat
  lo : Int
  hi : Int

def integerFmt : Fmt → Option IntegerFmt
  | .u8 => some ⟨1,0,255⟩
  | .u16 => some ⟨1,0,65535⟩
  | .u32 => some ⟨1,0,4294967295⟩
  | .s8 => some ⟨1,-128,127⟩
  | .s8_10 => some ⟨10,-128,127⟩
  | .u8_10 => some ⟨10,0,255⟩
  | .u16_10 => some ⟨10,0,65535⟩
  | _ => none

def quotient (casts : Casts) (raw : BitVec 32) (type : TypeId) : Fmt → Int
  | .u32 => (rawUInt32 casts raw type).toNat
  | .s8_10 | .u8_10 => ((rawInt32 casts raw type).sdiv 10#32).toInt
  | .u16_10 => (rawUInt32 casts raw type/10#32).toInt
  | _ => (rawInt32 casts raw type).toInt

theorem limit_bounds {v lo hi : Int} (h : lo ≤ hi) : lo ≤ limit v lo hi ∧ limit v lo hi ≤ hi := by
  unfold limit
  split_ifs <;> omega

theorem limit_eq {v lo hi : Int} (h : lo ≤ hi) : limit v lo hi = min (max v lo) hi := by
  unfold limit
  split_ifs <;> omega

theorem toNat_ofInt_limit (n : Nat) (v : Int) {hi : Int} (h : hi < 2^n) (h0 : 0 ≤ hi) :
    ((BitVec.ofInt n (limit v 0 hi)).toNat : Int) = limit v 0 hi := by
  obtain ⟨h1,h2⟩ := @limit_bounds v 0 hi h0
  rw [BitVec.toNat_ofInt,Int.toNat_of_nonneg (Int.emod_nonneg _ (by positivity))]
  exact Int.emod_eq_of_lt h1 (by push_cast; omega)

theorem castInt8_toInt (v : BitVec 32) : (castInt8 v).toInt = limit v.toInt (-128) 127 := by
  obtain ⟨h1,h2⟩ := @limit_bounds v.toInt (-128) 127 (by decide)
  exact BitVec.toInt_ofInt_eq_self (by decide) (by omega) (by omega)

theorem value_ofInt : ∀ b : BitVec 8,
    BinaryFloat.value 23 127 (bits (ofInt b.toInt)) = b.toInt ∧
    BinaryFloat.value 23 127 (bits (ofInt b.toInt*ofNat 10)) = 10*b.toInt := by
  decide +kernel

def Returns (casts : Casts) (raw : BitVec 32) (type : TypeId) (fmt : Fmt) (q : ℚ) : Prop :=
  ∀ (old : BitVec 32) (type' : TypeId), let packed := packValue casts raw type fmt.code
    ∃ value t, unpackValue packed old type' fmt.code packed.length =
      some (packed.length,value,t) ∧ number value t = q

theorem Returns.unique {q q' : ℚ} (h : Returns casts raw type fmt q)
    (h' : Returns casts raw type fmt q') : q = q' := by
  obtain ⟨value,t,hu,hq⟩ := h 0#32 .byte
  obtain ⟨value',t',hu',hq'⟩ := h' 0#32 .byte
  have hsame := Option.some.inj (hu.symm.trans hu')
  rw [Prod.mk.injEq,Prod.mk.injEq] at hsame
  rw [← hq,← hq',hsame.2.1,hsame.2.2]

theorem unpackValue_packValue {u : Unpacking} (hu : Unpacking.ofFmt fmt = some u)
    (old : BitVec 32) (type' : TypeId) :
    let packed := packValue casts raw type fmt.code
    unpackValue packed old type' fmt.code packed.length =
      some (packed.length,u.value packed old,u.type) := by
  have hcode : (Fmt.ofCode fmt.code).bind Unpacking.ofFmt = some u := by
    rw [Fmt.ofCode_code]
    exact hu
  have hlen : (packValue casts raw type fmt.code).length = u.size := by
    rw [packValue_length,Unpacking.ofFmt_size hcode]
  dsimp only
  unfold unpackValue
  rw [hcode,hlen]
  dsimp only
  rw [if_neg (Nat.lt_irrefl _),if_neg (Nat.lt_irrefl _),← hlen,List.take_length]

theorem number_byte (old : BitVec 32) (b : Byte) :
    number (old.extractLsb' 8 24 ++ b) .byte = b.toNat := by
  have h : (old.extractLsb' 8 24 ++ b).setWidth 8 = b := BitVec.setWidth_append_eq_right
  unfold number
  rw [h]

theorem number_word (old : BitVec 32) (v : BitVec 16) :
    number (old.extractLsb' 16 16 ++ v) .word = v.toNat := by
  have h : (old.extractLsb' 16 16 ++ v).setWidth 16 = v := BitVec.setWidth_append_eq_right
  unfold number
  rw [h]

theorem number_ten {n : Nat} (hn : n ≤ 16) (v : BitVec n) :
    number (v.setWidth 32*10#32) .dword = 10*v.toNat := by
  have hv := v.isLt
  have hp : 2^n ≤ 2^16 := Nat.pow_le_pow_right (by decide) hn
  have h : (v.setWidth 32*10#32).toNat = 10*v.toNat := by
    rw [BitVec.toNat_mul,BitVec.toNat_setWidth_of_le (by omega)]
    change v.toNat*10%2^32 = _
    omega
  unfold number
  rw [h]
  push_cast
  rfl

theorem limit_unit {v lo hi : Int} {x : Nat} (h : (x : Int) = limit v lo hi) :
    (x : ℚ) = (1 : Nat)*limit v lo hi := by
  rw [← h,Nat.cast_one,one_mul]
  rfl

theorem limit_ten {v lo hi : Int} {x : Nat} (h : (x : Int) = limit v lo hi) :
    10*(x : ℚ) = (10 : Nat)*limit v lo hi := by
  rw [← h]
  rfl

theorem raw32_bytes32 (t : TypeId) (v old : BitVec 32) :
    (Unpacking.raw32 t).value (bytes32 v) old = v := le32_bytes v

theorem w0_bytes16 (v : BitVec 16) : Unpacking.w0 (bytes16 v) = v := le16_bytes v

/-- What comes back is the limited quotient in the unit of the format. -/
theorem returns_integer {f : IntegerFmt} (hf : integerFmt fmt = some f) :
    Returns casts raw type fmt (f.scale*limit (quotient casts raw type fmt) f.lo f.hi) := by
  have h8 : (255 : Int) < 2^8 := by decide
  have h16 : (65535 : Int) < 2^16 := by decide
  intro old type'
  dsimp only
  cases fmt with
  | u8 =>
    cases hf
    refine ⟨_,_,unpackValue_packValue rfl old type',?_⟩
    refine (number_byte old _).trans (limit_unit ?_)
    exact toNat_ofInt_limit 8 (rawInt32 casts raw type).toInt h8 (by decide)
  | u16 =>
    cases hf
    refine ⟨_,_,unpackValue_packValue rfl old type',?_⟩
    refine (number_word old _).trans (limit_unit ?_)
    rw [show packValue casts raw type Fmt.u16.code =
      bytes16 (castUInt16 (rawInt32 casts raw type)) from rfl,w0_bytes16]
    exact toNat_ofInt_limit 16 (rawInt32 casts raw type).toInt h16 (by decide)
  | u32 =>
    cases hf
    refine ⟨_,_,unpackValue_packValue rfl old type',limit_unit ?_⟩
    have hlt := (rawUInt32 casts raw type).isLt
    rw [show packValue casts raw type Fmt.u32.code = bytes32 (rawUInt32 casts raw type) from rfl,
      raw32_bytes32,quotient,limit_eq (by decide)]
    dsimp only
    omega
  | s8 =>
    cases hf
    refine ⟨_,_,unpackValue_packValue rfl old type',?_⟩
    refine (value_ofInt (castInt8 (rawInt32 casts raw type))).1.trans ?_
    rw [castInt8_toInt,Nat.cast_one,one_mul]
    rfl
  | s8_10 =>
    cases hf
    refine ⟨_,_,unpackValue_packValue rfl old type',?_⟩
    refine (value_ofInt (castInt8 ((rawInt32 casts raw type).sdiv 10#32))).2.trans ?_
    rw [castInt8_toInt]
    rfl
  | u8_10 =>
    cases hf
    refine ⟨_,_,unpackValue_packValue rfl old type',?_⟩
    refine (number_ten (by decide) (castUInt8 _)).trans (limit_ten ?_)
    exact toNat_ofInt_limit 8 ((rawInt32 casts raw type).sdiv 10#32).toInt h8 (by decide)
  | u16_10 =>
    cases hf
    refine ⟨_,_,unpackValue_packValue rfl old type',?_⟩
    refine (number_ten (by decide) (Unpacking.w0 _)).trans (limit_ten ?_)
    rw [show packValue casts raw type Fmt.u16_10.code =
      bytes16 (castUInt16 (rawUInt32 casts raw type/10#32)) from rfl,w0_bytes16]
    exact toNat_ofInt_limit 16 (rawUInt32 casts raw type/10#32).toInt h16 (by decide)
  | _ => cases hf

theorem raw_unsigned (ht : type ≠ .real) : ∃ n : Nat, number raw type = n ∧
    (rawUInt32 casts raw type).toNat = n ∧ rawInt32 casts raw type = rawUInt32 casts raw type ∧
    (type ≠ .dword → n < 2^31) ∧ (type = .dword → n = raw.toNat) := by
  cases type with
  | byte =>
    have hlt := (raw.setWidth 8).isLt
    exact ⟨_,rfl,BitVec.toNat_setWidth_of_le (by decide),rfl,fun _ => by omega,fun h => by cases h⟩
  | word =>
    have hlt := (raw.setWidth 16).isLt
    exact ⟨_,rfl,BitVec.toNat_setWidth_of_le (by decide),rfl,fun _ => by omega,fun h => by cases h⟩
  | dword => exact ⟨_,rfl,rfl,rfl,fun h => absurd rfl h,fun _ => rfl⟩
  | real => exact absurd rfl ht

def Fits (raw : BitVec 32) (type : TypeId) (fmt : Fmt) : Prop :=
  (type = .dword → raw.toNat < 2^31) ∨ fmt = .u32 ∨ fmt = .u16_10

/-- The quotient is the one of the unsigned number, or has wrapped to a number that is not
positive. -/
theorem quotient_spec {f : IntegerFmt} (hf : integerFmt fmt = some f) (ht : type ≠ .real) :
    ∃ n : Nat, number raw type = n ∧ f.lo ≤ 0 ∧ 0 < f.hi ∧
      (Fits raw type fmt → quotient casts raw type fmt = n/f.scale) ∧
      (¬ Fits raw type fmt → quotient casts raw type fmt ≤ 0 ∧ f.hi < n/f.scale) := by
  obtain ⟨n,hn,hu,hi,hsmall,hd⟩ := @raw_unsigned casts raw type ht
  have hlt := (rawUInt32 casts raw type).isLt
  have hint := BitVec.toInt_eq_toNat_cond (rawUInt32 casts raw type)
  have hdiv : ((rawUInt32 casts raw type).sdiv 10#32).toInt =
      (rawUInt32 casts raw type).toInt.tdiv 10 :=
    BitVec.toInt_sdiv_of_ne_or_ne _ _ (Or.inr (by decide))
  rw [Int.tdiv_eq_ediv,show Int.sign 10 = 1 from rfl] at hdiv
  have hudiv : (rawUInt32 casts raw type/10#32).toInt = n/10 := by
    have hq : (rawUInt32 casts raw type/10#32).toNat = n/10 := by
      rw [BitVec.toNat_udiv,hu]
      rfl
    rw [BitVec.toInt_eq_toNat_of_lt (by omega),hq]
    rfl
  rw [hu] at hint hlt
  refine ⟨n,hn,?_⟩
  have hfits : Fits raw type fmt → n < 2^31 ∨ fmt = .u32 ∨ fmt = .u16_10 := by
    intro h
    refine h.imp_left fun h => ?_
    by_cases h' : type = .dword
    · exact hd h' ▸ h h'
    · exact hsmall h'
  have hwrap : ¬ Fits raw type fmt → 2^31 ≤ n ∧ fmt ≠ .u32 ∧ fmt ≠ .u16_10 := by
    intro h
    unfold Fits at h
    push Not at h
    obtain ⟨⟨hty,hge⟩,h⟩ := h
    exact ⟨hd hty ▸ hge,h⟩
  unfold quotient
  rw [hi]
  cases fmt with
  | u8 | u16 | s8 =>
    cases hf
    refine ⟨by decide,by decide,fun h => ?_,fun h => ?_⟩
    · have hsmall := hfits h
      simp only [reduceCtorEq,or_false] at hsmall
      dsimp only
      omega
    · have hbig := (hwrap h).1
      dsimp only
      omega
  | u32 =>
    cases hf
    refine ⟨by decide,by decide,fun _ => ?_,fun h => absurd rfl (hwrap h).2.1⟩
    dsimp only
    omega
  | s8_10 | u8_10 =>
    cases hf
    refine ⟨by decide,by decide,fun h => ?_,fun h => ?_⟩
    · have hsmall := hfits h
      simp only [reduceCtorEq,or_false] at hsmall
      dsimp only
      omega
    · have hbig := (hwrap h).1
      dsimp only
      omega
  | u16_10 =>
    cases hf
    exact ⟨by decide,by decide,fun _ => hudiv,fun h => absurd rfl (hwrap h).2.2⟩
  | _ => cases hf

/-- The number that should come back: a multiple of the unit, within the range of the wire. -/
def saturated (f : IntegerFmt) (v : ℚ) : ℚ :=
  f.scale*((min (max ⌊v/f.scale⌋ f.lo) f.hi : Int) : ℚ)

theorem saturated_mono (f : IntegerFmt) {v v' : ℚ} (h : v ≤ v') :
    saturated f v ≤ saturated f v' := by
  have hq : v/f.scale ≤ v'/f.scale := div_le_div_of_nonneg_right h (Nat.cast_nonneg _)
  have hf := min_le_min_right f.hi (max_le_max_right f.lo (Int.floor_le_floor hq))
  exact mul_le_mul_of_nonneg_left (Int.cast_le.mpr hf) (Nat.cast_nonneg _)

theorem integerFmt_scale {f : IntegerFmt} (hf : integerFmt fmt = some f) : 0 < f.scale := by
  cases fmt with
  | u8 | u16 | u32 | s8 | s8_10 | u8_10 | u16_10 =>
    cases hf
    decide
  | _ => cases hf

theorem Fits.mono {raw' : BitVec 32} (h : Fits raw' type fmt)
    (hle : number raw type ≤ number raw' type) : Fits raw type fmt := by
  refine h.imp_left fun h hd => ?_
  have hlt := h hd
  rw [hd] at hle
  have hle' : raw.toNat ≤ raw'.toNat := Nat.cast_le.mp hle
  omega

/-- Unsigned numbers saturate in the integer formats, and in their order, as long as none of them
wraps in a conversion to a signed number. -/
theorem integer_saturates_iff {f : IntegerFmt} (hf : integerFmt fmt = some f)
    (ht : type ≠ .real) : (Returns casts raw type fmt (saturated f (number raw type)) ↔
      Fits raw type fmt) ∧
    ∀ (raw' : BitVec 32) (q q' : ℚ), Fits raw' type fmt → number raw type ≤ number raw' type →
      Returns casts raw type fmt q → Returns casts raw' type fmt q' → q ≤ q' := by
  have hiff : ∀ x : BitVec 32, Returns casts x type fmt (saturated f (number x type)) ↔
      Fits x type fmt := by
    intro x
    have hret := @returns_integer casts x type fmt f hf
    obtain ⟨n,hn,hlo,hhi,hfits,hwrap⟩ := @quotient_spec casts x type fmt f hf ht
    rw [limit_eq (by omega)] at hret
    have hfloor : ⌊(n : ℚ)/f.scale⌋ = n/f.scale := Rat.floor_natCast_div_natCast n f.scale
    unfold saturated
    rw [hn,hfloor]
    constructor
    · intro hsat
      by_contra hno
      obtain ⟨hle,hlt⟩ := hwrap hno
      have heq := hret.unique hsat
      have hs : (f.scale : ℚ) ≠ 0 := Nat.cast_ne_zero.mpr (integerFmt_scale hf).ne'
      have hcast := Int.cast_inj.mp (mul_left_cancel₀ hs heq)
      omega
    · intro h
      rw [← hfits h]
      exact hret
  refine ⟨hiff raw,fun raw' q q' hfit hle hq hq' => ?_⟩
  rw [hq.unique ((hiff raw).mpr (hfit.mono hle)),hq'.unique ((hiff raw').mpr hfit)]
  exact saturated_mono f hle

/-- The least number that is negative when it is signed. -/
theorem dword_wraps : ∃ f, integerFmt .u8 = some f ∧ number 0x80000000#32 .dword = 2147483648 ∧
    saturated f (number 0x80000000#32 .dword) = 255 ∧
    ∀ casts, Returns casts 0x80000000#32 .dword .u8 0 ∧
      ¬ Returns casts 0x80000000#32 .dword .u8 255 := by
  refine ⟨_,rfl,rfl,by decide +kernel,fun casts => ?_⟩
  have h : Returns casts 0x80000000#32 .dword .u8 0 := by
    have hret := @returns_integer casts 0x80000000#32 .dword .u8 _ rfl
    have hz : limit (quotient casts 0x80000000#32 .dword .u8) 0 255 = 0 := rfl
    rw [hz,Int.cast_zero,mul_zero] at hret
    exact hret
  exact ⟨h,fun h255 => absurd (h.unique h255) (by decide)⟩

theorem integer_saturates_word : ∃ f f', integerFmt .u16 = some f ∧ integerFmt .s8_10 = some f' ∧
    saturated f (number 70000#32 .dword) = 65535 ∧ saturated f' (number 1999#32 .word) = 1270 ∧
    ∀ casts, Returns casts 70000#32 .dword .u16 65535 ∧ Returns casts 1999#32 .word .s8_10 1270 ∧
      ∀ q q', Returns casts 1999#32 .dword .u8_10 q → Returns casts 70000#32 .dword .u8_10 q' →
        q ≤ q' := by
  have h1 : saturated ⟨1,0,65535⟩ (number 70000#32 .dword) = 65535 := by decide +kernel
  have h2 : saturated ⟨10,-128,127⟩ (number 1999#32 .word) = 1270 := by decide +kernel
  refine ⟨_,_,rfl,rfl,h1,h2,fun casts => ⟨?_,?_,fun q q' => ?_⟩⟩
  · rw [← h1]
    exact (integer_saturates_iff rfl (by decide)).1.mpr (Or.inl fun _ => by decide)
  · rw [← h2]
    exact (integer_saturates_iff rfl (by decide)).1.mpr (Or.inl fun h => by cases h)
  · exact (@integer_saturates_iff casts _ _ .u8_10 _ rfl (by decide)).2 _ q q'
      (Or.inl fun _ => by decide) (by decide +kernel)

end ApxBus.Telemetry
