import ApxBus.Telemetry.ValuePack
set_option autoImplicit false

/-! Values unpacked from the stream, `xbus/telemetry/TelemetryValueUnpack.h`. -/

namespace ApxBus.Telemetry
open Mandala Real32

/-- The loop that normalizes a half-precision denormal: `hm` shifted until its leading bit is
the hidden one, and the extra exponent `e`. Ten rounds shift any nonzero fraction that far. -/
def normalizeF16 : Nat → BitVec 16 → Nat → BitVec 16 × Nat
  | 0, hm, e => (hm,e)
  | fuel+1, hm, e =>
    let hm := hm <<< 1
    if hm &&& 0x0400#16 = 0#16 then normalizeF16 fuel hm (e+1) else (hm,e)

/-- IEEE 754 half to single precision, as bits; `NaN` becomes zero. -/
def floatFromF16 (v : BitVec 16) : BitVec 32 :=
  if v = 0#16 then 0#32
  else
    let xp :=
      if v &&& 0x7FFF#16 = 0#16 then v.setWidth 32 <<< 16
      else
        let hs := v &&& 0x8000#16
        let he := v &&& 0x7C00#16
        let hm := v &&& 0x03FF#16
        let xs := hs.setWidth 32 <<< 16
        if he = 0#16 then
          let (hm,e) := normalizeF16 10 hm 0
          let xes : Int := (he >>> 10).toNat-15+127-e
          let xm := (hm &&& 0x03FF#16).setWidth 32 <<< 13
          xs ||| (BitVec.ofInt 32 xes <<< 23) ||| xm
        else if he = 0x7C00#16 then
          if hm = 0#16 then xs ||| 0x7F800000#32 else 0xFFC00000#32
        else
          let xes : Int := (he >>> 10).toNat-15+127
          xs ||| (BitVec.ofInt 32 xes <<< 23) ||| (hm.setWidth 32 <<< 13)
    if (ofBits xp).isNaN then 0#32 else xp

/-- `float_from_angle`; `max` is that of the integer type. -/
def floatFromAngle (max : Nat) (v : Int) (span : Float32) : Float32 :=
  ofInt v/(ofNat max/span)

/-- What the unpacking of a format does: the value type it sets, how many bytes it needs, and
what it makes of them and the previous `dest`. -/
structure Unpacking where
  type : TypeId
  size : Nat
  value : List Byte → BitVec 32 → BitVec 32

namespace Unpacking

def b0 (src : List Byte) : Byte := src.getD 0 0#8

def w0 (src : List Byte) : BitVec 16 := le16 (src.getD 0 0#8) (src.getD 1 0#8)

def raw32 (type : TypeId) : Unpacking :=
  ⟨type,4,fun src _ =>
    le32 (src.getD 0 0#8) (src.getD 1 0#8) (src.getD 2 0#8) (src.getD 3 0#8)⟩

/-- Two bytes and one are copied over the lower part of `dest`. -/
def raw16 : Unpacking := ⟨.word,2,fun src dest => dest.extractLsb' 16 16 ++ w0 src⟩

def raw8 : Unpacking := ⟨.byte,1,fun src dest => dest.extractLsb' 8 24 ++ b0 src⟩

def real (size : Nat) (f : List Byte → Float32) : Unpacking :=
  ⟨.real,size,fun src _ => bits (f src)⟩

def signed (scale : Float32) : Unpacking := real 1 fun src => ofInt (b0 src).toInt*scale

def unsigned (scale : Float32) : Unpacking := real 1 fun src => ofNat (b0 src).toNat*scale

def dword (size : Nat) (f : List Byte → BitVec 32) : Unpacking := ⟨.dword,size,fun src _ => f src⟩

def ofFmt : Fmt → Option Unpacking
  | .none | .bit => none
  | .f32 => some (raw32 .real)
  | .u32 | .a32 => some (raw32 .dword)
  | .u16 => some raw16
  | .u4 | .u8 => some raw8
  | .f16 => some ⟨.real,2,fun src _ => floatFromF16 (w0 src)⟩
  | .s8 => some (real 1 fun src => ofInt (b0 src).toInt)
  | .s8_10 => some (signed (ofNat 10))
  | .s8_01 => some (signed (ofNat 1/ofNat 10))
  | .s8_001 => some (signed (ofNat 1/ofNat 100))
  | .u8_10 => some (dword 1 fun src => (b0 src).setWidth 32*10#32)
  | .u8_01 => some (unsigned (ofNat 1/ofNat 10))
  | .u8_001 => some (unsigned (ofNat 1/ofNat 100))
  | .s16_rad => some (real 2 fun src => floatFromAngle 32767 (w0 src).toInt pi32)
  | .s16_rad2 => some (real 2 fun src => floatFromAngle 32767 (w0 src).toInt (pi32/ofNat 2))
  | .s8_rad => some (real 1 fun src => floatFromAngle 127 (b0 src).toInt pi32)
  | .u8_u => some (unsigned (ofNat 1/ofNat 255))
  | .s8_u => some (signed (ofNat 1/ofNat 127))
  | .u16_10 => some (dword 2 fun src => (w0 src).setWidth 32*10#32)

end Unpacking

/-- `unpack_value`: the size it returns, `dest` and `*type`. The bytes at `src` are those up to
the end of the buffer; there is no result when it reads behind them. -/
def unpackValue (src : List Byte) (dest : BitVec 32) (type : TypeId) (fmt : Byte) (size : Nat) :
    Option (Nat × BitVec 32 × TypeId) :=
  match (Fmt.ofCode fmt).bind Unpacking.ofFmt with
  | none => some (0,dest,type)
  | some u =>
    if size < u.size then some (0,dest,u.type)
    else if src.length < u.size then none
    else some (u.size,u.value (src.take u.size) dest,u.type)

theorem Unpacking.ofFmt_size {fmt : Byte} {u : Unpacking}
    (h : (Fmt.ofCode fmt).bind ofFmt = some u) : u.size = wireSize fmt := by
  unfold wireSize
  cases hf : Fmt.ofCode fmt with
  | none => simp [hf] at h
  | some f =>
    rw [hf] at h
    cases f <;> cases h <;> rfl

theorem unpacking_none {fmt : Byte} (h : (Fmt.ofCode fmt).bind Unpacking.ofFmt = none) :
    wireSize fmt = 0 := by
  unfold wireSize
  cases hf : Fmt.ofCode fmt with
  | none => rfl
  | some f =>
    rw [hf] at h
    cases f <;> cases h <;> rfl

theorem unpacking_some {fmt : Byte} (h : wireSize fmt ≠ 0) :
    ∃ u, (Fmt.ofCode fmt).bind Unpacking.ofFmt = some u := by
  cases hu : (Fmt.ofCode fmt).bind Unpacking.ofFmt with
  | none => exact absurd (unpacking_none hu) h
  | some u => exact ⟨u,rfl⟩

theorem unpackValue_front {fmt : Byte} {b : List Byte} (hlen : b.length = wireSize fmt)
    (hne : b ≠ []) (old : BitVec 32) (type : TypeId) :
    ∃ value type', ∀ (r : List Byte) (size : Nat), b.length ≤ size →
      unpackValue (b ++ r) old type fmt size = some (b.length,value,type') := by
  have hw : wireSize fmt ≠ 0 := by
    rw [← hlen]
    exact List.length_eq_zero_iff.not.mpr hne
  obtain ⟨u,hu⟩ := unpacking_some hw
  have hus : u.size = b.length := (Unpacking.ofFmt_size hu).trans hlen.symm
  refine ⟨u.value b old,u.type,fun r size hsize => ?_⟩
  unfold unpackValue
  rw [hu]
  dsimp only
  rw [if_neg (by omega),if_neg (by rw [List.length_append]; omega),hus,List.take_left]

end ApxBus.Telemetry
