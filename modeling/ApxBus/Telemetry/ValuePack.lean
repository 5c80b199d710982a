import ApxBus.Mandala
import ApxBus.Real32
set_option autoImplicit false

/-! Values packed for the stream, `xbus/telemetry/TelemetryValuePack.h`. -/

namespace ApxBus.Telemetry
open Mandala Real32

def limit (v vmin vmax : Int) : Int := if v < vmin then vmin else if v > vmax then vmax else v

/-- `cast_value<int8_t>` of a value converted to `int32_t`, and so on. -/
def castInt8 (v : BitVec 32) : BitVec 8 := BitVec.ofInt 8 (limit v.toInt (-128) 127)

def castUInt8 (v : BitVec 32) : BitVec 8 := BitVec.ofInt 8 (limit v.toInt 0 255)

def castUInt16 (v : BitVec 32) : BitVec 16 := BitVec.ofInt 16 (limit v.toInt 0 65535)

section Raw
variable (casts : Casts) (raw : BitVec 32) (type : TypeId)

/-- `raw_value<float>`. -/
def rawReal : Float32 :=
  let ret := match type with
    | .byte => ofNat (raw.setWidth 8).toNat
    | .word => ofNat (raw.setWidth 16).toNat
    | .dword => ofNat raw.toNat
    | .real => ofBits raw
  if ret.isNaN then ofNat 0 else ret

/-- `raw_value<int32_t>`. -/
def rawInt32 : BitVec 32 :=
  match type with
  | .byte => (raw.setWidth 8).setWidth 32
  | .word => (raw.setWidth 16).setWidth 32
  | .dword => raw
  | .real => toInt32 casts (ofBits raw)

/-- `raw_value<uint32_t>`. -/
def rawUInt32 : BitVec 32 :=
  match type with
  | .byte => (raw.setWidth 8).setWidth 32
  | .word => (raw.setWidth 16).setWidth 32
  | .dword => raw
  | .real => toUInt32 casts (if ofBits raw < ofNat 0 then ofNat 0 else ofBits raw)

end Raw

/-- IEEE 754 single to half precision. -/
def floatToF16 (v : Float32) : BitVec 16 :=
  if v == ofNat 0 then 0#16
  else
    let x := if v.isNaN then 0#32 else bits v
    if x &&& 0x7FFFFFFF#32 = 0#32 then (x >>> 16).setWidth 16
    else
      let xs := x &&& 0x80000000#32
      let xe := x &&& 0x7F800000#32
      let xm := x &&& 0x007FFFFF#32
      let hs := (xs >>> 16).setWidth 16
      if xe = 0#32 then hs
      else if xe = 0x7F800000#32 then
        if xm = 0#32 then hs ||| 0x7C00#16 else 0xFE00#16
      else
        let hes : Int := (xe >>> 23).toNat-127+15
        if hes ≥ 0x1F then hs ||| 0x7C00#16
        else if hes ≤ 0 then
          if 14-hes > 24 then hs
          else
            let xm := xm ||| 0x00800000#32
            let hm : BitVec 16 := (xm >>> (14-hes).toNat).setWidth 16
            let hm := if (xm >>> (13-hes).toNat) &&& 1#32 ≠ 0#32 then hm+1#16 else hm
            hs ||| hm
        else
          let he := BitVec.ofInt 16 hes <<< 10
          let hm := (xm >>> 13).setWidth 16
          if xm &&& 0x00001000#32 ≠ 0#32 then (hs ||| he ||| hm)+1#16 else hs ||| he ||| hm

def pi32 : Float32 := ofBits 0x40490FDB#32
def piHalf32 : Float32 := ofBits 0x3FC90FDB#32

/-- `float_to_angle` up to the last conversion; `max` is that of the integer type. -/
def floatToAngle (max : Nat) (v span : Float32) : Float32 :=
  let dspan := span*ofNat 2
  let a := v-floor (v/dspan+ofBits 0x3F000000#32)*dspan
  a*(ofNat max/span)

/-- `pack_value`: the bytes written to `dest`; none where it returns 0. -/
def packValue (casts : Casts) (raw : BitVec 32) (type : TypeId) (fmt : Byte) : List Byte :=
  match Fmt.ofCode fmt with
  | none | some .none | some .bit => []
  | some .f32 => bytes32 (bits (rawReal raw type))
  | some .u32 | some .a32 => bytes32 (rawUInt32 casts raw type)
  | some .u16 => bytes16 (castUInt16 (rawInt32 casts raw type))
  | some .u4 | some .u8 => [castUInt8 (rawInt32 casts raw type)]
  | some .f16 => bytes16 (floatToF16 (rawReal raw type))
  | some .s8 => [castInt8 (rawInt32 casts raw type)]
  | some .s8_10 => [castInt8 ((rawInt32 casts raw type).sdiv 10#32)]
  | some .s8_01 => [castInt8 (toInt32 casts (rawReal raw type*ofNat 10))]
  | some .s8_001 => [castInt8 (toInt32 casts (rawReal raw type*ofNat 100))]
  | some .u8_10 => [castUInt8 ((rawInt32 casts raw type).sdiv 10#32)]
  | some .u8_01 => [castUInt8 (toInt32 casts (rawReal raw type*ofNat 10))]
  | some .u8_001 => [castUInt8 (toInt32 casts (rawReal raw type*ofNat 100))]
  | some .s16_rad => bytes16 (toInt16 casts (floatToAngle 32767 (rawReal raw type) pi32))
  | some .s16_rad2 => bytes16 (toInt16 casts (floatToAngle 32767 (rawReal raw type) piHalf32))
  | some .s8_rad => [toInt8 casts (floatToAngle 127 (rawReal raw type) pi32)]
  | some .u8_u => [castUInt8 (toInt32 casts (rawReal raw type*ofNat 255))]
  | some .s8_u => [castInt8 (toInt32 casts (rawReal raw type*ofNat 127))]
  | some .u16_10 => bytes16 (castUInt16 (rawUInt32 casts raw type/10#32))

/-- The size on the wire of a value of this format; 0 where nothing is packed. -/
def wireSize (fmt : Byte) : Nat :=
  match Fmt.ofCode fmt with
  | none | some .none | some .bit => 0
  | some .f32 | some .u32 | some .a32 => 4
  | some .u16 | some .f16 | some .s16_rad | some .s16_rad2 | some .u16_10 => 2
  | _ => 1

theorem packValue_length (casts : Casts) (raw : BitVec 32) (type : TypeId) (fmt : Byte) :
    (packValue casts raw type fmt).length = wireSize fmt := by
  unfold packValue wireSize
  cases Fmt.ofCode fmt with
  | none => rfl
  | some f => cases f <;> rfl

theorem wireSize_le (fmt : Byte) : wireSize fmt ≤ 4 := by
  unfold wireSize
  cases Fmt.ofCode fmt with
  | none => simp
  | some f => cases f <;> simp

end ApxBus.Telemetry
