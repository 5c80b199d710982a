import ApxBus.Crc32
set_option autoImplicit false

/-! Types and formats of dictionary values, `mandala/MandalaMetaBase.h` and `MandalaPackBase.h`. -/

namespace ApxBus.Mandala

inductive TypeId where
  | byte | word | dword | real
  deriving DecidableEq, Repr

/-- `fmt_e`. -/
inductive Fmt where
  | none | u8 | u16 | u32 | f32 | bit | u4 | a32 | f16
  | s8 | s8_10 | s8_01 | s8_001 | u8_10 | u8_01 | u8_001
  | s16_rad | s16_rad2 | u8_u | s8_u | u16_10 | s8_rad
  deriving DecidableEq, Repr

namespace Fmt

def code : Fmt → Byte
  | none => 0#8
  | u8 => 1#8
  | u16 => 2#8
  | u32 => 3#8
  | f32 => 4#8
  | bit => 5#8
  | u4 => 6#8
  | a32 => 7#8
  | f16 => 8#8
  | s8 => 9#8
  | s8_10 => 10#8
  | s8_01 => 11#8
  | s8_001 => 12#8
  | u8_10 => 13#8
  | u8_01 => 14#8
  | u8_001 => 15#8
  | s16_rad => 16#8
  | s16_rad2 => 17#8
  | u8_u => 18#8
  | s8_u => 19#8
  | u16_10 => 20#8
  | s8_rad => 21#8

def list : List Fmt :=
  [none,u8,u16,u32,f32,bit,u4,a32,f16,s8,s8_10,s8_01,s8_001,u8_10,u8_01,u8_001,s16_rad,s16_rad2,
    u8_u,s8_u,u16_10,s8_rad]

def ofCode (b : Byte) : Option Fmt := list.find? fun f => f.code = b

theorem ofCode_code : ∀ f : Fmt, ofCode f.code = some f := by
  intro f
  cases f <;> rfl

end Fmt

/-- `seq_e`, the two bits of a field's `pid.seq`. -/
def seqAlways : BitVec 2 := 0#2
def seqSkip : BitVec 2 := 1#2
def seqRare : BitVec 2 := 2#2
def seqScheduled : BitVec 2 := 3#2

/-- `ds_aux`: only transmitted when selected in the configuration. -/
def dsAux : BitVec 3 := 0#3

/-- What the generated `mandala::fmt` says about an identifier. -/
structure FmtS where
  ds : BitVec 3
  fmt : BitVec 6
  seq : BitVec 2
  deriving DecidableEq, Repr

end ApxBus.Mandala
