import Mathlib.Data.BitVec
set_option autoImplicit false

/-! Conversions between single-precision numbers and integers, as the language has them. -/

namespace ApxBus.Real32

def ofBits (v : BitVec 32) : Float32 := Float32.ofBits ⟨v⟩

def bits (x : Float32) : BitVec 32 := x.toBits.toBitVec

def ofNat (n : Nat) : Float32 := (UInt32.ofNat n).toFloat32

def ofInt (i : Int) : Float32 := if i < 0 then -ofNat i.natAbs else ofNat i.natAbs

/-- The value without its fraction. Numbers of 2^64 and more become 2^64-1. -/
def trunc (x : Float32) : Int :=
  if x < ofNat 0 then -((-x).toUInt64.toNat : Int) else x.toUInt64.toNat

/-- From 2^23 on every number is an integer. -/
def floor (x : Float32) : Float32 :=
  let a := if x < ofNat 0 then -x else x
  if a < ofNat (2^23) ∧ ¬ x == ofNat 0 then
    let t := ofInt (trunc x)
    if x < t then t-ofNat 1 else t
  else x

/-- What the processor makes of a number outside the range of the integer type, or of no number:
the language leaves it open. -/
structure Casts where
  int32 : BitVec 32 → BitVec 32
  uint32 : BitVec 32 → BitVec 32
  int16 : BitVec 32 → BitVec 16
  int8 : BitVec 32 → BitVec 8

/-- The conversion to the `n`-bit type with values from `lo` to `hi`. -/
def toBitVec {n : Nat} (lo hi : Int) (other : BitVec 32 → BitVec n) (x : Float32) : BitVec n :=
  if ¬ x.isNaN ∧ lo ≤ trunc x ∧ trunc x ≤ hi then BitVec.ofInt n (trunc x) else other (bits x)

def toInt32 (casts : Casts) : Float32 → BitVec 32 := toBitVec (-2^31) (2^31-1) casts.int32

def toUInt32 (casts : Casts) : Float32 → BitVec 32 := toBitVec 0 (2^32-1) casts.uint32

def toInt16 (casts : Casts) : Float32 → BitVec 16 := toBitVec (-2^15) (2^15-1) casts.int16

def toInt8 (casts : Casts) : Float32 → BitVec 8 := toBitVec (-2^7) (2^7-1) casts.int8

end ApxBus.Real32
