import ApxBus.Stream
import ApxBus.Real32
import ApxBus.Telemetry.ValueUnpack
set_option autoImplicit false

/-!
The variables of the old dictionary and their two packed forms, the `MVAR` lines of
`mandala/backport/MandalaTemplate.h` with `MandalaCore::pack` and `MandalaCore::unpack`.
-/

namespace ApxBus.Backport
open Real32

/-- What a variable holds: one word, or those of a point or a vector. -/
structure Cell where
  x : BitVec 32
  y : BitVec 32
  z : BitVec 32
  deriving DecidableEq, Repr

inductive FloatFmt where
  | s1 | s01 | s001 | s10 | u1 | u01 | u001 | u10 | u100 | f2 | f4
  deriving DecidableEq, Repr

inductive UintFmt where
  | u2 | u4
  deriving DecidableEq, Repr

/-- A line of the table: the type of the variable and how it is packed, with and without the
HD mark of the stream. -/
inductive MVar where
  | float (abytes atbytes : FloatFmt)
  | vect (abytes atbytes : FloatFmt)
  | point (abytes atbytes : FloatFmt)
  | uint (abytes atbytes : UintFmt)
  | byte | flag | enum
  deriving DecidableEq, Repr

def isValid (v : BitVec 32) : Bool := v &&& 0x7F800000#32 ≠ 0x7F800000#32

/-- `pack_float_f2`: IEEE 754 single to half precision. -/
def packF2 (x : BitVec 32) : BitVec 16 :=
  if x &&& 0x7FFFFFFF#32 = 0#32 then (x >>> 16).setWidth 16
  else
    let xs := x &&& 0x80000000#32
    let xe := x &&& 0x7F800000#32
    let xm := x &&& 0x007FFFFF#32
    let hs : BitVec 16 := (xs >>> 16).setWidth 16
    if xe = 0#32 then hs
    else if xe = 0x7F800000#32 then
      if xm = 0#32 then hs ||| 0x7C00#16 else 0xFE00#16
    else
      let hes : Int := (xe >>> 23).toNat-127+15
      if hes ≥ 0x1F then hs ||| 0x7C00#16
      else if hes ≤ 0 then
        if 14-hes > 24 then hs
        else
          let xm := xm ||| 0x00800000#32
          let hm : BitVec 16 := (xm >>> (14-hes).toNat).setWidth 16
          let hm := if (xm >>> (13-hes).toNat) &&& 1#32 ≠ 0#32 then hm+1#16 else hm
          hs ||| hm
      else
        let he := BitVec.ofInt 16 hes <<< 10
        let hm := (xm >>> 13).setWidth 16
        if xm &&& 0x00001000#32 ≠ 0#32 then (hs ||| he ||| hm)+1#16 else hs ||| he ||| hm

/-- The number that `unpack_float_f2` reads. -/
def unpackedF2 (h : BitVec 16) : BitVec 32 :=
  if h &&& 0x7FFF#16 = 0#16 then h.setWidth 32 <<< 16
  else
    let hs := h &&& 0x8000#16
    let he := h &&& 0x7C00#16
    let hm := h &&& 0x03FF#16
    let xs := hs.setWidth 32 <<< 16
    if he = 0#16 then
      let (hm,e) := Telemetry.normalizeF16 10 hm 0
      let xes : Int := (he >>> 10).toNat-15+127-e
      xs ||| (BitVec.ofInt 32 xes <<< 23) ||| ((hm &&& 0x03FF#16).setWidth 32 <<< 13)
    else if he = 0x7C00#16 then
      if hm = 0#16 then xs ||| 0x7F800000#32 else 0xFFC00000#32
    else
      let xes : Int := (he >>> 10).toNat-15+127
      xs ||| (BitVec.ofInt 32 xes <<< 23) ||| (hm.setWidth 32 <<< 13)

/-- `unpack_float_f2`, with zero in place of what is no number. -/
def unpackF2 (h : BitVec 16) : BitVec 32 :=
  if isValid (unpackedF2 h) then unpackedF2 h else 0#32

section Pack
variable (casts : BitVec 32 → Byte)

/-- `pack_float_s` and `pack_float_u`. A number outside of the byte is left to the processor. -/
def packS (v : Float32) : Byte :=
  toBitVec (-128) 127 casts (if v > ofNat 127 then ofNat 127 else if v < ofInt (-128) then
    ofInt (-128) else v)

def packU (v : Float32) : Byte := toBitVec 0 255 casts (if v > ofNat 255 then ofNat 255 else v)

def FloatFmt.size : FloatFmt → Nat
  | .f4 => 4
  | .f2 => 2
  | _ => 1

/-- The bytes packed, and the value as it is left: one that is no number becomes zero when it is
packed in two or four bytes. -/
def FloatFmt.pack (fmt : FloatFmt) (x : BitVec 32) : List Byte × BitVec 32 :=
  let v := (ofBits x).toFloat
  match fmt with
  | .s1 => ([packS casts (ofBits x)],x)
  | .s01 => ([packS casts (v*10).toFloat32],x)
  | .s001 => ([packS casts (v*100).toFloat32],x)
  | .s10 => ([packS casts (v/10).toFloat32],x)
  | .u1 => ([packU casts (ofBits x)],x)
  | .u01 => ([packU casts (v*10).toFloat32],x)
  | .u001 => ([packU casts (v*100).toFloat32],x)
  | .u10 => ([packU casts (v/10).toFloat32],x)
  | .u100 => ([packU casts (v/100).toFloat32],x)
  | .f2 => (bytes16 (packF2 x),if isValid x then x else 0#32)
  | .f4 => (bytes32 x,if isValid x then x else 0#32)

def FloatFmt.unpack (fmt : FloatFmt) (buf : List Byte) : BitVec 32 :=
  let b := buf.getD 0 0#8
  match fmt with
  | .s1 => bits (ofInt b.toInt)
  | .s01 => bits ((ofInt b.toInt).toFloat/10).toFloat32
  | .s001 => bits ((ofInt b.toInt).toFloat/100).toFloat32
  | .s10 => bits (ofInt (b.toInt*10))
  | .u1 => bits (Real32.ofNat b.toNat)
  | .u01 => bits ((Real32.ofNat b.toNat).toFloat/10).toFloat32
  | .u001 => bits ((Real32.ofNat b.toNat).toFloat/100).toFloat32
  | .u10 => bits (Real32.ofNat (b.toNat*10))
  | .u100 => bits (Real32.ofNat (b.toNat*100))
  | .f2 => unpackF2 (le16 b (buf.getD 1 0#8))
  | .f4 =>
    let f := le32 b (buf.getD 1 0#8) (buf.getD 2 0#8) (buf.getD 3 0#8)
    if isValid f then f else 0#32

def UintFmt.size : UintFmt → Nat
  | .u2 => 2
  | .u4 => 4

def UintFmt.pack (fmt : UintFmt) (v : BitVec 32) : List Byte :=
  match fmt with
  | .u2 => bytes16 ((if v > 0x0000FFFF#32 then 0x0000FFFF#32 else v).setWidth 16)
  | .u4 => bytes32 v

def UintFmt.unpack (fmt : UintFmt) (buf : List Byte) : BitVec 32 :=
  match fmt with
  | .u2 => (le16 (buf.getD 0 0#8) (buf.getD 1 0#8)).setWidth 32
  | .u4 => le32 (buf.getD 0 0#8) (buf.getD 1 0#8) (buf.getD 2 0#8) (buf.getD 3 0#8)

def pick {α : Type} (hd : Bool) (abytes atbytes : α) : α := if hd then abytes else atbytes

namespace MVar

/-- What `pack` or `pack_ext` returns. -/
def size (hd : Bool) : MVar → Nat
  | .float a t => (pick hd a t).size
  | .vect a t => 3*(pick hd a t).size
  | .point a t => 2*(pick hd a t).size
  | .uint a t => (pick hd a t).size
  | .byte | .flag | .enum => 1

/-- `pack` or `pack_ext`: the bytes, and the variable as it is left. -/
def pack (hd : Bool) (v : Cell) : MVar → List Byte × Cell
  | .float a t =>
    let (b,x) := (pick hd a t).pack casts v.x
    (b,{v with x := x})
  | .vect a t =>
    let (b,x) := (pick hd a t).pack casts v.x
    let (c,y) := (pick hd a t).pack casts v.y
    let (d,z) := (pick hd a t).pack casts v.z
    (b ++ c ++ d,⟨x,y,z⟩)
  | .point a t =>
    let (b,x) := (pick hd a t).pack casts v.x
    let (c,y) := (pick hd a t).pack casts v.y
    (b ++ c,{v with x := x, y := y})
  | .uint a t => ((pick hd a t).pack v.x,v)
  | .byte | .flag | .enum => ([v.x.setWidth 8],v)

/-- `unpack` or `unpack_ext`. -/
def unpack (hd : Bool) (buf : List Byte) : MVar → Cell
  | .float a t => ⟨(pick hd a t).unpack buf,0#32,0#32⟩
  | .vect a t =>
    let fmt := pick hd a t
    ⟨fmt.unpack buf,fmt.unpack (buf.drop fmt.size),fmt.unpack (buf.drop (2*fmt.size))⟩
  | .point a t =>
    let fmt := pick hd a t
    ⟨fmt.unpack buf,fmt.unpack (buf.drop fmt.size),0#32⟩
  | .uint a t => ⟨(pick hd a t).unpack buf,0#32,0#32⟩
  | .byte | .flag | .enum => ⟨(buf.getD 0 0#8).setWidth 32,0#32,0#32⟩

theorem pack_length (hd : Bool) (v : Cell) (m : MVar) :
    (m.pack casts hd v).1.length = m.size hd := by
  have hf : ∀ (fmt : FloatFmt) x, (fmt.pack casts x).1.length = fmt.size := by
    intro fmt x
    cases fmt <;> rfl
  cases m with
  | float a t => exact hf _ _
  | vect a t =>
    simp only [pack,size,List.length_append,hf]
    omega
  | point a t =>
    simp only [pack,size,List.length_append,hf]
    omega
  | uint a t =>
    simp only [pack,size]
    cases pick hd a t <;> rfl
  | byte => rfl
  | flag => rfl
  | enum => rfl

theorem size_pos (hd : Bool) (m : MVar) : 0 < m.size hd := by
  have hf : ∀ fmt : FloatFmt, 0 < fmt.size := by
    intro fmt
    cases fmt <;> decide
  cases m with
  | float a t => exact hf _
  | vect a t => exact Nat.mul_pos (by decide) (hf _)
  | point a t => exact Nat.mul_pos (by decide) (hf _)
  | uint a t =>
    simp only [size]
    cases pick hd a t <;> decide
  | byte => exact Nat.one_pos
  | flag => exact Nat.one_pos
  | enum => exact Nat.one_pos

end MVar

end Pack

/-- The variables from `idxPAD` up to `idx_local`: those of the stream. -/
def streamVars : List MVar := [
  .vect .f2 .f2, .vect .f2 .s1, .vect .f2 .s10, .vect .f2 .s001,
  .float .f4 .f4, .float .f2 .f2, .float .f2 .f2, .float .f2 .f2,
  .uint .u2 .u2, .float .f2 .f2, .float .f2 .s01, .float .f2 .s01, .float .f2 .f2,
  .float .f2 .f2, .float .f2 .f2,
  .float .f2 .s001, .float .f2 .s001, .float .f2 .u001, .float .f2 .s001, .float .f2 .s001,
  .float .f2 .s001, .float .f2 .u001, .float .u001 .u001, .float .f2 .u001, .float .f2 .u001,
  .float .f2 .u001, .float .f2 .s001, .float .f2 .s001, .flag, .float .f2 .u001,
  .float .f2 .u001,
  .vect .f2 .f2, .point .f2 .f2, .float .f2 .f2, .uint .u2 .u2, .float .f2 .f2, .float .f2 .f2,
  .float .f2 .s01, .float .f2 .s1,
  .vect .f4 .f4, .vect .f2 .f2, .uint .u4 .u4,
  .float .f4 .f2, .float .f4 .f2, .float .u001 .u001,
  .float .f2 .f2, .float .f2 .f2, .float .f2 .f2, .float .f2 .f2, .float .u001 .u001,
  .float .u01 .u01, .float .u01 .u01, .float .u1 .u1,
  .float .s1 .s1, .float .s1 .s1, .float .s1 .s1, .float .u1 .u1, .float .u10 .u10,
  .float .u1 .u1, .float .u01 .u01,
  .flag, .point .u001 .u001, .float .f2 .f2, .float .f2 .f2, .point .f2 .f2, .vect .f4 .f4,
  .vect .f2 .f2, .float .f2 .f2,
  .float .f2 .f2, .vect .f2 .f2, .vect .f2 .f2,
  .byte, .enum, .flag, .flag, .flag,
  .flag, .flag, .flag,
  .byte, .byte, .byte, .byte, .enum, .float .f2 .f2, .float .f2 .f2, .float .f2 .f2, .byte,
  .uint .u4 .u4, .enum,
  .float .f2 .u01, .float .f2 .f2, .float .f2 .u001, .float .s1 .s1, .byte, .byte, .byte, .enum,
  .vect .f4 .f4, .float .f4 .f4, .byte, .float .f2 .u001,
  .vect .f4 .f2, .point .f4 .f2, .flag,
  .flag, .float .f4 .f2, .float .f4 .f2, .float .f4 .f2, .float .f4 .f2, .float .f4 .f2,
  .float .f4 .f2,
  .vect .f2 .f2, .float .f2 .f2, .float .f2 .f2, .vect .f2 .f2, .float .f2 .f2, .float .f2 .f2,
  .float .f2 .f2, .float .f2 .f2, .float .f2 .f2]

/-- From `idx_local` on. -/
def localVars : List MVar := [
  .byte,
  .point .f4 .f4, .point .f4 .f4, .float .f4 .f4, .float .f4 .f4, .float .f4 .f4, .point .f4 .f4,
  .point .f4 .f4, .float .f4 .f4, .float .f4 .f4, .float .f4 .f4, .float .f4 .f4,
  .uint .u2 .u2, .uint .u4 .u4,
  .float .f4 .f4, .float .f4 .f4, .float .f4 .f4, .float .f4 .f4,
  .byte, .float .s001 .s001, .float .s001 .s001, .float .u001 .u001, .float .s001 .s001,
  .byte, .enum, .vect .f4 .f4, .float .u001 .u001, .float .u001 .u001, .vect .f4 .f4, .flag,
  .byte, .vect .f4 .f4, .vect .f4 .f4, .enum, .flag, .uint .u2 .u2, .uint .u4 .u4,
  .point .f4 .f4, .vect .f4 .f4, .enum, .point .f4 .f4,
  .point .f4 .f4, .point .f4 .f4, .point .f4 .f4, .enum,
  .float .u001 .u001, .float .u01 .u01, .float .s1 .s1, .float .f4 .f4, .float .f4 .f4,
  .float .f4 .f4, .float .f4 .f4, .float .f4 .f4, .float .f4 .f4, .float .f4 .f4, .float .f4 .f4,
  .float .f4 .f4, .float .f4 .f4, .float .f4 .f4, .float .f4 .f4, .float .f4 .f4, .float .f4 .f4,
  .float .f4 .f4, .float .f4 .f4, .float .f4 .f4, .float .f4 .f4, .float .f4 .f4, .float .f4 .f4,
  .float .f4 .f4, .float .f4 .f4, .float .f4 .f4, .float .f4 .f4, .float .f4 .f4, .float .f4 .f4,
  .float .f4 .f4, .float .f4 .f4, .float .f4 .f4, .float .f4 .f4, .float .f4 .f4, .float .f4 .f4]

/-- `MandalaTemplate.h`, from `idxPAD` on. -/
def vars : List MVar := streamVars ++ localVars

end ApxBus.Backport
