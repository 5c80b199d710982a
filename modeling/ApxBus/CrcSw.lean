import ApxBus.Crc32
import ApxBus.ShiftRegister
set_option autoImplicit false

/-! The checksums of `crc/sw/crc_sw.c`, each over the bytes of a buffer: the shift registers
behind them, and the changes of one byte that they tell apart. -/

namespace ApxBus.CrcSw
open Function

set_option maxRecDepth 2000 in
def crc16Table : Vector (BitVec 16) 256 :=
  #v[0x0000,0xC0C1,0xC181,0x0140,0xC301,0x03C0,0x0280,0xC241,0xC601,0x06C0,0x0780,0xC741,0x0500,
    0xC5C1,0xC481,0x0440,0xCC01,0x0CC0,0x0D80,0xCD41,0x0F00,0xCFC1,0xCE81,0x0E40,0x0A00,0xCAC1,
    0xCB81,0x0B40,0xC901,0x09C0,0x0880,0xC841,0xD801,0x18C0,0x1980,0xD941,0x1B00,0xDBC1,0xDA81,
    0x1A40,0x1E00,0xDEC1,0xDF81,0x1F40,0xDD01,0x1DC0,0x1C80,0xDC41,0x1400,0xD4C1,0xD581,0x1540,
    0xD701,0x17C0,0x1680,0xD641,0xD201,0x12C0,0x1380,0xD341,0x1100,0xD1C1,0xD081,0x1040,0xF001,
    0x30C0,0x3180,0xF141,0x3300,0xF3C1,0xF281,0x3240,0x3600,0xF6C1,0xF781,0x3740,0xF501,0x35C0,
    0x3480,0xF441,0x3C00,0xFCC1,0xFD81,0x3D40,0xFF01,0x3FC0,0x3E80,0xFE41,0xFA01,0x3AC0,0x3B80,
    0xFB41,0x3900,0xF9C1,0xF881,0x3840,0x2800,0xE8C1,0xE981,0x2940,0xEB01,0x2BC0,0x2A80,0xEA41,
    0xEE01,0x2EC0,0x2F80,0xEF41,0x2D00,0xEDC1,0xEC81,0x2C40,0xE401,0x24C0,0x2580,0xE541,0x2700,
    0xE7C1,0xE681,0x2640,0x2200,0xE2C1,0xE381,0x2340,0xE101,0x21C0,0x2080,0xE041,0xA001,0x60C0,
    0x6180,0xA141,0x6300,0xA3C1,0xA281,0x6240,0x6600,0xA6C1,0xA781,0x6740,0xA501,0x65C0,0x6480,
    0xA441,0x6C00,0xACC1,0xAD81,0x6D40,0xAF01,0x6FC0,0x6E80,0xAE41,0xAA01,0x6AC0,0x6B80,0xAB41,
    0x6900,0xA9C1,0xA881,0x6840,0x7800,0xB8C1,0xB981,0x7940,0xBB01,0x7BC0,0x7A80,0xBA41,0xBE01,
    0x7EC0,0x7F80,0xBF41,0x7D00,0xBDC1,0xBC81,0x7C40,0xB401,0x74C0,0x7580,0xB541,0x7700,0xB7C1,
    0xB681,0x7640,0x7200,0xB2C1,0xB381,0x7340,0xB101,0x71C0,0x7080,0xB041,0x5000,0x90C1,0x9181,
    0x5140,0x9301,0x53C0,0x5280,0x9241,0x9601,0x56C0,0x5780,0x9741,0x5500,0x95C1,0x9481,0x5440,
    0x9C01,0x5CC0,0x5D80,0x9D41,0x5F00,0x9FC1,0x9E81,0x5E40,0x5A00,0x9AC1,0x9B81,0x5B40,0x9901,
    0x59C0,0x5880,0x9841,0x8801,0x48C0,0x4980,0x8941,0x4B00,0x8BC1,0x8A81,0x4A40,0x4E00,0x8EC1,
    0x8F81,0x4F40,0x8D01,0x4DC0,0x4C80,0x8C41,0x4400,0x84C1,0x8581,0x4540,0x8701,0x47C0,0x4680,
    0x8641,0x8201,0x42C0,0x4380,0x8341,0x4100,0x81C1,0x8081,0x4040]

def crc16IbmByte (crc : BitVec 16) (b : Byte) : BitVec 16 :=
  (crc >>> 8) ^^^ crc16Table.get ((crc ^^^ b.setWidth 16).setWidth 8).toFin

def crc16Ibm (buf : List Byte) (crc : BitVec 16) : BitVec 16 := buf.foldl crc16IbmByte crc

def crc8_8CBit (crc : Byte) : Byte :=
  if crc &&& 1#8 ≠ 0#8 then (crc >>> 1) ^^^ 0x8C#8 else crc >>> 1

def crc8_8C (buf : List Byte) (crc : Byte) : Byte :=
  buf.foldl (fun crc b => crc8_8CBit^[8] (crc ^^^ b)) crc

/-- One round of the inner loop of `CRC_8`, on `crc` and `v`. -/
def crc8Bit (poly : Byte) : Byte × Byte → Byte × Byte
  | (crc,v) => (if (crc ^^^ v) &&& 1#8 ≠ 0#8 then (crc >>> 1) ^^^ poly else crc >>> 1,v >>> 1)

def crc8 (poly : Byte) (buf : List Byte) (crc : Byte) : Byte :=
  buf.foldl (fun crc v => ((crc8Bit poly)^[8] (crc,v)).1) crc

def crc16CcittByte (crc : BitVec 16) (b : Byte) : BitVec 16 :=
  let crc := (crc >>> 8) ||| (crc <<< 8)
  let crc := crc ^^^ b.setWidth 16
  let crc := crc ^^^ ((crc &&& 0xFF#16) >>> 4)
  let crc := crc ^^^ ((crc <<< 8) <<< 4)
  crc ^^^ (((crc &&& 0xFF#16) <<< 4) <<< 1)

def crc16Ccitt (buf : List Byte) (crc : BitVec 16) : BitVec 16 := buf.foldl crc16CcittByte crc

/-- The line that `CRC_16` has eight times. -/
def crc16Bit (poly crc : BitVec 16) : BitVec 16 :=
  if crc &&& 0x8000#16 ≠ 0#16 then (crc <<< 1) ^^^ poly else crc <<< 1

def crc16Byte (poly crc : BitVec 16) (b : Byte) : BitVec 16 :=
  (crc16Bit poly)^[8] (crc ^^^ (b.setWidth 16 <<< 8))

def crc16 (poly : BitVec 16) (buf : List Byte) (crc : BitVec 16) : BitVec 16 :=
  buf.foldl (crc16Byte poly) crc

def crc16CcittQtByte (crc : BitVec 16) (b : Byte) : BitVec 16 :=
  let data := b ^^^ crc.setWidth 8
  let data := data ^^^ (data <<< 4)
  ((data.setWidth 16 <<< 8) ||| (crc &&& 0xFF00#16)) ^^^ (data >>> 4).setWidth 16 ^^^
    (data.setWidth 16 <<< 3)

def crc16CcittQt (buf : List Byte) (crc : BitVec 16) : BitVec 16 := buf.foldl crc16CcittQtByte crc

/-- One round of the inner loop of `CRC_32`. -/
def crc32Bit (poly i : BitVec 32) : BitVec 32 :=
  if i &&& 1#32 ≠ 0#32 then (i >>> 1) ^^^ poly else i >>> 1

def crc32Byte (poly crc : BitVec 32) (b : Byte) : BitVec 32 :=
  (crc >>> 8) ^^^ (crc32Bit poly)^[8] (b.setWidth 32 ^^^ (crc &&& 0x000000FF#32))

def crc32 (buf : List Byte) (crc poly : BitVec 32) : BitVec 32 := buf.foldl (crc32Byte poly) crc

def crc32Nodes (buf : List Byte) (crc : BitVec 32) : BitVec 32 := crc32 buf crc 0xEDB88320#32

inductive Routine where
  | crc8_8C | crc16Ibm | crc16Ccitt | crc16CcittQt | crc32Nodes
  deriving DecidableEq, Repr

def Routine.width : Routine → Nat
  | .crc8_8C => 8
  | .crc16Ibm | .crc16Ccitt | .crc16CcittQt => 16
  | .crc32Nodes => 32

def Routine.run : (r : Routine) → List Byte → BitVec r.width → BitVec r.width
  | .crc8_8C => CrcSw.crc8_8C
  | .crc16Ibm => CrcSw.crc16Ibm
  | .crc16Ccitt => CrcSw.crc16Ccitt
  | .crc16CcittQt => CrcSw.crc16CcittQt
  | .crc32Nodes => CrcSw.crc32Nodes

theorem and_one_ne_zero {w : Nat} (hw : 0 < w) (x : BitVec w) :
    x &&& 1#w ≠ 0#w ↔ x.getLsbD 0 = true := by
  rw [← BitVec.twoPow_zero]
  exact and_twoPow_ne_zero hw x

theorem setWidth_byte_injective {w : Nat} (hw : 8 ≤ w) :
    Injective fun b : Byte => b.setWidth w := by
  intro b c h
  have hb := congrArg (BitVec.setWidth 8) h
  simpa [BitVec.setWidth_setWidth_of_le _ hw] using hb

theorem xor_step_ne {w : Nat} {place : Byte → BitVec w} (hplace : Injective place)
    {S : BitVec w → BitVec w} (hS : Injective S) {b c : Byte} (h : b ≠ c) (crc : BitVec w)
    (p s : List Byte) :
    (p ++ b :: s).foldl (fun crc b => S (crc ^^^ place b)) crc ≠
      (p ++ c :: s).foldl (fun crc b => S (crc ^^^ place b)) crc := by
  refine foldl_ne (fun b x y hxy => ?_) (fun x b c hbc => ?_) h crc p s
  · exact (BitVec.xor_left_inj _).mp (hS hxy)
  · exact hplace ((BitVec.xor_right_inj x).mp (hS hbc))

theorem crc8_8CBit_eq : crc8_8CBit = rightShift 0x8C#8 := by
  funext crc
  simp only [crc8_8CBit,rightShift,and_one_ne_zero (show 0 < 8 by decide)]

theorem crc8_8C_ne {b c : Byte} (h : b ≠ c) (crc : Byte) (p s : List Byte) :
    crc8_8C (p ++ b :: s) crc ≠ crc8_8C (p ++ c :: s) crc := by
  have hs : Injective crc8_8CBit^[8] := by
    rw [crc8_8CBit_eq]
    exact (rightShift_injective (by decide)).iterate 8
  exact xor_step_ne injective_id hs h crc p s

theorem crc16Table_toList : crc16Table.toList =
    (List.range 256).map fun i => (rightShift 0xA001#16)^[8] (BitVec.ofNat 16 i) := by
  decide +kernel

theorem toList_getElem?_get {α : Type} {n : Nat} (v : Vector α n) (i : Fin n) :
    v.toList[i.val]? = some (v.get i) := by
  rw [Vector.getElem?_toList,Vector.getElem?_eq_getElem i.isLt]
  rfl

theorem crc16Table_eq (i : Byte) :
    crc16Table.get i.toFin = (rightShift 0xA001#16)^[8] (i.setWidth 16) := by
  have hget := toList_getElem?_get crc16Table i.toFin
  rw [crc16Table_toList,List.getElem?_map,List.getElem?_range i.toFin.isLt] at hget
  rw [← BitVec.ofNat_toNat]
  exact (Option.some.inj hget).symm

theorem byte_shift {w : Nat} (b : Byte) : (b.setWidth w) >>> 8 = 0#w := by
  apply BitVec.eq_of_getLsbD_eq
  intro i _
  rw [BitVec.getLsbD_ushiftRight,BitVec.getLsbD_setWidth,BitVec.getLsbD_of_ge b _ (by omega)]
  simp

theorem crc16IbmByte_eq :
    crc16IbmByte = fun crc b => (rightShift 0xA001#16)^[8] (crc ^^^ b.setWidth 16) := by
  funext crc b
  have hlin := (rightShift_linear 0xA001#16).iterate 8
  have hstep : ∀ x : BitVec 16,
      (x >>> 8) ^^^ (rightShift 0xA001#16)^[8] ((x.setWidth 8).setWidth 16) =
        (rightShift 0xA001#16)^[8] x := by
    refine XorLinear.ext ?_ hlin (by decide)
    exact (XorLinear.ushiftRight 8).xor (hlin.comp (XorLinear.setWidth.comp XorLinear.setWidth))
  rw [← hstep (crc ^^^ b.setWidth 16),BitVec.ushiftRight_xor_distrib,byte_shift,BitVec.xor_zero,
    crc16IbmByte,crc16Table_eq]

theorem crc16Ibm_ne {b c : Byte} (h : b ≠ c) (crc : BitVec 16) (p s : List Byte) :
    crc16Ibm (p ++ b :: s) crc ≠ crc16Ibm (p ++ c :: s) crc := by
  have hs : Injective (rightShift 0xA001#16)^[8] := (rightShift_injective (by decide)).iterate 8
  rw [crc16Ibm,crc16Ibm,crc16IbmByte_eq]
  exact xor_step_ne (setWidth_byte_injective (by decide)) hs h crc p s

theorem crc8_eq (poly : Byte) (buf : List Byte) (crc : Byte) :
    crc8 poly buf crc = buf.foldl (fun crc b => (rightShift poly)^[8] (crc ^^^ b)) crc := by
  have hbit : crc8Bit poly = feedRight poly := by
    funext s
    simp only [crc8Bit,feedRight,and_one_ne_zero (show 0 < 8 by decide)]
  simp only [crc8,hbit,feedRight_iterate_width]

theorem crc16Bit_eq (poly : BitVec 16) : crc16Bit poly = leftShift poly := by
  funext crc
  have htop : crc &&& 0x8000#16 ≠ 0#16 ↔ crc.msb = true := by
    rw [BitVec.msb_eq_getLsbD_last]
    exact and_twoPow_ne_zero (show 15 < 16 by decide) crc
  simp only [crc16Bit,leftShift,htop]

def swapBytes (x : BitVec 16) : BitVec 16 := (x >>> 8) ||| (x <<< 8)

/-- What `CRC_16_CCITT` does to its register once the byte is in. -/
def ccittMix (crc : BitVec 16) : BitVec 16 :=
  let crc := crc ^^^ ((crc &&& 0xFF#16) >>> 4)
  let crc := crc ^^^ ((crc <<< 8) <<< 4)
  crc ^^^ (((crc &&& 0xFF#16) <<< 4) <<< 1)

theorem swapBytes_linear : XorLinear swapBytes := by
  intro x y
  apply BitVec.eq_of_getLsbD_eq
  intro i hi
  simp only [swapBytes,BitVec.getLsbD_or,BitVec.getLsbD_xor,BitVec.getLsbD_ushiftRight,
    BitVec.getLsbD_shiftLeft]
  by_cases h8 : i < 8
  · simp [h8]
  · simp [h8,hi,BitVec.getLsbD_of_ge x (8+i) (by omega),BitVec.getLsbD_of_ge y (8+i) (by omega)]

theorem swapBytes_shift : ∀ b : Byte,
    swapBytes (b.setWidth 16 <<< 8) = b.setWidth 16 := by decide

theorem ccittMix_linear : XorLinear ccittMix := by
  have hlow := XorLinear.id.xor ((XorLinear.ushiftRight 4).comp (XorLinear.and 0xFF#16))
  have hhigh := (XorLinear.id (w := 16)).xor ((XorLinear.shiftLeft 4).comp (XorLinear.shiftLeft 8))
  have hmid := XorLinear.id.xor ((XorLinear.shiftLeft 1).comp
    ((XorLinear.shiftLeft 4).comp (XorLinear.and 0xFF#16)))
  exact hmid.comp (hhigh.comp hlow)

theorem ccittMix_swapBytes (x : BitVec 16) :
    ccittMix (swapBytes x) = (leftShift 0x1021#16)^[8] x := by
  refine XorLinear.ext (ccittMix_linear.comp swapBytes_linear) ?_ (by decide) x
  exact (leftShift_linear 0x1021#16).iterate 8

theorem crc16CcittByte_eq : crc16CcittByte = crc16Byte 0x1021#16 := by
  funext crc b
  rw [crc16Byte,crc16Bit_eq,← ccittMix_swapBytes,swapBytes_linear,swapBytes_shift]
  rfl

/-- The routines made for one polynomial are the generic ones at it. -/
theorem shortcuts_eq :
    (∀ (buf : List Byte) (crc : BitVec 16), crc16Ccitt buf crc = crc16 0x1021#16 buf crc) ∧
    ∀ (buf : List Byte) (crc : Byte), crc8_8C buf crc = crc8 0x8C#8 buf crc := by
  refine ⟨fun buf crc => ?_,fun buf crc => ?_⟩
  · rw [crc16Ccitt,crc16,crc16CcittByte_eq]
  · rw [crc8_eq,crc8_8C,crc8_8CBit_eq]

theorem crc16Ccitt_ne {b c : Byte} (h : b ≠ c) (crc : BitVec 16) (p s : List Byte) :
    crc16Ccitt (p ++ b :: s) crc ≠ crc16Ccitt (p ++ c :: s) crc := by
  have hs : Injective (crc16Bit 0x1021#16)^[8] := by
    rw [crc16Bit_eq]
    exact (leftShift_injective (by decide)).iterate 8
  have hplace : Injective fun b : Byte => (b.setWidth 16 <<< 8 : BitVec 16) := by
    intro b c hbc
    have hswap := congrArg swapBytes hbc
    simp only [swapBytes_shift] at hswap
    exact setWidth_byte_injective (by decide) hswap
  rw [crc16Ccitt,crc16Ccitt,crc16CcittByte_eq]
  exact xor_step_ne hplace hs h crc p s

theorem crc32Bit_eq (poly : BitVec 32) : crc32Bit poly = rightShift poly := by
  funext i
  simp only [crc32Bit,rightShift,and_one_ne_zero (show 0 < 32 by decide)]

theorem crc32Byte_eq : crc32Byte 0xEDB88320#32 =
    fun crc b => (rightShift 0xEDB88320#32)^[8] (crc ^^^ b.setWidth 32) := by
  funext crc b
  have hlin := (rightShift_linear 0xEDB88320#32).iterate 8
  have hstep : ∀ x : BitVec 32,
      (x >>> 8) ^^^ (rightShift 0xEDB88320#32)^[8] (x &&& 0xFF#32) =
        (rightShift 0xEDB88320#32)^[8] x := by
    refine XorLinear.ext ?_ hlin (by decide)
    exact (XorLinear.ushiftRight 8).xor (hlin.comp (XorLinear.and _))
  have hb : b.setWidth 32 &&& 0xFF#32 = b.setWidth 32 := by
    revert b
    decide
  have hand := XorLinear.and 0xFF#32 crc (b.setWidth 32)
  simp only [hb] at hand
  rw [← hstep (crc ^^^ b.setWidth 32),BitVec.ushiftRight_xor_distrib,byte_shift,BitVec.xor_zero,
    hand,crc32Byte,crc32Bit_eq,BitVec.xor_comm (b.setWidth 32)]

theorem crc32Nodes_ne {b c : Byte} (h : b ≠ c) (crc : BitVec 32) (p s : List Byte) :
    crc32Nodes (p ++ b :: s) crc ≠ crc32Nodes (p ++ c :: s) crc := by
  have hs : Injective (rightShift 0xEDB88320#32)^[8] :=
    (rightShift_injective (by decide)).iterate 8
  rw [crc32Nodes,crc32Nodes,crc32,crc32,crc32Byte_eq]
  exact xor_step_ne (setWidth_byte_injective (by decide)) hs h crc p s

/-- The variable `data` of `CRC_16_CCITT_QT` after its two assignments. -/
def qtData (crc : BitVec 16) (b : Byte) : Byte :=
  let data := b ^^^ crc.setWidth 8
  data ^^^ (data <<< 4)

/-- The lower half of the register after `data`. -/
def qtLower (data : Byte) : Byte := (data >>> 4) ^^^ (data <<< 3)

def upper (crc : BitVec 16) : Byte := crc.extractLsb' 8 8

/-- Two registers in which the byte `b` leaves the same. The lower halves agree afterwards when
the two values of `data` are equal or differ in the bits 0 and 7; the or with the upper half of
the register then has to hide that the registers differed. -/
def Merges (x y : BitVec 16) (b : Byte) : Prop :=
  qtData x b = qtData y b ∧ qtData x b ||| upper x = qtData y b ||| upper y ∨
    qtData x b ^^^ qtData y b = 0x81#8 ∧
      (qtData x b ||| upper x) ^^^ (qtData y b ||| upper y) = 0x04#8

theorem crc16CcittQtByte_eq (crc : BitVec 16) (b : Byte) : crc16CcittQtByte crc b =
    ((qtData crc b ||| upper crc) ^^^ (qtData crc b >>> 5)) ++ qtLower (qtData crc b) := by
  change ((qtData crc b).setWidth 16 <<< 8 ||| (crc &&& 0xFF00#16)) ^^^
    (qtData crc b >>> 4).setWidth 16 ^^^ ((qtData crc b).setWidth 16 <<< 3) = _
  generalize qtData crc b = d
  apply BitVec.eq_of_getLsbD_eq
  intro i hi
  have hmask : (0xFF00#16).getLsbD i = decide (8 ≤ i) := by
    revert i
    decide
  simp only [BitVec.getLsbD_xor,BitVec.getLsbD_or,BitVec.getLsbD_and,BitVec.getLsbD_shiftLeft,
    BitVec.getLsbD_setWidth,BitVec.getLsbD_ushiftRight,BitVec.getLsbD_append,hmask,upper,
    BitVec.getLsbD_extractLsb',qtLower]
  by_cases h8 : i < 8
  · simp [h8,hi,show ¬ 8 ≤ i by omega,show i-3 < 16 by omega]
  · simp [h8,hi,show 8 ≤ i by omega,show i-8 < 8 by omega,show i-8 < 16 by omega,
      show i-3 < 16 by omega,show 8+(i-8) = i by omega,show ¬ i < 3 by omega,
      show 5+(i-8) = i-3 by omega,BitVec.getLsbD_of_ge d (4+i) (by omega)]

theorem append_eq_iff {h g l m : Byte} : h ++ l = g ++ m ↔ h = g ∧ l = m := by
  constructor
  · intro he
    have hb := congrArg bytes16 he
    change bytes16 (le16 l h) = bytes16 (le16 m g) at hb
    simpa [bytes16_le16,and_comm] using hb
  · rintro ⟨rfl,rfl⟩
    rfl

theorem qtLower_linear : XorLinear qtLower := (XorLinear.ushiftRight 4).xor (XorLinear.shiftLeft 3)

theorem qtLower_eq_zero_iff : ∀ z : Byte, qtLower z = 0#8 ↔ z = 0#8 ∨ z = 0x81#8 := by decide

theorem qtLower_eq_iff (d e : Byte) : qtLower d = qtLower e ↔ d = e ∨ d ^^^ e = 0x81#8 := by
  rw [← BitVec.xor_eq_zero_iff,← qtLower_linear,qtLower_eq_zero_iff,BitVec.xor_eq_zero_iff]

theorem halves_eq_iff (d e h g : Byte) :
    ((d ||| h) ^^^ (d >>> 5)) ++ qtLower d = ((e ||| g) ^^^ (e >>> 5)) ++ qtLower e ↔
    d = e ∧ d ||| h = e ||| g ∨ d ^^^ e = 0x81#8 ∧ (d ||| h) ^^^ (e ||| g) = 0x04#8 := by
  rw [append_eq_iff,qtLower_eq_iff,xor_eq_xor_iff,and_or_left,← BitVec.ushiftRight_xor_distrib]
  refine or_congr ?_ ?_
  · rw [and_comm]
    refine and_congr_right fun hde => ?_
    rw [hde,BitVec.xor_self,BitVec.zero_ushiftRight,BitVec.xor_eq_zero_iff]
  · rw [and_comm]
    refine and_congr_right fun hde => ?_
    rw [hde]
    rfl

theorem crc16CcittQtByte_eq_iff (x y : BitVec 16) (b : Byte) :
    crc16CcittQtByte x b = crc16CcittQtByte y b ↔ Merges x y b := by
  rw [crc16CcittQtByte_eq,crc16CcittQtByte_eq]
  exact halves_eq_iff _ _ _ _

theorem qtData_injective (crc : BitVec 16) : Injective (qtData crc) := by
  have hmix : Injective fun z : Byte => z ^^^ (z <<< 4) :=
    (XorLinear.shiftLeft 4).injective_xor 2 (by decide)
  intro b c h
  exact (BitVec.xor_left_inj (crc.setWidth 8)).mp (hmix h)

theorem upper_ne {x y : BitVec 16} {b c : Byte} (hd : qtData x b ^^^ qtData y c = 0x81#8)
    (hu : (qtData x b ||| upper x) ^^^ (qtData y c ||| upper y) = 0x04#8) :
    (upper x).getLsbD 2 ≠ (upper y).getLsbD 2 := by
  have h2 := congrArg (·.getLsbD 2) hu
  have hd2 := congrArg (·.getLsbD 2) hd
  simp only [BitVec.getLsbD_xor,BitVec.getLsbD_or] at h2 hd2
  generalize (qtData x b).getLsbD 2 = i at h2 hd2
  generalize (qtData y c).getLsbD 2 = j at h2 hd2
  generalize (upper x).getLsbD 2 = k at h2
  generalize (upper y).getLsbD 2 = l at h2
  revert i j k l
  decide

theorem crc16CcittQtByte_injective (crc : BitVec 16) : Injective (crc16CcittQtByte crc) := by
  intro b c h
  rw [crc16CcittQtByte_eq,crc16CcittQtByte_eq,halves_eq_iff] at h
  obtain ⟨hd,-⟩ | ⟨hd,hu⟩ := h
  · exact qtData_injective crc hd
  · exact absurd rfl (upper_ne hd hu)

theorem crc16CcittQt_append (p s : List Byte) (b : Byte) (crc : BitVec 16) :
    crc16CcittQt (p ++ b :: s) crc = crc16CcittQt s (crc16CcittQtByte (crc16CcittQt p crc) b) :=
  List.foldl_append

theorem crc16CcittQtByte_lower (crc : BitVec 16) (b : Byte) :
    (crc16CcittQtByte crc b).setWidth 8 = qtLower (qtData crc b) := by
  rw [crc16CcittQtByte_eq,BitVec.setWidth_append]
  simp

def qtSpread (d : Byte) : Byte := qtLower (d ^^^ (d <<< 4))

theorem lower_spread (x y : BitVec 16) (b c : Byte) :
    (crc16CcittQtByte x b).setWidth 8 ^^^ (crc16CcittQtByte y c).setWidth 8 =
      qtSpread ((b ^^^ x.setWidth 8) ^^^ (c ^^^ y.setWidth 8)) := by
  have hmix := XorLinear.id.xor (XorLinear.shiftLeft 4) (b ^^^ x.setWidth 8) (c ^^^ y.setWidth 8)
  rw [crc16CcittQtByte_lower,crc16CcittQtByte_lower,← qtLower_linear,qtSpread]
  exact congrArg qtLower hmix.symm

theorem lower_run (x y : BitVec 16) (s : List Byte) :
    (crc16CcittQt s x).setWidth 8 ^^^ (crc16CcittQt s y).setWidth 8 =
      qtSpread^[s.length] (x.setWidth 8 ^^^ y.setWidth 8) := by
  induction s generalizing x y with
  | nil => rfl
  | cons b s ih =>
    have hstep := lower_spread x y b b
    rw [show ∀ u v : Byte, (b ^^^ u) ^^^ (b ^^^ v) = u ^^^ v ^^^ (b ^^^ b) by intros; ac_rfl,
      BitVec.xor_self,BitVec.xor_zero] at hstep
    rw [List.length_cons,iterate_succ_apply,← hstep]
    exact ih (crc16CcittQtByte x b) (crc16CcittQtByte y b)

theorem lower_result (crc : BitVec 16) (p s : List Byte) (b c : Byte) :
    (crc16CcittQt (p ++ b :: s) crc).setWidth 8 ^^^ (crc16CcittQt (p ++ c :: s) crc).setWidth 8 =
      qtSpread^[s.length+1] (b ^^^ c) := by
  rw [crc16CcittQt_append,crc16CcittQt_append,lower_run,lower_spread,iterate_succ_apply]
  congr 2
  generalize (crc16CcittQt p crc).setWidth 8 = u
  rw [show (b ^^^ u) ^^^ (c ^^^ u) = b ^^^ c ^^^ u ^^^ u by ac_rfl,xor_xor_cancel]

/-- The differences of a byte that `CRC_16_CCITT_QT` can lose, and the number of bytes behind the
changed one from which on it can. -/
def losses : List (Byte × Nat) :=
  [(0x91#8,1),(0xA3#8,1),(0x32#8,2),(0x46#8,2),(0x74#8,2),(0xD7#8,2),(0xE5#8,2),(0x0D#8,3),
    (0x3F#8,3),(0x4B#8,3),(0x79#8,3),(0x9C#8,3),(0xAE#8,3),(0xDA#8,3),(0xE8#8,3)]

def Hidden (d : Byte) (n : Nat) : Prop := ∃ w ∈ losses, w.1 = d ∧ w.2 ≤ n

instance (d : Byte) (n : Nat) : Decidable (Hidden d n) :=
  decidable_of_iff (losses.any fun w => w.1 = d ∧ w.2 ≤ n) (by simp [Hidden])

theorem spread_four : ∀ d : Byte, qtSpread^[4] d ≠ 0#8 → qtSpread^[4] (qtSpread d) ≠ 0#8 := by
  decide +kernel

theorem spread_kept {d : Byte} (h : qtSpread^[4] d ≠ 0#8) (k : Nat) :
    qtSpread^[k+4] d ≠ 0#8 := by
  induction k generalizing d with
  | zero => rwa [Nat.zero_add]
  | succ k ih =>
    rw [show k+1+4 = k+4+1 by omega,iterate_succ_apply]
    exact ih (spread_four d h)

theorem spread_ne {d : Byte} {n : Nat} (h0 : d ≠ 0#8) (h : ¬ Hidden d n) :
    qtSpread^[n+1] d ≠ 0#8 ∨ d = 0x91#8 ∧ n = 0 ∨ d = 0x32#8 ∧ n = 1 := by
  have hfew : ∀ d : Byte, d ≠ 0#8 → ∀ n < 4, ¬ Hidden d n →
      qtSpread^[n+1] d ≠ 0#8 ∨ d = 0x91#8 ∧ n = 0 ∨ d = 0x32#8 ∧ n = 1 := by decide +kernel
  by_cases hn : n < 4
  · exact hfew d h0 n hn h
  · obtain ⟨k,rfl⟩ : ∃ k, n = k+3 := ⟨n-3,by omega⟩
    have h3 : ¬ Hidden d 3 := fun ⟨w,hw,he,hle⟩ => h ⟨w,hw,he,by omega⟩
    rcases hfew d h0 3 (by decide) h3 with h4 | ⟨-,h4⟩ | ⟨-,h4⟩
    · exact Or.inl (spread_kept h4 k)
    · cases h4
    · cases h4

theorem crc16CcittQt_next (x : BitVec 16) (b t : Byte) :
    crc16CcittQtByte (crc16CcittQtByte x b) t ≠
      crc16CcittQtByte (crc16CcittQtByte x (b ^^^ 0x32#8)) t := by
  have hdata : qtData x (b ^^^ 0x32#8) = qtData x b ^^^ 0x12#8 := by
    have hmix := XorLinear.id.xor (XorLinear.shiftLeft 4) (b ^^^ x.setWidth 8) 0x32#8
    have hin : b ^^^ 0x32#8 ^^^ x.setWidth 8 = b ^^^ x.setWidth 8 ^^^ 0x32#8 := by ac_rfl
    exact (congrArg (fun z : Byte => z ^^^ (z <<< 4)) hin).trans hmix
  have hupper : ∀ b, (upper (crc16CcittQtByte x b)).getLsbD 2 =
      (((qtData x b).getLsbD 2 || (upper x).getLsbD 2) ^^ (qtData x b).getLsbD 7) := by
    intro b
    rw [crc16CcittQtByte_eq,upper,BitVec.getLsbD_extractLsb',BitVec.getLsbD_append]
    simp
  have hspread := lower_spread (crc16CcittQtByte x b) (crc16CcittQtByte x (b ^^^ 0x32#8)) t t
  rw [Ne,crc16CcittQtByte_eq_iff]
  rintro (⟨hd,-⟩ | ⟨hd,hu⟩)
  · have hlow := lower_spread x x b (b ^^^ 0x32#8)
    have hz : (crc16CcittQtByte x b).setWidth 8 =
        (crc16CcittQtByte x (b ^^^ 0x32#8)).setWidth 8 := by
      have hmix : Injective fun z : Byte => z ^^^ (z <<< 4) :=
        (XorLinear.shiftLeft 4).injective_xor 2 (by decide)
      exact (BitVec.xor_right_inj t).mp (hmix hd)
    rw [hz,BitVec.xor_self,show (b ^^^ x.setWidth 8) ^^^ (b ^^^ 0x32#8 ^^^ x.setWidth 8) =
      0x32#8 ^^^ (b ^^^ b) ^^^ (x.setWidth 8 ^^^ x.setWidth 8) by ac_rfl,BitVec.xor_self,
      BitVec.xor_self] at hlow
    exact absurd hlow (by decide)
  · refine upper_ne hd hu ?_
    rw [hupper,hupper,hdata]
    simp

theorem crc16CcittQt_ne {b c : Byte} (hbc : b ≠ c) (crc : BitVec 16) (p s : List Byte)
    (h : ¬ Hidden (b ^^^ c) s.length) :
    crc16CcittQt (p ++ b :: s) crc ≠ crc16CcittQt (p ++ c :: s) crc := by
  have h0 : b ^^^ c ≠ 0#8 := fun h0 => hbc (BitVec.xor_eq_zero_iff.mp h0)
  intro heq
  rcases spread_ne h0 h with hne | ⟨-,hn⟩ | ⟨hd,hn⟩
  · rw [← lower_result crc p s b c,heq,BitVec.xor_self] at hne
    exact hne rfl
  · rw [List.length_eq_zero_iff.mp hn,crc16CcittQt_append,crc16CcittQt_append] at heq
    exact hbc (crc16CcittQtByte_injective _ heq)
  · obtain ⟨t,rfl⟩ := List.length_eq_one_iff.mp hn
    have hc : c = b ^^^ 0x32#8 := by
      rw [← hd,← BitVec.xor_assoc,BitVec.xor_self,BitVec.zero_xor]
    rw [crc16CcittQt_append,crc16CcittQt_append,hc] at heq
    exact crc16CcittQt_next _ b t heq

theorem crc16CcittQtByte_xor (crc : BitVec 16) (b c : Byte) :
    crc16CcittQtByte (crc ^^^ b.setWidth 16) c = crc16CcittQtByte crc (b ^^^ c) := by
  have hdata : qtData (crc ^^^ b.setWidth 16) c = qtData crc (b ^^^ c) := by
    have hlow : c ^^^ (crc ^^^ b.setWidth 16).setWidth 8 = b ^^^ c ^^^ crc.setWidth 8 := by
      rw [BitVec.setWidth_xor,BitVec.setWidth_setWidth_of_le _ (by decide),BitVec.setWidth_eq]
      ac_rfl
    rw [qtData,qtData,hlow]
  have hupper : upper (crc ^^^ b.setWidth 16) = upper crc := by
    refine BitVec.eq_of_getLsbD_eq fun i hi => ?_
    simp [upper,hi]
  rw [crc16CcittQtByte_eq,crc16CcittQtByte_eq,hdata,hupper]

theorem losses_lost : ∀ w ∈ losses, ∃ (crc : BitVec 16) (s : List Byte), s.length = w.2 ∧
    crc16CcittQt (0#8 :: s) crc = crc16CcittQt (w.1 :: s) crc := by
  simp only [losses,List.forall_mem_cons,List.not_mem_nil,false_implies,implies_true,and_true]
  exact ⟨⟨0#16,[0x0D#8],by decide⟩,⟨0#16,[0x0B#8],by decide⟩,⟨0#16,[0x00#8,0x0F#8],by decide⟩,
    ⟨0#16,[0x08#8,0x03#8],by decide⟩,⟨0#16,[0x04#8,0x2F#8],by decide⟩,
    ⟨0x0400#16,[0x01#8,0x0A#8],by decide⟩,⟨0#16,[0x00#8,0x0B#8],by decide⟩,
    ⟨0#16,[0x00#8,0x00#8,0x4B#8],by decide⟩,⟨0#16,[0x00#8,0x04#8,0x2F#8],by decide⟩,
    ⟨0#16,[0x04#8,0x04#8,0x09#8],by decide⟩,⟨0#16,[0x00#8,0x00#8,0x4B#8],by decide⟩,
    ⟨0#16,[0x00#8,0x00#8,0x4B#8],by decide⟩,⟨0#16,[0x00#8,0x04#8,0x2F#8],by decide⟩,
    ⟨0xFF00#16,[0x00#8,0x00#8,0x00#8],by decide⟩,⟨0#16,[0x00#8,0x09#8,0x02#8],by decide⟩⟩

theorem crc16CcittQt_hides {b c : Byte} {n : Nat} (h : Hidden (b ^^^ c) n) :
    ∃ (crc : BitVec 16) (s : List Byte), s.length = n ∧
      crc16CcittQt (b :: s) crc = crc16CcittQt (c :: s) crc := by
  obtain ⟨⟨d,k⟩,hw,rfl,hk⟩ := h
  obtain ⟨crc,s,hs,heq⟩ := losses_lost _ hw
  have hfirst : ∀ a, crc16CcittQt (a :: s) (crc ^^^ b.setWidth 16) =
      crc16CcittQt ((b ^^^ a) :: s) crc := by
    intro a
    exact congrArg (crc16CcittQt s) (crc16CcittQtByte_xor crc b a)
  have happ : ∀ (l m : List Byte) (x : BitVec 16),
      crc16CcittQt (l ++ m) x = crc16CcittQt m (crc16CcittQt l x) := fun _ _ _ => List.foldl_append
  dsimp only at hs hk
  refine ⟨crc ^^^ b.setWidth 16,s ++ List.replicate (n-k) 0#8,?_,?_⟩
  · rw [List.length_append,List.length_replicate,hs]
    omega
  · rw [← List.cons_append,← List.cons_append,happ,happ,hfirst,hfirst,BitVec.xor_self,heq]

/-- Which changes of a byte always show, by the routine, the difference of the two bytes and the
number of bytes behind them: all, but for `CRC_16_CCITT_QT` those of its differences that as many
bytes can hide. -/
theorem run_ne_iff (r : Routine) {b c : Byte} (h : b ≠ c) (n : Nat) :
    (∀ (crc : BitVec r.width) (p s : List Byte), s.length = n →
      r.run (p ++ b :: s) crc ≠ r.run (p ++ c :: s) crc) ↔
    ¬ (r = .crc16CcittQt ∧ Hidden (b ^^^ c) n) := by
  cases r with
  | crc8_8C => exact iff_of_true (fun crc p s _ => crc8_8C_ne h crc p s) (by simp)
  | crc16Ibm => exact iff_of_true (fun crc p s _ => crc16Ibm_ne h crc p s) (by simp)
  | crc16Ccitt => exact iff_of_true (fun crc p s _ => crc16Ccitt_ne h crc p s) (by simp)
  | crc32Nodes => exact iff_of_true (fun crc p s _ => crc32Nodes_ne h crc p s) (by simp)
  | crc16CcittQt =>
    constructor
    · rintro hall ⟨-,hd⟩
      obtain ⟨crc,s,hs,heq⟩ := crc16CcittQt_hides hd
      exact hall crc [] s hs heq
    · rintro hd crc p s rfl
      exact crc16CcittQt_ne h crc p s fun hh => hd ⟨rfl,hh⟩

/-- A difference that one byte cannot hide, though two can. -/
theorem run_ne_iff_next : Routine.crc16CcittQt.run ([1#8] ++ 0x00#8 :: [0xD5#8]) 0#16 ≠
    Routine.crc16CcittQt.run ([1#8] ++ 0x32#8 :: [0xD5#8]) 0#16 :=
  (run_ne_iff .crc16CcittQt (show 0x00#8 ≠ 0x32#8 by decide) 1).mpr (by decide) 0#16 [1#8]
    [0xD5#8] rfl

/-- The two bytes differ in the bits that `data` leaves out of the lower half of the register, and
the next byte covers what is left of the difference in the upper half. -/
theorem change_lost : 0x00#8 ≠ 0x91#8 ∧ Routine.crc16CcittQt.run ([] ++ 0x00#8 :: [0xD5#8]) 0#16 =
    Routine.crc16CcittQt.run ([] ++ 0x91#8 :: [0xD5#8]) 0#16 := by decide

theorem qtData_flip (crc : BitVec 16) (b : Byte) :
    qtData crc (b ^^^ 0x91#8) = qtData crc b ^^^ 0x81#8 := by
  have hmix := XorLinear.id.xor (XorLinear.shiftLeft 4) (b ^^^ crc.setWidth 8) 0x91#8
  have hin : b ^^^ 0x91#8 ^^^ crc.setWidth 8 = b ^^^ crc.setWidth 8 ^^^ 0x91#8 := by ac_rfl
  exact (congrArg (fun z : Byte => z ^^^ (z <<< 4)) hin).trans hmix

theorem qtData_ones (crc : BitVec 16) : qtData crc (0x0F#8 ^^^ crc.setWidth 8) = 0xFF#8 := by
  simp only [qtData,xor_xor_cancel]
  rfl

/-- Whatever came before it, any byte but the last can be changed unnoticed: a following byte
that sets all bits of `data` hides the change. -/
theorem crc16CcittQt_loses (p : List Byte) (crc : BitVec 16) (b : Byte) (n : Nat) :
    ∃ (c : Byte) (s : List Byte), b ≠ c ∧ s.length = n+1 ∧
      crc16CcittQt (p ++ b :: s) crc = crc16CcittQt (p ++ c :: s) crc := by
  let x := crc16CcittQt p crc
  let y := crc16CcittQtByte x b
  let z := crc16CcittQtByte x (b ^^^ 0x91#8)
  let t := 0x0F#8 ^^^ y.setWidth 8
  have hyz : z.setWidth 8 = y.setWidth 8 := by
    rw [crc16CcittQtByte_lower,crc16CcittQtByte_lower,qtLower_eq_iff,qtData_flip,
      BitVec.xor_comm (qtData x b),xor_xor_cancel]
    exact .inr rfl
  have hy : qtData y t = 0xFF#8 := qtData_ones y
  have hz : qtData z t = 0xFF#8 := by
    have hones := qtData_ones z
    rwa [hyz] at hones
  have hones : ∀ u : Byte, 0xFF#8 ||| u = 0xFF#8 := by decide
  have hmerge : crc16CcittQtByte y t = crc16CcittQtByte z t := by
    refine (crc16CcittQtByte_eq_iff y z t).mpr (.inl ⟨?_,?_⟩)
    · rw [hy,hz]
    · rw [hy,hz,hones,hones]
  refine ⟨b ^^^ 0x91#8,t :: List.replicate n 0#8,fun hb => ?_,by simp,?_⟩
  · have h0 := BitVec.xor_eq_zero_iff.mpr hb
    rw [← BitVec.xor_assoc,BitVec.xor_self,BitVec.zero_xor] at h0
    exact absurd h0 (by decide)
  · rw [crc16CcittQt_append,crc16CcittQt_append]
    exact congrArg (crc16CcittQt (List.replicate n 0#8)) hmerge

end ApxBus.CrcSw
