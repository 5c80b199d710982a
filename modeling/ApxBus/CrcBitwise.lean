import ApxBus.Crc32
import ApxBus.ShiftRegister
set_option autoImplicit false

/-! The table-driven CRC32 of `crc/crc32_sw.c` against the bitwise one beside it. -/

namespace ApxBus

/-- One round of the loop in `stm_crc_slow`. -/
def stmCrcBit (crc : BitVec 32) : BitVec 32 :=
  if crc &&& 0x80000000#32 ≠ 0#32 then (crc <<< 1) ^^^ 0x04C11DB7#32 else crc <<< 1

def stmCrcSlow (crc data : BitVec 32) : BitVec 32 := stmCrcBit^[32] (crc ^^^ data)

/-- The little-endian words of a byte string, the last one padded with zero bytes. -/
def words : List Byte → List (BitVec 32)
  | b0 :: b1 :: b2 :: b3 :: rest => le32 b0 b1 b2 b3 :: words rest
  | [b0,b1,b2] => [le32 b0 b1 b2 0]
  | [b0,b1] => [le32 b0 b1 0 0]
  | [b0] => [le32 b0 0 0 0]
  | [] => []

theorem stmCrcBit_eq : stmCrcBit = leftShift 0x04C11DB7#32 := by
  funext crc
  have htop : crc &&& 0x80000000#32 ≠ 0#32 ↔ crc.msb = true := by
    rw [BitVec.msb_eq_getLsbD_last]
    exact and_twoPow_ne_zero (show 31 < 32 by decide) crc
  simp only [stmCrcBit,leftShift,htop]

theorem stmCrcBit_linear : XorLinear stmCrcBit := by
  rw [stmCrcBit_eq]
  exact leftShift_linear _

theorem stmCrcBit_injective : Function.Injective stmCrcBit := by
  rw [stmCrcBit_eq]
  exact leftShift_injective (by decide)

theorem crcTable_xor : ∀ i j : BitVec 4,
    crcTable.get (i ^^^ j).toFin = crcTable.get i.toFin ^^^ crcTable.get j.toFin := by decide

theorem stmCrcNibble_linear : XorLinear stmCrcNibble := by
  have hindex : XorLinear fun x : BitVec 32 => crcTable.get (x.extractLsb' 28 4).toFin := by
    intro x y
    have hx := XorLinear.extractLsb' 28 4 x y
    simp only at hx ⊢
    rw [hx,crcTable_xor]
  exact (XorLinear.shiftLeft 4).xor hindex

theorem stmCrcNibble_eq (crc : BitVec 32) : stmCrcNibble crc = stmCrcBit^[4] crc := by
  refine stmCrcNibble_linear.ext (stmCrcBit_linear.iterate 4) ?_ crc
  decide

theorem stmCrcFast_eq (crc data : BitVec 32) :
    stmCrcFast crc data = stmCrcBit^[32] (crc ^^^ data) := by
  simp only [stmCrcFast,stmCrcNibble_eq,← Function.iterate_add_apply]

theorem stmCrc_slow (crc data : BitVec 32) : stmCrc data crc = stmCrcSlow crc data := by
  rw [stmCrc,stmCrcFast_eq,BitVec.xor_comm,stmCrcSlow]

theorem crc32Sw_words (data : List Byte) (crc : BitVec 32) :
    crc32Sw data data.length crc = (words data).foldl stmCrcSlow crc := by
  induction data using words.induct generalizing crc with
  | case1 b0 b1 b2 b3 rest ih =>
    rw [words,List.foldl_cons,← ih,← stmCrc_slow]
    rfl
  | case2 b0 b1 b2 =>
    change stmCrc (le32 b0 b1 b2 0 &&& 0x00FFFFFF) crc = _
    rw [le32_mask3,stmCrc_slow]
    rfl
  | case3 b0 b1 =>
    change stmCrc (le32 b0 b1 0 0 &&& 0x0000FFFF) crc = _
    rw [le32_mask2,stmCrc_slow]
    rfl
  | case4 b0 =>
    change stmCrc (le32 b0 0 0 0 &&& 0x000000FF) crc = _
    rw [le32_mask1,stmCrc_slow]
    rfl
  | case5 => rfl

/-- The checksum is the bitwise one over the words of the data, whatever memory holds after
them, and the order of the two arguments makes no difference to a step. -/
theorem crc32Sw_bitwise :
    (∀ (data after : List Byte) (crc : BitVec 32),
      crc32Sw (data ++ after) data.length crc = (words data).foldl stmCrcSlow crc) ∧
    ∀ a b : BitVec 32, stmCrcFast a b = stmCrcSlow a b ∧ stmCrcFast b a = stmCrcSlow a b := by
  refine ⟨fun data after crc => ?_,fun a b => ⟨?_,stmCrc_slow a b⟩⟩
  · rw [← crc32Sw_take,List.take_left',crc32Sw_words]
    rfl
  · rw [stmCrcFast_eq,stmCrcSlow]

end ApxBus
