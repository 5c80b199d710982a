import ApxBus.BurstErrors
import ApxBus.CrcSw
set_option autoImplicit false

/-! The checksums of `crc/sw/crc_sw.c` that shift a register bit by bit, and the bursts of errors
that they detect. -/

namespace ApxBus.CrcSw
open Function

/-- Bit `k` of a buffer, when the bits of a byte are taken in some order. -/
def bitAt (order : Nat → Nat) (buf : List Byte) (k : Nat) : Bool :=
  (buf.getD (k/8) 0#8).getLsbD (order (k%8))

def bitsOf (order : Nat → Nat) (b : Byte) : List Bool :=
  (List.range 8).map fun j => b.getLsbD (order j)

theorem bitsOf_length (order : Nat → Nat) (b : Byte) : (bitsOf order b).length = 8 := by
  rw [bitsOf,List.length_map,List.length_range]

theorem bits_getD (order : Nat → Nat) (buf : List Byte) (k : Nat) :
    (buf.flatMap (bitsOf order)).getD k false = bitAt order buf k := by
  induction buf generalizing k with
  | nil => simp [bitAt]
  | cons b buf ih =>
    rw [List.flatMap_cons]
    by_cases hk : k < 8
    · rw [List.getD_append _ _ _ _ (by rw [bitsOf_length]; exact hk),bitAt,
        Nat.div_eq_of_lt hk,Nat.mod_eq_of_lt hk,List.getD_cons_zero,bitsOf,
        List.getD_eq_getElem?_getD,List.getElem?_map,List.getElem?_range hk]
      rfl
    · rw [List.getD_append_right _ _ _ _ (by rw [bitsOf_length]; omega),bitsOf_length,
        ih,bitAt,bitAt,
        show k/8 = (k-8)/8+1 by omega,show k%8 = (k-8)%8 by omega,List.getD_cons_succ]

theorem bits_length (order : Nat → Nat) (buf : List Byte) :
    (buf.flatMap (bitsOf order)).length = 8*buf.length := by
  induction buf with
  | nil => rfl
  | cons b buf ih =>
    rw [List.flatMap_cons,List.length_append,ih,bitsOf_length,List.length_cons]
    omega

theorem bits_injective {order : Nat → Nat} (ho : ∀ k < 8, ∃ j < 8, order j = k) {a b : List Byte}
    (hl : a.length = b.length) (h : a.flatMap (bitsOf order) = b.flatMap (bitsOf order)) :
    a = b := by
  refine List.ext_getElem hl fun n ha hb => ?_
  refine BitVec.eq_of_getLsbD_eq fun k hk => ?_
  obtain ⟨j,hj,rfl⟩ := ho k hk
  have hbit := congrArg (·.getD (8*n+j) false) h
  rw [bits_getD,bits_getD,bitAt,bitAt,show (8*n+j)/8 = n by omega,show (8*n+j)%8 = j by omega,
    List.getD_eq_getElem _ _ ha,List.getD_eq_getElem _ _ hb] at hbit
  exact hbit

theorem bytes_eq_bits {w : Nat} {S : BitVec w → BitVec w} {place : Nat → Nat} (h : Lane S place)
    (hw : 8 ≤ w) {order : Nat → Nat} {put : Byte → BitVec w}
    (hput : ∀ b, load place 0 (bitsOf order b) = put b) (buf : List Byte) (crc : BitVec w) :
    buf.foldl (fun crc b => S^[8] (crc ^^^ put b)) crc =
      (buf.flatMap (bitsOf order)).foldl (takeIn S (BitVec.twoPow w (place 0))) crc := by
  induction buf generalizing crc with
  | nil => rfl
  | cons b buf ih =>
    have hb := h.foldl_load (u := bitsOf order b) (by rw [bitsOf_length]; exact hw) crc
    rw [bitsOf_length,hput] at hb
    rw [List.foldl_cons,List.flatMap_cons,List.foldl_append,ih,hb]

theorem crc32Byte_shifts (poly : BitVec 32) : crc32Byte poly =
    fun crc b => (rightShift poly)^[8] (crc ^^^ b.setWidth 32) := by
  funext crc b
  have hlin := (rightShift_linear poly).iterate 8
  have hlow : ∀ i < 8, BitVec.twoPow 32 i >>> 8 = 0#32 ∧
      BitVec.twoPow 32 i &&& 0xFF#32 = BitVec.twoPow 32 i := by decide
  have hhigh : ∀ i < 24, BitVec.twoPow 32 (i+8) >>> 8 = BitVec.twoPow 32 i ∧
      BitVec.twoPow 32 (i+8) &&& 0xFF#32 = 0#32 := by decide
  have hstep : ∀ x : BitVec 32,
      (x >>> 8) ^^^ (rightShift poly)^[8] (x &&& 0xFF#32) = (rightShift poly)^[8] x := by
    refine XorLinear.ext ?_ hlin fun i hi => ?_
    · exact (XorLinear.ushiftRight 8).xor (hlin.comp (XorLinear.and _))
    · by_cases h8 : i < 8
      · rw [(hlow i h8).1,(hlow i h8).2,BitVec.zero_xor]
      · obtain ⟨k,rfl⟩ : ∃ k, i = k+8 := ⟨i-8,by omega⟩
        rw [(hhigh k (by omega)).1,(hhigh k (by omega)).2,hlin.zero,BitVec.xor_zero,
          rightShift_iterate poly hi]
  have hb : b.setWidth 32 &&& 0xFF#32 = b.setWidth 32 := by
    revert b
    decide
  have hand := XorLinear.and 0xFF#32 crc (b.setWidth 32)
  simp only [hb] at hand
  rw [← hstep (crc ^^^ b.setWidth 32),BitVec.ushiftRight_xor_distrib,byte_shift,BitVec.xor_zero,
    hand,crc32Byte,crc32Bit_eq,BitVec.xor_comm (b.setWidth 32)]

theorem crc32_eq (poly : BitVec 32) (buf : List Byte) (crc : BitVec 32) : crc32 buf crc poly =
    buf.foldl (fun crc b => (rightShift poly)^[8] (crc ^^^ b.setWidth 32)) crc := by
  rw [crc32,crc32Byte_shifts]

def highByte (b : Byte) : BitVec 16 := b.setWidth 16 <<< 8

theorem crc16_eq (poly : BitVec 16) (buf : List Byte) (crc : BitVec 16) : crc16 poly buf crc =
    buf.foldl (fun crc b => (leftShift poly)^[8] (crc ^^^ highByte b)) crc := by
  unfold crc16 crc16Byte
  rw [crc16Bit_eq]
  rfl

theorem crc16Ibm_eq (buf : List Byte) (crc : BitVec 16) : crc16Ibm buf crc =
    buf.foldl (fun crc b => (rightShift 0xA001#16)^[8] (crc ^^^ b.setWidth 16)) crc := by
  rw [crc16Ibm,crc16IbmByte_eq]

/-- The routines that shift bit by bit, with the polynomial of those that are given one. -/
inductive Shifter where
  | crc8 (poly : Byte) | crc8_8C | crc16 (poly : BitVec 16) | crc16Ccitt | crc16Ibm
  | crc32 (poly : BitVec 32) | crc32Nodes
  deriving DecidableEq, Repr

namespace Shifter

def width : Shifter → Nat
  | .crc8 _ | .crc8_8C => 8
  | .crc16 _ | .crc16Ccitt | .crc16Ibm => 16
  | .crc32 _ | .crc32Nodes => 32

def run : (r : Shifter) → List Byte → BitVec r.width → BitVec r.width
  | .crc8 poly => CrcSw.crc8 poly
  | .crc8_8C => CrcSw.crc8_8C
  | .crc16 poly => CrcSw.crc16 poly
  | .crc16Ccitt => CrcSw.crc16Ccitt
  | .crc16Ibm => CrcSw.crc16Ibm
  | .crc32 poly => fun buf crc => CrcSw.crc32 buf crc poly
  | .crc32Nodes => CrcSw.crc32Nodes

def poly : (r : Shifter) → BitVec r.width
  | .crc8 poly => poly
  | .crc8_8C => 0x8C#8
  | .crc16 poly => poly
  | .crc16Ccitt => 0x1021#16
  | .crc16Ibm => 0xA001#16
  | .crc32 poly => poly
  | .crc32Nodes => 0xEDB88320#32

/-- Whether the register shifts to the left, which takes in the high bit of a byte first. -/
def left : Shifter → Bool
  | .crc16 _ | .crc16Ccitt => true
  | _ => false

def order (r : Shifter) (j : Nat) : Nat := if r.left then 7-j else j

/-- The polynomial has the bit with which a bit that is shifted out comes in again. -/
def Keeps (r : Shifter) : Prop := r.poly.getLsbD (if r.left then 0 else r.width-1) = true

/-- The polynomial as a pattern of bits in the order of the message. -/
def pattern (r : Shifter) : Nat → Bool
  | 0 => true
  | j+1 => r.poly.getLsbD (if r.left then r.width-1-j else j)

/-- The shifts of the register, the places of the bits in it, and what it makes of a buffer. -/
structure Serial (r : Shifter) (S : BitVec r.width → BitVec r.width) (place : Nat → Nat) :
    Prop where
  lane : Lane S place
  lost : ∀ j, lost S place j = r.pattern j
  run : ∀ buf crc, r.run buf crc =
    (buf.flatMap (bitsOf r.order)).foldl (takeIn S (BitVec.twoPow r.width (place 0))) crc

theorem put_right8 : ∀ b : Byte, load (fun i => i) 0 (bitsOf (fun j => j) b) = b := by decide

theorem put_right16 : ∀ b : Byte,
    load (fun i => i) 0 (bitsOf (fun j => j) b) = b.setWidth 16 := by decide

theorem put_right32 : ∀ b : Byte,
    load (fun i => i) 0 (bitsOf (fun j => j) b) = b.setWidth 32 := by decide

theorem put_left16 : ∀ b : Byte,
    load (fun i => 16-1-i) 0 (bitsOf (fun j => 7-j) b) = highByte b := by decide

theorem serial_right {r : Shifter} (hleft : r.left = false) (hw : 8 ≤ r.width) (hr : r.Keeps)
    {put : Byte → BitVec r.width}
    (hput : ∀ b, load (fun i => i) 0 (bitsOf (fun j => j) b) = put b)
    (hrun : ∀ buf crc, r.run buf crc =
      buf.foldl (fun crc b => (rightShift r.poly)^[8] (crc ^^^ put b)) crc) :
    Serial r (rightShift r.poly) (fun i => i) := by
  unfold Keeps at hr
  rw [hleft,if_neg Bool.false_ne_true,← BitVec.msb_eq_getLsbD_last] at hr
  have horder : r.order = fun j => j := by
    funext j
    rw [order,hleft,if_neg Bool.false_ne_true]
  refine ⟨rightShift_lane hr,fun j => ?_,fun buf crc => ?_⟩
  · cases j with
    | zero => rfl
    | succ j => rw [lost_rightShift r.poly (by omega),pattern,hleft,if_neg Bool.false_ne_true]
  · rw [hrun,horder,bytes_eq_bits (rightShift_lane hr) hw hput]

theorem serial_left {r : Shifter} (hleft : r.left = true) (hw : 8 ≤ r.width) (hr : r.Keeps)
    {put : Byte → BitVec r.width}
    (hput : ∀ b, load (fun i => r.width-1-i) 0 (bitsOf (fun j => 7-j) b) = put b)
    (hrun : ∀ buf crc, r.run buf crc =
      buf.foldl (fun crc b => (leftShift r.poly)^[8] (crc ^^^ put b)) crc) :
    Serial r (leftShift r.poly) (fun i => r.width-1-i) := by
  unfold Keeps at hr
  rw [hleft,if_pos rfl] at hr
  have horder : r.order = fun j => 7-j := by
    funext j
    rw [order,hleft,if_pos rfl]
  refine ⟨leftShift_lane hr,fun j => ?_,fun buf crc => ?_⟩
  · cases j with
    | zero => rfl
    | succ j => rw [lost_leftShift r.poly (by omega),pattern,hleft,if_pos rfl]
  · rw [hrun,horder,bytes_eq_bits (leftShift_lane hr) hw hput]

theorem serial (r : Shifter) (hr : r.Keeps) : ∃ S place, Serial r S place := by
  cases r with
  | crc8 poly =>
    exact ⟨_,_,serial_right (r := .crc8 poly) rfl (Nat.le_refl 8) hr put_right8 (crc8_eq poly)⟩
  | crc8_8C =>
    refine ⟨_,_,serial_right (r := .crc8_8C) rfl (Nat.le_refl 8) hr put_right8 fun buf crc => ?_⟩
    exact (shortcuts_eq.2 buf crc).trans (crc8_eq 0x8C#8 buf crc)
  | crc16 poly =>
    exact ⟨_,_,serial_left (r := .crc16 poly) rfl (show 8 ≤ 16 by decide) hr put_left16
      (crc16_eq poly)⟩
  | crc16Ccitt =>
    refine ⟨_,_,serial_left (r := .crc16Ccitt) rfl (show 8 ≤ 16 by decide) hr put_left16
      fun buf crc => ?_⟩
    exact (shortcuts_eq.1 buf crc).trans (crc16_eq 0x1021#16 buf crc)
  | crc16Ibm =>
    exact ⟨_,_,serial_right (r := .crc16Ibm) rfl (show 8 ≤ 16 by decide) hr put_right16 crc16Ibm_eq⟩
  | crc32 poly =>
    exact ⟨_,_,serial_right (r := .crc32 poly) rfl (show 8 ≤ 32 by decide) hr put_right32
      (crc32_eq poly)⟩
  | crc32Nodes =>
    exact ⟨_,_,serial_right (r := .crc32Nodes) rfl (show 8 ≤ 32 by decide) hr put_right32
      (crc32_eq 0xEDB88320#32)⟩

theorem order_onto (r : Shifter) : ∀ k < 8, ∃ j < 8, r.order j = k := by
  intro k hk
  unfold order
  cases r.left
  · exact ⟨k,hk,if_neg Bool.false_ne_true⟩
  · exact ⟨7-k,by omega,by rw [if_pos rfl]; omega⟩

/-- Two buffers that differ at most in a burst of bits, no longer than the register and one bit
more, have the same checksum only if the burst flips just the bits of the polynomial. -/
theorem burst_lost_iff (r : Shifter) (hr : r.Keeps) (crc : BitVec r.width) {a b : List Byte}
    (hl : a.length = b.length) {i : Nat}
    (hout : ∀ k, bitAt r.order a k ≠ bitAt r.order b k → i ≤ k ∧ k ≤ i+r.width) :
    r.run a crc = r.run b crc ↔ a = b ∨
      ∀ j ≤ r.width, (bitAt r.order a (i+j) ≠ bitAt r.order b (i+j) ↔ r.pattern j = true) := by
  obtain ⟨S,place,h⟩ := r.serial hr
  have hlen : (a.flatMap (bitsOf r.order)).length = (b.flatMap (bitsOf r.order)).length := by
    rw [bits_length,bits_length,hl]
  have hiff := h.lane.foldl_eq_iff hlen (i := i) (fun k hk => by
    rw [bits_getD,bits_getD] at hk
    have hin := hout k hk
    omega) crc
  simp only [bits_getD,h.lost] at hiff
  rw [h.run,h.run,hiff]
  exact or_congr ⟨bits_injective r.order_onto hl,fun he => by rw [he]⟩ Iff.rfl

/-- A burst of nine bits that an eight bit register does not see, across two bytes. -/
theorem burst_lost_two : crc8_8C.run [0x11#8,0x22#8] 5#8 = crc8_8C.run [0xD9#8,0x2A#8] 5#8 := by
  refine (@burst_lost_iff .crc8_8C rfl 5#8 [0x11#8,0x22#8] [0xD9#8,0x2A#8] rfl 3
    fun k hk => ?_).mpr (Or.inr (by decide))
  by_cases h16 : k < 16
  · revert hk
    revert k
    decide
  · refine absurd ?_ hk
    rw [bitAt,bitAt,List.getD_eq_default _ _ (show 2 ≤ k/8 by omega),
      List.getD_eq_default _ _ (show 2 ≤ k/8 by omega)]

end Shifter

end ApxBus.CrcSw
