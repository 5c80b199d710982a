import Mathlib.Tactic.IntervalCases
import Mathlib.Data.List.Basic
set_option autoImplicit false

/-! The software CRC32 of `crc/crc32_sw.c`, over memory given as a list of bytes. -/

namespace ApxBus

abbrev Byte := BitVec 8

def le16 (b0 b1 : Byte) : BitVec 16 := b1 ++ b0

def le32 (b0 b1 b2 b3 : Byte) : BitVec 32 := b3 ++ b2 ++ b1 ++ b0

def bytes16 (v : BitVec 16) : List Byte := [v.extractLsb' 0 8,v.extractLsb' 8 8]

def bytes32 (v : BitVec 32) : List Byte :=
  [v.extractLsb' 0 8,v.extractLsb' 8 8,v.extractLsb' 16 8,v.extractLsb' 24 8]

@[simp] theorem bytes16_length (v : BitVec 16) : (bytes16 v).length = 2 := rfl

@[simp] theorem bytes32_length (v : BitVec 32) : (bytes32 v).length = 4 := rfl

theorem le16_bytes (v : BitVec 16) : le16 (v.extractLsb' 0 8) (v.extractLsb' 8 8) = v := by
  apply BitVec.eq_of_getLsbD_eq
  intro i hi
  simp only [le16,BitVec.getLsbD_append,BitVec.getLsbD_extractLsb']
  by_cases h : i < 8
  · simp [h]
  · have h8 : i-8 < 8 := by omega
    have hs : 8+(i-8) = i := by omega
    simp [h,h8,hs]

theorem bytes16_le16 (b0 b1 : Byte) : bytes16 (le16 b0 b1) = [b0,b1] := by
  have h0 : (le16 b0 b1).extractLsb' 0 8 = b0 := by
    apply BitVec.eq_of_getLsbD_eq
    intro i hi
    simp only [le16,BitVec.getLsbD_append,BitVec.getLsbD_extractLsb',Nat.zero_add]
    simp [hi]
  have h1 : (le16 b0 b1).extractLsb' 8 8 = b1 := by
    apply BitVec.eq_of_getLsbD_eq
    intro i hi
    simp only [le16,BitVec.getLsbD_append,BitVec.getLsbD_extractLsb']
    simp [hi]
  rw [bytes16,h0,h1]

theorem bytes16_injective : Function.Injective bytes16 := by
  intro v w h
  rw [bytes16,bytes16,List.cons.injEq,List.cons.injEq] at h
  rw [← le16_bytes v,← le16_bytes w,h.1,h.2.1]

theorem le32_getLsbD (b0 b1 b2 b3 : Byte) (i : Nat) :
    (le32 b0 b1 b2 b3).getLsbD i =
      if i < 8 then b0.getLsbD i else if i < 16 then b1.getLsbD (i-8)
      else if i < 24 then b2.getLsbD (i-16) else b3.getLsbD (i-24) := by
  simp only [le32,BitVec.getLsbD_append,Nat.sub_sub]
  split_ifs <;> first | rfl | omega

theorem le32_bytes (v : BitVec 32) : le32 (v.extractLsb' 0 8) (v.extractLsb' 8 8)
    (v.extractLsb' 16 8) (v.extractLsb' 24 8) = v := by
  apply BitVec.eq_of_getLsbD_eq
  intro i hi
  simp only [le32_getLsbD,BitVec.getLsbD_extractLsb']
  split_ifs
  · have hs : 0+i = i := by omega
    simp [*]
  · have hs : 8+(i-8) = i := by omega
    have hb : i-8 < 8 := by omega
    simp [hs,hb]
  · have hs : 16+(i-16) = i := by omega
    have hb : i-16 < 8 := by omega
    simp [hs,hb]
  · have hs : 24+(i-24) = i := by omega
    have hb : i-24 < 8 := by omega
    simp [hs,hb]

theorem bytes32_le32 (b0 b1 b2 b3 : Byte) : bytes32 (le32 b0 b1 b2 b3) = [b0,b1,b2,b3] := by
  have hbyte : ∀ (k : Nat) (b : Byte), (∀ i < 8, (le32 b0 b1 b2 b3).getLsbD (k+i) = b.getLsbD i) →
      (le32 b0 b1 b2 b3).extractLsb' k 8 = b := by
    intro k b h
    refine BitVec.eq_of_getLsbD_eq fun i hi => ?_
    rw [BitVec.getLsbD_extractLsb',h i hi,decide_eq_true hi,Bool.true_and]
  have h0 := hbyte 0 b0 fun i hi => by
    rw [le32_getLsbD,if_pos (by omega),Nat.zero_add]
  have h1 := hbyte 8 b1 fun i hi => by
    rw [le32_getLsbD,if_neg (by omega),if_pos (by omega),Nat.add_sub_cancel_left]
  have h2 := hbyte 16 b2 fun i hi => by
    rw [le32_getLsbD,if_neg (by omega),if_neg (by omega),if_pos (by omega),
      Nat.add_sub_cancel_left]
  have h3 := hbyte 24 b3 fun i hi => by
    rw [le32_getLsbD,if_neg (by omega),if_neg (by omega),if_neg (by omega),
      Nat.add_sub_cancel_left]
  rw [bytes32,h0,h1,h2,h3]

theorem bytes32_take_eq_iff {k : Nat} (hk : k ≤ 4) (v w : BitVec 32) :
    (bytes32 v).take k = (bytes32 w).take k ↔ v.setWidth (8*k) = w.setWidth (8*k) := by
  have hmap : ∀ v, (bytes32 v).take k = (List.range k).map fun i => v.extractLsb' (8*i) 8 := by
    intro v
    change ((List.range 4).map fun i => v.extractLsb' (8*i) 8).take k = _
    rw [← List.map_take,List.take_range,Nat.min_eq_left hk]
  have hbit : ∀ (v : BitVec 32) (i : Nat), i < 8*k →
      (v.setWidth (8*k)).getLsbD i = (v.extractLsb' (8*(i/8)) 8).getLsbD (i%8) := by
    intro v i hi
    rw [BitVec.getLsbD_setWidth,BitVec.getLsbD_extractLsb',decide_eq_true hi,
      decide_eq_true (Nat.mod_lt i (by decide)),Nat.div_add_mod]
  rw [hmap,hmap,List.map_inj_left]
  constructor
  · intro h
    refine BitVec.eq_of_getLsbD_eq fun i hi => ?_
    rw [hbit v i hi,hbit w i hi,h (i/8) (List.mem_range.mpr (by omega))]
  · intro h i hi
    refine BitVec.eq_of_getLsbD_eq fun j hj => ?_
    have hi := List.mem_range.mp hi
    have hx := congrArg (BitVec.getLsbD · (8*i+j)) h
    rw [hbit v _ (by omega),hbit w _ (by omega),show (8*i+j)/8 = i by omega,
      show (8*i+j)%8 = j by omega] at hx
    exact hx

theorem bytes32_take_add {k : Nat} (hk : k ≤ 4) {v w : BitVec 32}
    (h : (bytes32 v).take k = (bytes32 w).take k) (x : BitVec 32) :
    (bytes32 (v+x)).take k = (bytes32 (w+x)).take k := by
  rw [bytes32_take_eq_iff hk] at h ⊢
  rw [BitVec.setWidth_add _ _ (by omega),BitVec.setWidth_add _ _ (by omega),h]

theorem bytes32_injective : Function.Injective bytes32 := by
  intro v w h
  have hw := (bytes32_take_eq_iff (Nat.le_refl 4) v w).mp (by rw [h])
  rwa [BitVec.setWidth_eq,BitVec.setWidth_eq] at hw

def crcTable : Vector (BitVec 32) 16 :=
  #v[0x00000000,0x04C11DB7,0x09823B6E,0x0D4326D9,0x130476DC,0x17C56B6B,0x1A864DB2,0x1E475005,
    0x2608EDB8,0x22C9F00F,0x2F8AD6D6,0x2B4BCB61,0x350C9B64,0x31CD86D3,0x3C8EA00A,0x384FBDBD]

/-- One table step; the index is the top four bits of the register, `crc >> 28`. -/
def stmCrcNibble (crc : BitVec 32) : BitVec 32 :=
  (crc <<< 4) ^^^ crcTable.get (crc.extractLsb' 28 4).toFin

def stmCrcFast (crc data : BitVec 32) : BitVec 32 :=
  let crc := crc ^^^ data
  let crc := stmCrcNibble crc
  let crc := stmCrcNibble crc
  let crc := stmCrcNibble crc
  let crc := stmCrcNibble crc
  let crc := stmCrcNibble crc
  let crc := stmCrcNibble crc
  let crc := stmCrcNibble crc
  stmCrcNibble crc

def stmCrc (crc data : BitVec 32) : BitVec 32 := stmCrcFast crc data

/-- The word at a `uint32_t` pointer. The last word of `crc32Sw` can reach past
the data: `p` is all the memory from the pointer on. -/
def loadWord (p : List Byte) : BitVec 32 :=
  le32 (p.getD 0 0) (p.getD 1 0) (p.getD 2 0) (p.getD 3 0)

def crc32Sw : List Byte → Nat → BitVec 32 → BitVec 32
  | p, sz+4, crc => crc32Sw (p.drop 4) sz (stmCrc (loadWord p) crc)
  | _, 0, crc => crc
  | p, 3, crc => stmCrc (loadWord p &&& 0x00FFFFFF) crc
  | p, 2, crc => stmCrc (loadWord p &&& 0x0000FFFF) crc
  | p, 1, crc => stmCrc (loadWord p &&& 0x000000FF) crc

def crc32 (data : List Byte) (sz : Nat) (crc : BitVec 32) : BitVec 32 := crc32Sw data sz crc

def crcInit : BitVec 32 := 0xFFFFFFFF#32

theorem le32_mask1 (b0 b1 b2 b3 : Byte) :
    le32 b0 b1 b2 b3 &&& 0x000000FF = le32 b0 0 0 0 := by
  apply BitVec.eq_of_getLsbD_eq
  intro i hi
  simp only [BitVec.getLsbD_and,le32_getLsbD]
  interval_cases i <;> simp

theorem le32_mask2 (b0 b1 b2 b3 : Byte) :
    le32 b0 b1 b2 b3 &&& 0x0000FFFF = le32 b0 b1 0 0 := by
  apply BitVec.eq_of_getLsbD_eq
  intro i hi
  simp only [BitVec.getLsbD_and,le32_getLsbD]
  interval_cases i <;> simp

theorem le32_mask3 (b0 b1 b2 b3 : Byte) :
    le32 b0 b1 b2 b3 &&& 0x00FFFFFF = le32 b0 b1 b2 0 := by
  apply BitVec.eq_of_getLsbD_eq
  intro i hi
  simp only [BitVec.getLsbD_and,le32_getLsbD]
  interval_cases i <;> simp

theorem crc32Sw_take (p : List Byte) (sz : Nat) (crc : BitVec 32) :
    crc32Sw (p.take sz) sz crc = crc32Sw p sz crc := by
  induction p, sz, crc using crc32Sw.induct with
  | case1 p sz crc ih =>
    have hd : (p.take (sz+4)).drop 4 = (p.drop 4).take sz := by
      rw [List.drop_take]; rfl
    have hw : loadWord (p.take (sz+4)) = loadWord p := by
      simp [loadWord,List.getD_eq_getElem?_getD]
    rw [crc32Sw,hd,hw,ih,crc32Sw]
  | case2 p crc => rfl
  | case3 p crc =>
    simp only [crc32Sw,loadWord,le32_mask3]
    simp
  | case4 p crc =>
    simp only [crc32Sw,loadWord,le32_mask2]
    simp
  | case5 p crc =>
    simp only [crc32Sw,loadWord,le32_mask1]
    simp

theorem crc32_take (p : List Byte) (sz : Nat) (crc : BitVec 32) :
    crc32 (p.take sz) sz crc = crc32 p sz crc := crc32Sw_take p sz crc

theorem crc32_append (p q : List Byte) (crc : BitVec 32) :
    crc32 (p ++ q) p.length crc = crc32 p p.length crc := by
  rw [← crc32_take (p ++ q)]; simp

end ApxBus
