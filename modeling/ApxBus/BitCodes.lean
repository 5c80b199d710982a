import ApxBus.Crc32
import ApxBus.ShiftRegister
set_option autoImplicit false

/-! Bytes of flags, with the first flag in the lowest bit. -/

namespace ApxBus

def bitByte (l : List Bool) : Byte := (BitVec.ofBoolListLE (l.take 8)).setWidth 8

theorem bitByte_getLsbD (l : List Bool) {i : Nat} (hi : i < 8) :
    (bitByte l).getLsbD i = l.getD i false := by
  rw [bitByte,BitVec.getLsbD_setWidth,BitVec.getLsbD_ofBoolListLE]
  simp [hi]

theorem and_bit {x : Byte} {i : Nat} (hi : i < 8) :
    x &&& 1#8 <<< i = 0#8 ↔ x.getLsbD i = false := by
  rw [← BitVec.twoPow_eq,← Bool.not_eq_true,← and_twoPow_ne_zero hi,not_not]

theorem shiftBit_eq_iff {i j : Nat} (hi : i < 8) :
    1#8 <<< i = 1#8 <<< j ↔ i = j := by
  refine ⟨fun h => ?_,fun h => by rw [h]⟩
  rw [← BitVec.twoPow_eq,← BitVec.twoPow_eq] at h
  have hbit := BitVec.getLsbD_twoPow (w := 8) i i
  rw [h,BitVec.getLsbD_twoPow] at hbit
  simp only [hi,decide_true,Bool.and_true,Bool.and_eq_true,decide_eq_true_eq] at hbit
  exact hbit.2.symm

theorem bitByte_of_false {l : List Bool} (h : ∀ b ∈ l, b = false) : bitByte l = 0#8 := by
  refine BitVec.eq_of_getLsbD_eq fun i hi => ?_
  rw [bitByte_getLsbD _ hi,BitVec.getLsbD_zero,List.getD_eq_getElem?_getD]
  cases hb : l[i]? with
  | none => rfl
  | some b => exact h b (List.mem_of_getElem? hb)

theorem bitByte_snoc {l : List Bool} (h : l.length < 8) (b : Bool) :
    bitByte (l ++ [b]) = if b then bitByte l ||| 1#8 <<< l.length else bitByte l := by
  refine BitVec.eq_of_getLsbD_eq fun i hi => ?_
  have hbit : (1#8 <<< l.length).getLsbD i = decide (l.length = i) := by
    rw [← BitVec.twoPow_eq,BitVec.getLsbD_twoPow]
    simp [h]
  have hor : (if b then bitByte l ||| 1#8 <<< l.length else bitByte l).getLsbD i =
      (l.getD i false || (b && decide (l.length = i))) := by
    cases b with
    | false => simp [bitByte_getLsbD l hi]
    | true =>
      rw [if_pos rfl,BitVec.getLsbD_or,bitByte_getLsbD l hi,hbit,Bool.true_and]
  rw [bitByte_getLsbD _ hi,hor,List.getD_eq_getElem?_getD,List.getD_eq_getElem?_getD]
  rcases Nat.lt_trichotomy i l.length with hlt | rfl | hgt
  · rw [List.getElem?_append_left hlt,decide_eq_false (by omega),Bool.and_false,Bool.or_false]
  · simp
  · rw [List.getElem?_eq_none (by simp; omega),List.getElem?_eq_none (by omega),
      decide_eq_false (by omega),Bool.and_false]
    rfl

def packBits (l : List Bool) : List Byte :=
  (List.range ((l.length+7)/8)).map fun j => bitByte (l.drop (8*j))

theorem packBits_length (l : List Bool) : (packBits l).length = (l.length+7)/8 := by
  rw [packBits,List.length_map,List.length_range]

theorem packBits_drop {l : List Bool} {j : Nat} (h : 8*j < l.length) :
    (packBits l).drop j = bitByte (l.drop (8*j)) :: (packBits l).drop (j+1) := by
  have hj : j < (packBits l).length := by
    rw [packBits_length]
    omega
  rw [List.drop_eq_getElem_cons hj]
  simp only [packBits,List.getElem_map,List.getElem_range]

theorem packBits_append {a c : List Bool} (h : a.length%8 = 0) :
    packBits (a ++ c) = packBits a ++ packBits c := by
  have hn : ((a ++ c).length+7)/8 = (a.length+7)/8+(c.length+7)/8 := by
    rw [List.length_append]
    omega
  rw [packBits,hn,List.range_add,List.map_append,List.map_map]
  congr 1
  · refine List.map_congr_left fun j hj => ?_
    have hlt := List.mem_range.mp hj
    refine BitVec.eq_of_getLsbD_eq fun i hi => ?_
    rw [bitByte_getLsbD _ hi,bitByte_getLsbD _ hi]
    simp only [List.getD_eq_getElem?_getD,List.getElem?_drop]
    rw [List.getElem?_append_left (by omega)]
  · refine List.map_congr_left fun j _ => ?_
    have hj : 8*((a.length+7)/8+j) = a.length+8*j := by omega
    rw [Function.comp_apply,hj,List.drop_append,List.drop_eq_nil_of_le (Nat.le_add_right _ _),
      List.nil_append,Nat.add_sub_cancel_left]

theorem packBits_one {c : List Bool} (h0 : c ≠ []) (h8 : c.length ≤ 8) :
    packBits c = [bitByte c] := by
  have hpos := List.length_pos_iff.mpr h0
  have hn : (c.length+7)/8 = 1 := by omega
  rw [packBits,hn]
  rfl

theorem packBits_snoc (l : List Bool) (b : Bool) : ∃ p x,
    packBits (l ++ [b]) = p ++ [if b then x ||| 1#8 <<< (l.length%8) else x] ∧
    (l.length%8 = 0 ∧ packBits l = p ∧ x = 0#8 ∨ l.length%8 ≠ 0 ∧ packBits l = p ++ [x]) := by
  by_cases h : l.length%8 = 0
  · refine ⟨packBits l,0#8,?_,Or.inl ⟨h,rfl,rfl⟩⟩
    rw [packBits_append h,packBits_one (List.cons_ne_nil b []) (by simp),h]
    cases b <;> rfl
  · obtain ⟨a,c,rfl,ha,hc⟩ : ∃ a c, l = a ++ c ∧ a.length%8 = 0 ∧ c.length = l.length%8 := by
      refine ⟨l.take (8*(l.length/8)),l.drop (8*(l.length/8)),(List.take_append_drop _ _).symm,
        ?_,?_⟩
      · rw [List.length_take]
        omega
      · rw [List.length_drop]
        omega
    have hc0 : c ≠ [] := by
      rintro rfl
      exact h hc.symm
    have hcb : (c ++ [b]).length ≤ 8 := by
      rw [List.length_append,List.length_singleton]
      omega
    refine ⟨packBits a,bitByte c,?_,Or.inr ⟨h,?_⟩⟩
    · rw [List.append_assoc,packBits_append ha,
        packBits_one (List.append_ne_nil_of_left_ne_nil hc0 _) hcb,bitByte_snoc (by omega),hc]
    · rw [packBits_append ha,packBits_one hc0 (by omega)]

end ApxBus
