import ApxBus.CrcBitwise
set_option autoImplicit false

/-! Changes of the data that the CRC32 tells apart. -/

namespace ApxBus
open Function

theorem stmCrcSlow_injective (data : BitVec 32) : Injective (stmCrcSlow · data) := by
  intro x y h
  exact (BitVec.xor_left_inj data).mp (stmCrcBit_injective.iterate 32 h)

theorem stmCrcSlow_injective_data (crc : BitVec 32) : Injective (stmCrcSlow crc) := by
  intro x y h
  exact (BitVec.xor_right_inj crc).mp (stmCrcBit_injective.iterate 32 h)

theorem stmCrcSlow_xor (c c' w w' : BitVec 32) :
    stmCrcSlow c w ^^^ stmCrcSlow c' w' = stmCrcBit^[32] ((c ^^^ c') ^^^ (w ^^^ w')) := by
  rw [stmCrcSlow,stmCrcSlow,← stmCrcBit_linear.iterate 32]
  congr 1
  ac_rfl

theorem words_cons {l : List Byte} (h : l ≠ []) : words l = loadWord l :: words (l.drop 4) := by
  match l with
  | [] => exact absurd rfl h
  | [_] => rfl
  | [_,_] => rfl
  | [_,_,_] => rfl
  | _ :: _ :: _ :: _ :: _ => rfl

theorem words_append {p : List Byte} (h : 4 ∣ p.length) (q : List Byte) :
    words (p ++ q) = words p ++ words q := by
  induction p using words.induct with
  | case1 b0 b1 b2 b3 rest ih =>
    have hr : 4 ∣ rest.length := (Nat.dvd_add_iff_left (Nat.dvd_refl 4)).mpr h
    simp only [List.cons_append,words,ih hr]
  | case2 b0 b1 b2 => exact absurd h (show ¬ 4 ∣ 3 by decide)
  | case3 b0 b1 => exact absurd h (show ¬ 4 ∣ 2 by decide)
  | case4 b0 => exact absurd h (show ¬ 4 ∣ 1 by decide)
  | case5 => rfl

theorem words_length (l : List Byte) : (words l).length = (l.length+3)/4 := by
  induction l using words.induct with
  | case1 b0 b1 b2 b3 rest ih =>
    simp only [words,List.length_cons,ih]
    omega
  | case2 b0 b1 b2 => simp [words]
  | case3 b0 b1 => simp [words]
  | case4 b0 => simp [words]
  | case5 => rfl

theorem le32_xor (a b c d a' b' c' d' : Byte) : le32 a b c d ^^^ le32 a' b' c' d' =
    le32 (a ^^^ a') (b ^^^ b') (c ^^^ c') (d ^^^ d') := by
  apply BitVec.eq_of_getLsbD_eq
  intro i hi
  simp only [BitVec.getLsbD_xor,le32_getLsbD]
  split_ifs <;> rfl

theorem le32_injective {a b c d a' b' c' d' : Byte} (h : le32 a b c d = le32 a' b' c' d') :
    a = a' ∧ b = b' ∧ c = c' ∧ d = d' := by
  have hb := congrArg bytes32 h
  simpa [bytes32_le32] using hb

def stmCrcUnbit : BitVec 32 → BitVec 32 := rightShift 0x82608EDB#32

theorem stmCrcUnbit_bit : LeftInverse stmCrcUnbit stmCrcBit := by
  refine ((rightShift_linear _).comp stmCrcBit_linear).ext XorLinear.id ?_
  decide

theorem unbit_first_byte : ∀ b : Byte,
    (stmCrcUnbit^[32] (le32 b 0#8 0#8 0#8)).setWidth 16 = 0#16 → b = 0#8 := by
  decide +kernel

theorem bit_last_byte : ∀ b : Byte,
    (stmCrcBit^[32] (le32 0#8 0#8 0#8 b)).extractLsb' 16 16 = 0#16 → b = 0#8 := by
  decide +kernel

theorem foldl_two_ne {c v w v' w' : BitVec 32} (l : List (BitVec 32))
    (h : stmCrcBit^[32] (v ^^^ v') ≠ w ^^^ w') :
    (v :: w :: l).foldl stmCrcSlow c ≠ (v' :: w' :: l).foldl stmCrcSlow c := by
  intro he
  have hs := foldl_injective stmCrcSlow_injective l he
  rw [← BitVec.xor_eq_zero_iff,stmCrcSlow_xor,stmCrcSlow_xor,BitVec.xor_self,BitVec.zero_xor]
    at hs
  have h0 := stmCrcBit_injective.iterate 32 (hs.trans (stmCrcBit_linear.iterate 32).zero.symm)
  exact h (BitVec.xor_eq_zero_iff.mp h0)

section ThreeBytes

variable {e0 e1 e2 f0 f1 f2 : Byte}

theorem upper_half_ne (h : ¬ (e0 = f0 ∧ e1 = f1 ∧ e2 = f2)) (x y a b c : Byte) :
    stmCrcBit^[32] (le32 x y e0 e1 ^^^ le32 x y f0 f1) ≠ le32 e2 a b c ^^^ le32 f2 a b c := by
  simp only [le32_xor,BitVec.xor_self]
  intro he
  have hback := stmCrcUnbit_bit.iterate 32 (le32 0#8 0#8 (e0 ^^^ f0) (e1 ^^^ f1))
  have hlow : (le32 0#8 0#8 (e0 ^^^ f0) (e1 ^^^ f1)).setWidth 16 = 0#16 := by
    refine BitVec.eq_of_getLsbD_eq fun i hi => ?_
    simp only [BitVec.getLsbD_setWidth,le32_getLsbD,hi]
    split_ifs <;> simp
  have h2 : e2 ^^^ f2 = 0#8 := unbit_first_byte _ (by rw [← he,hback,hlow])
  rw [h2] at he
  have h01 := stmCrcBit_injective.iterate 32
    (he.trans (stmCrcBit_linear.iterate 32).zero.symm)
  obtain ⟨-,-,h0,h1⟩ := le32_injective (h01.trans (show 0#32 = le32 0#8 0#8 0#8 0#8 from rfl))
  exact h ⟨BitVec.xor_eq_zero_iff.mp h0,BitVec.xor_eq_zero_iff.mp h1,BitVec.xor_eq_zero_iff.mp h2⟩

theorem last_byte_ne (h : ¬ (e0 = f0 ∧ e1 = f1 ∧ e2 = f2)) (x y z a b : Byte) :
    stmCrcBit^[32] (le32 x y z e0 ^^^ le32 x y z f0) ≠ le32 e1 e2 a b ^^^ le32 f1 f2 a b := by
  simp only [le32_xor,BitVec.xor_self]
  intro he
  have hhigh : (le32 (e1 ^^^ f1) (e2 ^^^ f2) 0#8 0#8).extractLsb' 16 16 = 0#16 := by
    refine BitVec.eq_of_getLsbD_eq fun i hi => ?_
    simp only [BitVec.getLsbD_extractLsb',le32_getLsbD,hi]
    split_ifs <;> first | omega | simp
  have h0 : e0 ^^^ f0 = 0#8 := bit_last_byte _ (he ▸ hhigh)
  rw [h0] at he
  have hzero : le32 (e1 ^^^ f1) (e2 ^^^ f2) 0#8 0#8 = le32 0#8 0#8 0#8 0#8 :=
    he.symm.trans (stmCrcBit_linear.iterate 32).zero
  obtain ⟨h1,h2,-,-⟩ := le32_injective hzero
  exact h ⟨BitVec.xor_eq_zero_iff.mp h0,BitVec.xor_eq_zero_iff.mp h1,BitVec.xor_eq_zero_iff.mp h2⟩

theorem crc32_three_ne (h : ¬ (e0 = f0 ∧ e1 = f1 ∧ e2 = f2)) (p s : List Byte)
    (crc : BitVec 32) :
    crc32 (p ++ e0 :: e1 :: e2 :: s) (p ++ e0 :: e1 :: e2 :: s).length crc ≠
      crc32 (p ++ f0 :: f1 :: f2 :: s) (p ++ f0 :: f1 :: f2 :: s).length crc := by
  obtain ⟨p0,p1,rfl,h0,h1⟩ : ∃ p0 p1, p = p0 ++ p1 ∧ 4 ∣ p0.length ∧ p1.length < 4 := by
    refine ⟨p.take (4*(p.length/4)),p.drop (4*(p.length/4)),(List.take_append_drop _ p).symm,?_,?_⟩
    · rw [List.length_take_of_le (Nat.mul_div_le _ _)]
      exact Nat.dvd_mul_right 4 _
    · rw [List.length_drop]
      omega
  simp only [crc32,crc32Sw_words,List.append_assoc,words_append h0,List.foldl_append]
  have hone : ∀ {v w : BitVec 32} (l : List (BitVec 32)) (c : BitVec 32), v ≠ w →
      (v :: l).foldl stmCrcSlow c ≠ (w :: l).foldl stmCrcSlow c :=
    fun l c hvw => foldl_ne stmCrcSlow_injective stmCrcSlow_injective_data hvw c [] l
  match p1,h1 with
  | [],_ =>
    simp only [List.nil_append]
    rw [words_cons (List.cons_ne_nil _ _),words_cons (List.cons_ne_nil _ _)]
    refine hone _ _ fun he => ?_
    obtain ⟨h0,h1,h2,-⟩ := le32_injective he
    exact h ⟨h0,h1,h2⟩
  | [x],_ =>
    refine hone (words s) _ fun he => ?_
    obtain ⟨-,h0,h1,h2⟩ := le32_injective he
    exact h ⟨h0,h1,h2⟩
  | [x,y],_ =>
    simp only [List.cons_append,List.nil_append,words]
    rw [words_cons (List.cons_ne_nil _ _),words_cons (List.cons_ne_nil _ _)]
    exact foldl_two_ne _ (upper_half_ne h x y _ _ _)
  | [x,y,z],_ =>
    simp only [List.cons_append,List.nil_append,words]
    rw [words_cons (List.cons_ne_nil _ _),words_cons (List.cons_ne_nil _ _)]
    exact foldl_two_ne _ (last_byte_ne h x y z _ _)

end ThreeBytes

section OneBit

def flipBit (l : List Byte) (i : Nat) : List Byte :=
  l.modify (i/8) (· ^^^ BitVec.twoPow 8 (i%8))

@[simp] theorem flipBit_length (l : List Byte) (i : Nat) : (flipBit l i).length = l.length :=
  List.length_modify ..

theorem flipBit_getD {l : List Byte} {i : Nat} (hi : i < 8*l.length) (k : Nat) :
    (flipBit l i).getD k 0 =
      l.getD k 0 ^^^ if i/8 = k then BitVec.twoPow 8 (i%8) else 0#8 := by
  rw [flipBit,List.getD_eq_getElem?_getD,List.getD_eq_getElem?_getD]
  split_ifs with hk
  · have hlt : k < l.length := by omega
    rw [hk,List.getElem?_modify_eq,List.getElem?_eq_getElem hlt]
    rfl
  · rw [List.getElem?_modify_ne _ _ hk,BitVec.xor_zero]

theorem flipBit_append {p q : List Byte} {i : Nat} (hi : i < 8*p.length) :
    flipBit (p ++ q) i = flipBit p i ++ q := by
  have hlt : i/8 < p.length := by omega
  rw [flipBit,flipBit,List.modify_eq_take_cons_drop (by rw [List.length_append]; omega),
    List.modify_eq_take_cons_drop hlt,List.take_append_of_le_length (by omega),
    List.drop_append_of_le_length (by omega),List.getElem_append_left hlt,List.append_assoc,
    List.cons_append]

theorem flipBit_append_of_le {p q : List Byte} {i : Nat} (hi : 8*p.length ≤ i) :
    flipBit (p ++ q) i = p ++ flipBit q (i-8*p.length) := by
  refine List.ext_getElem? fun k => ?_
  rw [flipBit,flipBit,List.getElem?_modify,show i%8 = (i-8*p.length)%8 by omega]
  by_cases hk : k < p.length
  · rw [List.getElem?_append_left hk,List.getElem?_append_left hk]
    simp [show i/8 ≠ k by omega]
  · rw [List.getElem?_append_right (by omega),List.getElem?_append_right (by omega),
      List.getElem?_modify]
    simp only [show i/8 = k ↔ (i-8*p.length)/8 = k-p.length by omega]

theorem flipBit_ne {l : List Byte} {i : Nat} (hi : i < 8*l.length) : flipBit l i ≠ l := by
  intro h
  have hk := flipBit_getD hi (i/8)
  rw [h,if_pos rfl] at hk
  have hz : BitVec.twoPow 8 (i%8) = 0#8 :=
    (BitVec.xor_right_inj (l.getD (i/8) 0)).mp (by rw [← hk,BitVec.xor_zero])
  have hbit := congrArg (·.getLsbD (i%8)) hz
  simp [Nat.mod_lt i (show 0 < 8 by decide)] at hbit

theorem le32_twoPow : ∀ k < 4, ∀ j < 8, le32
    (if k = 0 then BitVec.twoPow 8 j else 0#8) (if k = 1 then BitVec.twoPow 8 j else 0#8)
    (if k = 2 then BitVec.twoPow 8 j else 0#8) (if k = 3 then BitVec.twoPow 8 j else 0#8) =
      BitVec.twoPow 32 (8*k+j) := by decide

theorem loadWord_flipBit {l : List Byte} {i : Nat} (hi : i < 8*l.length) (h32 : i < 32) :
    loadWord (flipBit l i) = loadWord l ^^^ BitVec.twoPow 32 i := by
  rw [← Nat.div_add_mod i 8,← le32_twoPow (i/8) (by omega) (i%8) (by omega),Nat.div_add_mod,
    loadWord,loadWord,le32_xor]
  simp only [flipBit_getD hi]

theorem loadWord_flipBit_of_le {l : List Byte} {i : Nat} (hi : i < 8*l.length) (h32 : 32 ≤ i) :
    loadWord (flipBit l i) = loadWord l := by
  simp only [loadWord,flipBit_getD hi]
  rw [if_neg (by omega),if_neg (by omega),if_neg (by omega),if_neg (by omega)]
  simp only [BitVec.xor_zero]

theorem drop_flipBit {l : List Byte} {i : Nat} (h32 : i < 32) :
    (flipBit l i).drop 4 = l.drop 4 := List.drop_modify_of_lt _ _ _ _ (by omega)

theorem drop_flipBit_of_le {l : List Byte} {i : Nat} (h32 : 32 ≤ i) :
    (flipBit l i).drop 4 = flipBit (l.drop 4) (i-32) := by
  rw [flipBit,List.drop_modify_of_ge _ _ _ _ (by omega),flipBit,show i/8-4 = (i-32)/8 by omega,
    show i%8 = (i-32)%8 by omega]

theorem bit_iterate : ∀ i < 32, stmCrcBit^[i] 1#32 = BitVec.twoPow 32 i := by decide

theorem foldl_flipBit {l : List Byte} {i : Nat} (hi : i < 8*l.length) (c : BitVec 32) :
    (words (flipBit l i)).foldl stmCrcSlow c ^^^ (words l).foldl stmCrcSlow c =
      stmCrcBit^[32*((words l).length-i/32)+i%32] 1#32 := by
  have hl : l ≠ [] := List.ne_nil_of_length_pos (by omega)
  have hf : flipBit l i ≠ [] := List.ne_nil_of_length_pos (by rw [flipBit_length]; omega)
  rw [words_cons hf,words_cons hl,List.foldl_cons,List.foldl_cons,List.length_cons]
  by_cases h32 : i < 32
  · rw [loadWord_flipBit hi h32,drop_flipBit h32]
    have hd := foldl_xor (stmCrcBit_linear.iterate 32) (words (l.drop 4))
      (stmCrcSlow c (loadWord l ^^^ BitVec.twoPow 32 i)) (stmCrcSlow c (loadWord l))
    refine hd.trans ?_
    rw [stmCrcSlow_xor,BitVec.xor_self,BitVec.zero_xor,BitVec.xor_comm (loadWord l),
      xor_xor_cancel,← bit_iterate i h32,← Function.iterate_mul,← Function.iterate_add_apply,
      ← Function.iterate_add_apply]
    congr 1
    omega
  · have h32 : 32 ≤ i := by omega
    have hd : i-32 < 8*(l.drop 4).length := by rw [List.length_drop]; omega
    rw [loadWord_flipBit_of_le hi h32,drop_flipBit_of_le h32,foldl_flipBit hd]
    congr 1
    omega
termination_by i

theorem lowHalf_along : holdsAlong (fun x => x.setWidth 16 != 0#16) stmCrcBit 4096
    (stmCrcBit^[32] 1#32) = true := by decide +kernel

theorem lowHalf_ne {k : Nat} (h32 : 32 ≤ k) (hk : k < 4128) :
    (stmCrcBit^[k] 1#32).setWidth 16 ≠ 0#16 := by
  have hp := holdsAlong_iterate lowHalf_along (show k-32 < 4096 by omega)
  rw [← Function.iterate_add_apply,Nat.sub_add_cancel h32] at hp
  exact bne_iff_ne.mp hp

theorem crc32_flipBit {l : List Byte} {i : Nat} (h512 : l.length ≤ 512) (hi : i < 8*l.length)
    (crc : BitVec 32) :
    (crc32 (flipBit l i) l.length crc).setWidth 16 ≠ (crc32 l l.length crc).setWidth 16 := by
  intro he
  have hlen := words_length l
  refine lowHalf_ne (k := 32*((words l).length-i/32)+i%32) (by omega) (by omega) ?_
  rw [← foldl_flipBit hi crc,← crc32Sw_words,← crc32Sw_words,flipBit_length,
    BitVec.setWidth_xor,BitVec.xor_eq_zero_iff]
  exact he

end OneBit

end ApxBus
