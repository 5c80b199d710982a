import ApxBus.Backport.DownlinkFrame
import Mathlib.Data.List.GetD
import Mathlib.Tactic.IntervalCases
set_option autoImplicit false

/-! A frame of the downlink stream is read back: `unpack_stream` on what was sent. -/

namespace ApxBus.Backport
open MaskGroups

/-- Two memories that are the same on `n` bytes. -/
def Agree (n : Nat) (mem mem' : List Byte) : Prop := ∀ i, i < n → mem.getD i 0#8 = mem'.getD i 0#8

theorem Agree.drop {n : Nat} {mem mem' : List Byte} (h : Agree n mem mem') (k : Nat) :
    Agree (n-k) (mem.drop k) (mem'.drop k) := by
  intro i hi
  have hk := h (k+i) (by omega)
  simpa [List.getD_eq_getElem?_getD,List.getElem?_drop] using hk

theorem Agree.mono {n k : Nat} {mem mem' : List Byte} (h : Agree n mem mem') (hk : k ≤ n) :
    Agree k mem mem' := fun i hi => h i (by omega)

theorem FloatFmt.unpack_agree (fmt : FloatFmt) {mem mem' : List Byte}
    (h : Agree fmt.size mem mem') : fmt.unpack mem = fmt.unpack mem' := by
  cases fmt <;> simp_all [Agree,FloatFmt.unpack,FloatFmt.size]

theorem UintFmt.unpack_agree (fmt : UintFmt) {mem mem' : List Byte}
    (h : Agree fmt.size mem mem') : fmt.unpack mem = fmt.unpack mem' := by
  cases fmt <;> simp_all [Agree,UintFmt.unpack,UintFmt.size]

theorem MVar.unpack_agree (hd : Bool) (m : MVar) {mem mem' : List Byte}
    (h : Agree (m.size hd) mem mem') : m.unpack hd mem = m.unpack hd mem' := by
  cases m with
  | float a t =>
    simp only [unpack]
    rw [FloatFmt.unpack_agree _ h]
  | vect a t =>
    simp only [size] at h
    simp only [unpack]
    rw [FloatFmt.unpack_agree _ (h.mono (by omega)),
      FloatFmt.unpack_agree _ ((h.drop (pick hd a t).size).mono (by omega)),
      FloatFmt.unpack_agree _ ((h.drop (2*(pick hd a t).size)).mono (by omega))]
  | point a t =>
    simp only [size] at h
    simp only [unpack]
    rw [FloatFmt.unpack_agree _ (h.mono (by omega)),
      FloatFmt.unpack_agree _ ((h.drop (pick hd a t).size).mono (by omega))]
  | uint a t =>
    simp only [unpack]
    rw [UintFmt.unpack_agree _ h]
  | byte | flag | enum =>
    simp only [unpack]
    rw [h 0 Nat.one_pos]

theorem MVar.unpack_append (hd : Bool) (m : MVar) {b : List Byte} (h : m.size hd ≤ b.length)
    (rest : List Byte) : m.unpack hd (b ++ rest) = m.unpack hd b :=
  m.unpack_agree hd fun _ hi => List.getD_append _ _ _ _ (Nat.lt_of_lt_of_le hi h)

/-- What a row of items makes of the variables from `idx` on. -/
def store (hd : Bool) : Nat → List (Option (List Byte)) → List Cell → List Cell
  | _, [], cells => cells
  | idx, none :: us, cells => store hd (idx+1) us cells
  | idx, some b :: us, cells =>
    store hd (idx+1) us (match vars[idx]? with
      | some m => cells.set idx (m.unpack hd b)
      | none => cells)

def Fits (hd : Bool) (idx : Nat) (us : List (Option (List Byte))) : Prop :=
  ∀ k b, us[k]? = some (some b) → ∃ m, vars[idx+k]? = some m ∧ b.length = m.size hd

theorem Fits.tail {hd : Bool} {idx : Nat} {u : Option (List Byte)}
    {us : List (Option (List Byte))} (h : Fits hd idx (u :: us)) : Fits hd (idx+1) us := by
  intro k b hk
  rw [Nat.add_right_comm,Nat.add_assoc]
  exact h (k+1) b (by simpa using hk)

/-- The bits of a mask bring in the items of its group. -/
theorem unpackMask_group (hd : Bool) (byte : Byte) (n k : Nat) (hk : k+n = 8)
    (g : List (Option (List Byte))) (hg : g.length ≤ n)
    (hbits : ∀ j, j < n → byte.getLsbD (k+j) = (g[j]?.getD none).isSome) (rest : List Byte)
    (t idx : Nat) (cells : List Cell) (hfit : Fits hd idx g) :
    unpackMask hd byte n (bitMask k)
        ⟨dataOf g ++ rest,((dataOf g).length+t : Nat),idx,cells⟩ =
      (true,⟨rest,t,idx+n,store hd idx g cells⟩) := by
  induction n generalizing k g idx cells with
  | zero =>
    obtain rfl : g = [] := List.length_eq_zero_iff.mp (by omega)
    simp [unpackMask,store]
  | succ n ih =>
    have hb := hbits 0 (by omega)
    rw [Nat.add_zero] at hb
    unfold unpackMask
    rw [bitMask_shift]
    cases g with
    | nil =>
      rw [if_neg (by rw [and_bitMask (by omega),hb]; simp)]
      have h := ih (k+1) (by omega) [] (by simp) (fun j hj => by
        rw [Nat.add_right_comm,Nat.add_assoc,hbits (j+1) (by omega)]
        simp) (idx+1) cells (fun k b h => by simp at h)
      rw [h,Nat.add_right_comm,Nat.add_assoc]
      rfl
    | cons u g =>
      have hg' : ∀ j, j < n → byte.getLsbD (k+1+j) = (g[j]?.getD none).isSome := fun j hj => by
        rw [Nat.add_right_comm,Nat.add_assoc,hbits (j+1) (by omega)]
        simp
      have hl : g.length ≤ n := by simpa using hg
      cases u with
      | none =>
        rw [if_neg (by rw [and_bitMask (by omega),hb]; simp)]
        have h := ih (k+1) (by omega) g hl hg' (idx+1) cells hfit.tail
        rw [Nat.add_right_comm,Nat.add_assoc] at h
        exact h
      | some b =>
        obtain ⟨m,hm,hsize⟩ := hfit 0 b rfl
        rw [Nat.add_zero] at hm
        have hpos := m.size_pos hd
        rw [if_pos (by rw [and_bitMask (by omega),hb]; simp)]
        have ht : ¬ (((dataOf (some b :: g)).length+t : Nat) : Int) ≤ 0 := by
          simp only [dataOf_cons,Option.getD_some,List.length_append]
          omega
        dsimp only
        rw [if_neg ht,hm]
        dsimp only
        have h := ih (k+1) (by omega) g hl hg' (idx+1) (cells.set idx (m.unpack hd b)) hfit.tail
        rw [Nat.add_right_comm,Nat.add_assoc] at h
        rw [store,hm]
        rw [← h]
        congr 1
        simp only [dataOf_cons,Option.getD_some,List.length_append,Unpacking.mk.injEq,
          List.append_assoc,true_and]
        rw [List.drop_left' hsize,m.unpack_append hd hsize.ge]
        refine ⟨rfl,?_,rfl⟩
        omega

theorem getLsbD_maskOf_group {g : List (Option (List Byte))} (j : Nat) (hj : j < 8) :
    (maskOf g).getLsbD (0+j) = (g[j]?.getD none).isSome := by
  rw [Nat.zero_add]
  exact getLsbD_maskOf g hj

theorem store_append (hd : Bool) (idx : Nat) (us vs : List (Option (List Byte)))
    (cells : List Cell) :
    store hd idx (us ++ vs) cells = store hd (idx+us.length) vs (store hd idx us cells) := by
  induction us generalizing idx cells with
  | nil => rfl
  | cons u us ih =>
    rw [List.cons_append,List.length_cons,Nat.add_comm us.length,← Nat.add_assoc]
    cases u with
    | none => exact ih (idx+1) cells
    | some b => exact ih (idx+1) _

theorem Fits.left {hd : Bool} {idx : Nat} {us vs : List (Option (List Byte))}
    (h : Fits hd idx (us ++ vs)) : Fits hd idx us := by
  intro k b hk
  exact h k b (List.getElem?_append_left (List.getElem?_eq_some_iff.mp hk).1 ▸ hk)

theorem Fits.right {hd : Bool} {idx : Nat} {us vs : List (Option (List Byte))}
    (h : Fits hd idx (us ++ vs)) : Fits hd (idx+us.length) vs := by
  intro k b hk
  rw [Nat.add_assoc]
  refine h (us.length+k) b ?_
  rw [List.getElem?_append_right (Nat.le_add_right _ _),Nat.add_sub_cancel_left]
  exact hk

theorem group_length (us : List (Option (List Byte))) :
    (group us).length = (dataOf us).length+1 := rfl

/-- Groups of eight, and a last one that ends with an item. -/
theorem unpackLoop_groups (hd : Bool) (gs : List (List (Option (List Byte))))
    (cur : List (Option (List Byte))) (b after : List Byte) (hg : ∀ g ∈ gs, g.length = 8)
    (hc : cur.length < 8) (hb : 0 < b.length) (fuel idx : Nat) (cells : List Cell)
    (hfit : Fits hd idx (gs.flatten ++ (cur ++ [some b]))) (hf : gs.length < fuel) :
    ∃ mem i, unpackLoop hd fuel ⟨gs.flatMap group ++ group (cur ++ [some b]) ++ after,
      ((gs.flatMap group ++ group (cur ++ [some b])).length : Int)-1,idx,cells⟩ =
      (true,⟨mem,-1,i,store hd idx (gs.flatten ++ (cur ++ [some b])) cells⟩) := by
  induction gs generalizing fuel idx cells with
  | nil =>
    obtain ⟨fuel,rfl⟩ : ∃ n, fuel = n+1 := ⟨fuel-1,by simp at hf; omega⟩
    have h := unpackMask_group hd (maskOf (cur ++ [some b])) 8 0 rfl (cur ++ [some b])
      (by simp; omega) getLsbD_maskOf_group after 0 idx cells hfit
    refine ⟨after,idx+8,?_⟩
    unfold unpackLoop
    simp only [List.flatMap_nil,List.nil_append,List.flatten_nil,group_length]
    simp only [group,List.cons_append,List.getD_cons_zero,List.drop_succ_cons,List.drop_zero]
    have ht : (((dataOf (cur ++ [some b])).length+1 : Nat) : Int)-1 =
        ((dataOf (cur ++ [some b])).length+0 : Nat) := by omega
    have hm : (1#8 : Byte) = bitMask 0 := rfl
    rw [ht,hm,h]
    simp
  | cons g gs ih =>
    obtain ⟨fuel,rfl⟩ : ∃ n, fuel = n+1 := ⟨fuel-1,by simp at hf; omega⟩
    have hg8 := hg g (by simp)
    rw [List.flatten_cons,List.append_assoc] at hfit
    let L := gs.flatMap group ++ group (cur ++ [some b])
    have hL : 2 ≤ L.length := by
      simp only [L,List.length_append,group_length,dataOf_append,dataOf_cons,Option.getD_some]
      omega
    have h := unpackMask_group hd (maskOf g) 8 0 rfl g hg8.le getLsbD_maskOf_group (L ++ after)
      L.length idx cells hfit.left
    have hr := hfit.right
    rw [hg8] at hr
    obtain ⟨mem,i,hi⟩ := ih (fun g' hg' => hg g' (by simp [hg'])) fuel (idx+8)
      (store hd idx g cells) hr (by simpa using hf)
    refine ⟨mem,i,?_⟩
    have hbuf : (g :: gs).flatMap group ++ group (cur ++ [some b]) =
        maskOf g :: (dataOf g ++ L) := by
      simp [L,group]
    have ht : ((maskOf g :: (dataOf g ++ L)).length : Int)-1 =
        ((dataOf g).length+L.length : Nat) := by
      simp
    have hm : (1#8 : Byte) = bitMask 0 := rfl
    rw [hbuf,ht]
    unfold unpackLoop
    simp only [List.cons_append,List.getD_cons_zero,List.drop_succ_cons,List.drop_zero,
      List.append_assoc]
    rw [hm,h]
    have hpos : (L.length : Int)-1 > 0 := by omega
    simp only [Bool.not_true,Bool.false_eq_true,if_false,if_pos hpos]
    rw [hi,List.flatten_cons,List.append_assoc,store_append hd idx g,hg8]

theorem store_none (hd : Bool) (idx n : Nat) (cells : List Cell) :
    store hd idx (List.replicate n none) cells = cells := by
  induction n generalizing idx with
  | zero => rfl
  | succ n ih => exact ih (idx+1)

theorem length_le_flatMap_group (gs : List (List (Option (List Byte)))) :
    gs.length ≤ (gs.flatMap group).length := by
  induction gs with
  | nil => exact Nat.le_refl 0
  | cons g gs ih =>
    rw [List.flatMap_cons,List.length_append,group_length,List.length_cons]
    omega

theorem unpackStream_sent {us : List (Option (List Byte))} {sent : List Byte} (hs : Sent us sent)
    {hd : Bool} (hfit : Fits hd 0 us) (m : Mandala) (after : List Byte) (hne : sent ≠ []) :
    m.unpackStream (sent ++ after) sent.length hd =
      (sent.length,{m with cells := store hd 0 us m.cells}) := by
  cases hs with
  | nothing n => exact absurd rfl hne
  | @upto gs cur b n hg hc =>
    have hb : 0 < b.length := by
      obtain ⟨v,-,hv⟩ := hfit.left (gs.flatten ++ cur).length b (by simp)
      rw [hv]
      exact v.size_pos hd
    obtain ⟨mem,i,hu⟩ := unpackLoop_groups hd gs cur b after hg hc hb
      (gs.flatMap group ++ group (cur ++ [some b])).length 0 m.cells hfit.left (by
        have hl := length_le_flatMap_group gs
        rw [List.length_append,group_length]
        omega)
    have hst := store_append hd 0 (gs.flatten ++ (cur ++ [some b])) (List.replicate n none) m.cells
    rw [store_none] at hst
    rw [Mandala.unpackStream,hu,hst]
    rfl

theorem Sent.store_nil {us : List (Option (List Byte))} (h : Sent us []) (hd : Bool) (idx : Nat)
    (cells : List Cell) : store hd idx us cells = cells := by
  generalize hs : ([] : List Byte) = sent at h
  cases h with
  | nothing n => exact store_none hd idx n cells
  | upto b n hg hc => simp [group] at hs

section Stores
variable {P : List Cell → Prop}
  (hP : ∀ cells i v, i < vars.length → P cells → P (cells.set i v))
include hP

theorem unpackMask_stores (hd : Bool) (byte : Byte) (n : Nat) (mask : Byte) {u : Unpacking}
    (h : P u.cells) : P (unpackMask hd byte n mask u).2.cells := by
  induction n generalizing mask u with
  | zero => exact h
  | succ n ih =>
    unfold unpackMask
    split_ifs
    · exact h
    · cases hv : vars[u.idx]? with
      | none => exact h
      | some m => exact ih _ (hP _ _ _ (List.getElem?_eq_some_iff.mp hv).1 h)
    · exact ih _ h

theorem unpackLoop_stores (hd : Bool) (fuel : Nat) {u : Unpacking} (h : P u.cells) :
    P (unpackLoop hd fuel u).2.cells := by
  induction fuel generalizing u with
  | zero => exact h
  | succ fuel ih =>
    have hmask := @unpackMask_stores _ hP hd (u.mem.getD 0 0#8) 8 1#8 {u with mem := u.mem.drop 1} h
    unfold unpackLoop
    dsimp only
    split_ifs
    · exact hmask
    · exact ih hmask
    · exact hmask

/-- Whatever the frame, only variables are stored to. -/
theorem Mandala.unpackDownstream_stores {m : Mandala} (h : P m.cells) (mem : List Byte)
    (cnt : Nat) : P (m.unpackDownstream mem cnt).2.cells := by
  have hvars : vars.length = 201 := rfl
  have hlt : idxDlTimestamp < vars.length := by
    rw [hvars]
    decide
  unfold unpackDownstream
  dsimp only
  by_cases hc : cnt > 2
  · rw [if_pos hc]
    exact unpackLoop_stores hP _ _ (hP _ _ _ hlt h)
  · rw [if_neg hc]
    exact hP _ _ _ hlt h

omit hP in
theorem Mandala.unpackDownstream_length (m : Mandala) (mem : List Byte) (cnt : Nat) :
    (m.unpackDownstream mem cnt).2.cells.length = m.cells.length :=
  @unpackDownstream_stores (fun cells => cells.length = m.cells.length)
    (fun _ _ _ _ h => List.length_set.trans h) m rfl mem cnt

omit hP in
theorem Mandala.unpackDownstream_drop (m : Mandala) (mem : List Byte) (cnt : Nat) :
    (m.unpackDownstream mem cnt).2.cells.drop vars.length = m.cells.drop vars.length := by
  refine @unpackDownstream_stores (fun cells => cells.drop vars.length = m.cells.drop vars.length)
    (fun cells i v hi h => ?_) m rfl mem cnt
  rw [List.drop_set,if_pos hi]
  exact h

end Stores

theorem mask15 (i : Nat) (hi : i < 16) : (0x7FFF#32).getLsbD i = decide (i < 15) ∧
    (0x7FFF#16).getLsbD i = decide (i < 15) ∧ (0x8000#16).getLsbD i = decide (i = 15) := by
  interval_cases i <;> decide

theorem header_bit (ts : BitVec 32) (hd : Bool) (i : Nat) (hi : i < 16) :
    (le16 ((ts &&& 0x7FFF#32).setWidth 8) (((ts &&& 0x7FFF#32) >>> 8).setWidth 8 |||
      (if hd then 0x80#8 else 0#8))).getLsbD i = if i = 15 then hd else ts.getLsbD i := by
  have hmark : ∀ j, j < 8 →
      (if hd then 0x80#8 else 0#8).getLsbD j = (decide (j = 7) && hd) := by
    intro j hj
    cases hd
    · simp
    · interval_cases j <;> decide
  have hc := (mask15 i hi).1
  rw [le16,BitVec.getLsbD_append]
  by_cases h8 : i < 8
  · rw [if_pos h8,BitVec.getLsbD_setWidth,BitVec.getLsbD_and,hc]
    simp [h8,show i ≠ 15 by omega,show i < 15 by omega]
  · rw [if_neg h8,BitVec.getLsbD_or,hmark (i-8) (by omega),BitVec.getLsbD_setWidth,
      BitVec.getLsbD_ushiftRight,BitVec.getLsbD_and,show 8+(i-8) = i by omega,hc]
    by_cases h15 : i = 15
    · subst h15
      simp
    · simp [h15,show ¬ i-8 = 7 by omega,show i < 15 by omega,show i-8 < 8 by omega]

theorem header_mark (ts : BitVec 32) (hd : Bool) :
    (le16 ((ts &&& 0x7FFF#32).setWidth 8) (((ts &&& 0x7FFF#32) >>> 8).setWidth 8 |||
      (if hd then 0x80#8 else 0#8)) &&& 0x8000#16 ≠ 0#16 ↔ hd = true) ∧
    le16 ((ts &&& 0x7FFF#32).setWidth 8) (((ts &&& 0x7FFF#32) >>> 8).setWidth 8 |||
      (if hd then 0x80#8 else 0#8)) &&& 0x7FFF#16 = (ts &&& 0x7FFF#32).setWidth 16 := by
  constructor
  · constructor
    · intro h
      by_contra hn
      refine h (BitVec.eq_of_getLsbD_eq fun i hi => ?_)
      rw [BitVec.getLsbD_and,header_bit ts hd i hi,(mask15 i hi).2.2]
      by_cases h15 : i = 15 <;> simp_all
    · intro h h0
      have hb := congrArg (BitVec.getLsbD · 15) h0
      rw [BitVec.getLsbD_and,header_bit ts hd 15 (by decide),if_pos rfl,h] at hb
      exact absurd hb (by decide)
  · refine BitVec.eq_of_getLsbD_eq fun i hi => ?_
    rw [BitVec.getLsbD_and,header_bit ts hd i hi,(mask15 i hi).2.1,BitVec.getLsbD_setWidth,
      BitVec.getLsbD_and,(mask15 i hi).1]
    by_cases h15 : i = 15
    · simp [h15]
    · simp [h15,hi]

end ApxBus.Backport
