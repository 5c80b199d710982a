import ApxBus.ShiftRegister
import Mathlib.Data.List.GetD
set_option autoImplicit false

/-! Registers that take a message in bit by bit, and the changes of the message that they do not
see. -/

namespace ApxBus
open Function

variable {w : Nat}

def takeIn (S : BitVec w → BitVec w) (e x : BitVec w) (b : Bool) : BitVec w :=
  S (x ^^^ if b then e else 0#w)

/-- The bits `u`, at the places from number `i` on. -/
def load (place : Nat → Nat) : Nat → List Bool → BitVec w
  | _, [] => 0#w
  | i, b :: u => (if b then BitVec.twoPow w (place i) else 0#w) ^^^ load place (i+1) u

/-- A register that loses nothing, and the places through which its bits come to the one where a
bit of the message goes in. -/
structure Lane (S : BitVec w → BitVec w) (place : Nat → Nat) : Prop where
  linear : XorLinear S
  injective : Injective S
  lt : ∀ i < w, place i < w
  apart : ∀ i < w, ∀ j < w, place i = place j → i = j
  onto : ∀ k < w, ∃ i < w, place i = k
  next : ∀ i, i+1 < w → S (BitVec.twoPow w (place (i+1))) = BitVec.twoPow w (place i)
  pos : 0 < w
  far : (S (BitVec.twoPow w (place 0))).getLsbD (place (w-1)) = true

/-- The bits that a change of `w+1` bits has to flip to be lost. -/
def lost (S : BitVec w → BitVec w) (place : Nat → Nat) : Nat → Bool
  | 0 => true
  | j+1 => (S (BitVec.twoPow w (place 0))).getLsbD (place j)

namespace Lane
variable {S : BitVec w → BitVec w} {place : Nat → Nat} (h : Lane S place)
include h

theorem ext {x y : BitVec w} (hxy : ∀ i < w, x.getLsbD (place i) = y.getLsbD (place i)) :
    x = y := by
  refine BitVec.eq_of_getLsbD_eq fun k hk => ?_
  obtain ⟨i,hi,rfl⟩ := h.onto k hk
  exact hxy i hi

theorem shift_load {i : Nat} {u : List Bool} (hi : i+1+u.length ≤ w) :
    S (load place (i+1) u) = load place i u := by
  induction u generalizing i with
  | nil => exact h.linear.zero
  | cons b u ih =>
    rw [List.length_cons] at hi
    rw [load,load,h.linear,ih (by omega)]
    cases b
    · simp only [Bool.false_eq_true,if_false,h.linear.zero]
    · simp only [if_true,h.next i (by omega)]

theorem foldl_load {u : List Bool} (hu : u.length ≤ w) (x : BitVec w) :
    u.foldl (takeIn S (BitVec.twoPow w (place 0))) x = S^[u.length] (x ^^^ load place 0 u) := by
  induction u generalizing x with
  | nil =>
    rw [load,BitVec.xor_zero]
    rfl
  | cons b u ih =>
    rw [List.length_cons] at hu
    rw [List.foldl_cons,ih (by omega),takeIn,← h.shift_load (by omega),← h.linear,
      List.length_cons,iterate_succ_apply,load,BitVec.xor_assoc]

theorem getLsbD_load {i j : Nat} {u : List Bool} (hi : i+u.length ≤ w) (hj : j < w) :
    (load place i u : BitVec w).getLsbD (place j) =
      if i ≤ j then u.getD (j-i) false else false := by
  induction u generalizing i with
  | nil => simp [load]
  | cons b u ih =>
    rw [List.length_cons] at hi
    have hbit : (if b then BitVec.twoPow w (place i) else 0#w).getLsbD (place j) =
        (b && decide (i = j)) := by
      cases b
      · simp
      · have hiff : place i = place j ↔ i = j :=
          ⟨h.apart i (by omega) j hj,congrArg place⟩
        simp [BitVec.getLsbD_twoPow,h.lt i (by omega),hiff]
    rw [load,BitVec.getLsbD_xor,hbit,ih (by omega)]
    rcases Nat.lt_trichotomy i j with hlt | rfl | hlt
    · rw [if_pos (show i+1 ≤ j by omega),if_pos (Nat.le_of_lt hlt),
        decide_eq_false (Nat.ne_of_lt hlt),Bool.and_false,Bool.false_xor,
        show j-i = j-(i+1)+1 by omega,List.getD_cons_succ]
    · rw [if_neg (show ¬ i+1 ≤ i by omega),if_pos (Nat.le_refl i),decide_eq_true rfl,Bool.and_true,
        Bool.xor_false,Nat.sub_self,List.getD_cons_zero]
    · rw [if_neg (show ¬ i+1 ≤ j by omega),if_neg (show ¬ i ≤ j by omega),
        decide_eq_false (Nat.ne_of_gt hlt),Bool.and_false,Bool.false_xor]

theorem load_injective {u v : List Bool} (hl : u.length = v.length) (hw : u.length ≤ w)
    (heq : (load place 0 u : BitVec w) = load place 0 v) : u = v := by
  refine List.ext_getElem hl fun j hju hjv => ?_
  have hj := congrArg (·.getLsbD (place j)) heq
  rw [h.getLsbD_load (by omega) (by omega),h.getLsbD_load (by omega) (by omega),
    if_pos (Nat.zero_le j),if_pos (Nat.zero_le j),Nat.sub_zero,List.getD_eq_getElem _ _ hju,
    List.getD_eq_getElem _ _ hjv] at hj
  exact hj

theorem takeIn_injective (b : Bool) :
    Injective (takeIn S (BitVec.twoPow w (place 0)) · b) :=
  fun _ _ hxy => (BitVec.xor_left_inj _).mp (h.injective hxy)

theorem foldl_ne_of_le {u v : List Bool} (hl : u.length = v.length) (hw : u.length ≤ w)
    (x : BitVec w) : u.foldl (takeIn S (BitVec.twoPow w (place 0))) x =
      v.foldl (takeIn S (BitVec.twoPow w (place 0))) x ↔ u = v := by
  refine ⟨fun heq => ?_,fun heq => by rw [heq]⟩
  rw [h.foldl_load hw,h.foldl_load (hl ▸ hw),← hl] at heq
  exact h.load_injective hl hw ((BitVec.xor_right_inj x).mp (h.injective.iterate _ heq))

/-- Of the changes of `w+1` bits only the one is lost that is the polynomial. -/
theorem foldl_cons_iff {u v : List Bool} (hu : u.length = w) (hv : v.length = w) (b c : Bool)
    (x : BitVec w) : (b :: u).foldl (takeIn S (BitVec.twoPow w (place 0))) x =
      (c :: v).foldl (takeIn S (BitVec.twoPow w (place 0))) x ↔
    b = c ∧ u = v ∨ b ≠ c ∧ ∀ j < w, (u.getD j false ≠ v.getD j false ↔
      (S (BitVec.twoPow w (place 0))).getLsbD (place j) = true) := by
  rw [List.foldl_cons,List.foldl_cons]
  by_cases hbc : b = c
  · subst hbc
    rw [h.foldl_ne_of_le (hu.trans hv.symm) (Nat.le_of_eq hu)]
    simp
  · rw [h.foldl_load (Nat.le_of_eq hu),h.foldl_load (Nat.le_of_eq hv),hu,hv,
      (h.injective.iterate w).eq_iff,xor_eq_xor_iff,takeIn,takeIn,← h.linear]
    have hone : (x ^^^ if b then BitVec.twoPow w (place 0) else 0#w) ^^^
        (x ^^^ if c then BitVec.twoPow w (place 0) else 0#w) = BitVec.twoPow w (place 0) := by
      rw [show ∀ y z : BitVec w, x ^^^ y ^^^ (x ^^^ z) = y ^^^ z ^^^ (x ^^^ x) by intros; ac_rfl,
        BitVec.xor_self,BitVec.xor_zero]
      cases b <;> cases c <;> simp_all
    rw [hone]
    simp only [hbc,false_and,false_or,ne_eq,not_false_eq_true,true_and]
    have hbits : ∀ j < w, (load place 0 u ^^^ load place 0 v : BitVec w).getLsbD (place j) =
        (u.getD j false ^^ v.getD j false) := fun j hj => by
      rw [BitVec.getLsbD_xor,h.getLsbD_load (by omega) hj,h.getLsbD_load (by omega) hj,
        if_pos (Nat.zero_le j),if_pos (Nat.zero_le j),Nat.sub_zero]
    have hxor : ∀ p q r : Bool, (p ≠ q ↔ r = true) ↔ r = (p ^^ q) := by decide
    refine ⟨fun heq j hj => ?_,fun hall => h.ext fun j hj => ?_⟩
    · rw [hxor,heq,hbits j hj]
    · rw [hbits j hj]
      exact (hxor _ _ _).mp (hall j hj)

theorem lost_far : lost S place w = true := by
  obtain ⟨k,rfl⟩ : ∃ k, w = k+1 := ⟨w-1,by have := h.pos; omega⟩
  exact h.far

theorem foldl_between (p u v s : List Bool) (x : BitVec w) :
    (p ++ (u ++ s)).foldl (takeIn S (BitVec.twoPow w (place 0))) x =
      (p ++ (v ++ s)).foldl (takeIn S (BitVec.twoPow w (place 0))) x ↔
    u.foldl (takeIn S (BitVec.twoPow w (place 0)))
        (p.foldl (takeIn S (BitVec.twoPow w (place 0))) x) =
      v.foldl (takeIn S (BitVec.twoPow w (place 0)))
        (p.foldl (takeIn S (BitVec.twoPow w (place 0))) x) := by
  simp only [List.foldl_append]
  exact (foldl_injective h.takeIn_injective s).eq_iff

end Lane

theorem ext_getD {a b : List Bool} (hl : a.length = b.length)
    (hab : ∀ k, a.getD k false = b.getD k false) : a = b := by
  refine List.ext_getElem hl fun k ha hb => ?_
  have hk := hab k
  rwa [List.getD_eq_getElem _ _ ha,List.getD_eq_getElem _ _ hb] at hk

theorem getD_window (a : List Bool) {i n k : Nat} (hk : k < n) :
    ((a.drop i).take n).getD k false = a.getD (i+k) false := by
  rw [List.getD_eq_getElem?_getD,List.getElem?_take_of_lt hk,List.getElem?_drop,
    ← List.getD_eq_getElem?_getD]

theorem window_split {a b : List Bool} (hl : a.length = b.length) {i n : Nat}
    (hout : ∀ k, a.getD k false ≠ b.getD k false → i ≤ k ∧ k < i+n) :
    a = a.take i ++ ((a.drop i).take n ++ a.drop (i+n)) ∧
    b = a.take i ++ ((b.drop i).take n ++ a.drop (i+n)) := by
  have hsame : ∀ k, (k < i ∨ i+n ≤ k) → a.getD k false = b.getD k false := by
    intro k hk
    by_contra hne
    have hin := hout k hne
    omega
  have hwhole : ∀ c : List Bool, c = c.take i ++ ((c.drop i).take n ++ c.drop (i+n)) := by
    intro c
    rw [← List.drop_drop,List.take_append_drop,List.take_append_drop]
  have htake : a.take i = b.take i := by
    refine ext_getD (by rw [List.length_take,List.length_take,hl]) fun k => ?_
    by_cases hk : k < i
    · rw [List.getD_eq_getElem?_getD,List.getD_eq_getElem?_getD,List.getElem?_take_of_lt hk,
        List.getElem?_take_of_lt hk,← List.getD_eq_getElem?_getD,← List.getD_eq_getElem?_getD]
      exact hsame k (Or.inl hk)
    · rw [List.getD_eq_default _ _ (by rw [List.length_take]; omega),
        List.getD_eq_default _ _ (by rw [List.length_take]; omega)]
  have hdrop : a.drop (i+n) = b.drop (i+n) := by
    refine ext_getD (by rw [List.length_drop,List.length_drop,hl]) fun k => ?_
    rw [List.getD_eq_getElem?_getD,List.getD_eq_getElem?_getD,List.getElem?_drop,
      List.getElem?_drop,← List.getD_eq_getElem?_getD,← List.getD_eq_getElem?_getD]
    exact hsame _ (Or.inr (Nat.le_add_right _ k))
  refine ⟨hwhole a,?_⟩
  rw [htake,hdrop]
  exact hwhole b

/-- Two messages that differ at most in `w+1` bits that lie together leave the same in the register
if they are the same, or differ just in the polynomial. -/
theorem Lane.foldl_eq_iff {S : BitVec w → BitVec w} {place : Nat → Nat} (h : Lane S place)
    {a b : List Bool} (hl : a.length = b.length) {i : Nat}
    (hout : ∀ k, a.getD k false ≠ b.getD k false → i ≤ k ∧ k < i+(w+1)) (x : BitVec w) :
    a.foldl (takeIn S (BitVec.twoPow w (place 0))) x =
      b.foldl (takeIn S (BitVec.twoPow w (place 0))) x ↔
    a = b ∨ ∀ j ≤ w, (a.getD (i+j) false ≠ b.getD (i+j) false ↔ lost S place j = true) := by
  obtain ⟨ha,hb⟩ := window_split hl hout
  obtain ⟨u,hu⟩ : ∃ u, u = (a.drop i).take (w+1) := ⟨_,rfl⟩
  obtain ⟨v,hv⟩ : ∃ v, v = (b.drop i).take (w+1) := ⟨_,rfl⟩
  have hulen : u.length = min (w+1) (a.length-i) := by rw [hu,List.length_take,List.length_drop]
  have hvlen : v.length = u.length := by rw [hulen,hv,List.length_take,List.length_drop,hl]
  have hugetD : ∀ k < w+1, u.getD k false = a.getD (i+k) false :=
    fun k hk => by rw [hu,getD_window a hk]
  have hvgetD : ∀ k < w+1, v.getD k false = b.getD (i+k) false :=
    fun k hk => by rw [hv,getD_window b hk]
  have hab : a = b ↔ u = v := by
    rw [← hu] at ha
    rw [← hv] at hb
    rw [ha,hb,List.append_cancel_left_eq,List.append_cancel_right_eq]
  have hfold : a.foldl (takeIn S (BitVec.twoPow w (place 0))) x =
      b.foldl (takeIn S (BitVec.twoPow w (place 0))) x ↔
      u.foldl (takeIn S (BitVec.twoPow w (place 0)))
          ((a.take i).foldl (takeIn S (BitVec.twoPow w (place 0))) x) =
        v.foldl (takeIn S (BitVec.twoPow w (place 0)))
          ((a.take i).foldl (takeIn S (BitVec.twoPow w (place 0))) x) := by
    rw [← h.foldl_between (a.take i) u v (a.drop (i+(w+1))),hu,hv,← ha,← hb]
  rw [hfold,hab]
  by_cases hle : u.length ≤ w
  · rw [h.foldl_ne_of_le hvlen.symm hle]
    refine ⟨Or.inl,fun hor => hor.resolve_right fun hlost => ?_⟩
    refine (hlost w (Nat.le_refl w)).mpr h.lost_far ?_
    rw [List.getD_eq_default _ _ (by omega),List.getD_eq_default _ _ (by omega)]
  · cases u with
    | nil => exact absurd (Nat.zero_le w) hle
    | cons b0 u =>
      obtain ⟨c0,v,rfl⟩ := List.exists_cons_of_length_eq_add_one hvlen
      rw [List.length_cons] at hulen hle hvlen
      rw [List.length_cons] at hvlen
      rw [h.foldl_cons_iff (by omega) (by omega),List.cons.injEq]
      have h0 : b0 = a.getD i false ∧ c0 = b.getD i false :=
        ⟨hugetD 0 (by omega),hvgetD 0 (by omega)⟩
      have hsucc : ∀ j < w, u.getD j false = a.getD (i+(j+1)) false ∧
          v.getD j false = b.getD (i+(j+1)) false := fun j hj =>
        ⟨(List.getD_cons_succ ..).symm.trans (hugetD (j+1) (by omega)),
          (List.getD_cons_succ ..).symm.trans (hvgetD (j+1) (by omega))⟩
      refine or_congr Iff.rfl ⟨fun ⟨hne,hall⟩ j hj => ?_,fun hall => ⟨?_,fun j hj => ?_⟩⟩
      · cases j with
        | zero =>
          rw [Nat.add_zero,← h0.1,← h0.2]
          exact iff_of_true hne rfl
        | succ j =>
          rw [← (hsucc j hj).1,← (hsucc j hj).2]
          exact hall j hj
      · have hz := (hall 0 (Nat.zero_le w)).mpr rfl
        rwa [Nat.add_zero,← h0.1,← h0.2] at hz
      · rw [(hsucc j hj).1,(hsucc j hj).2]
        exact hall (j+1) hj

theorem rightShift_next (poly : BitVec w) {i : Nat} (hi : i+1 < w) :
    rightShift poly (BitVec.twoPow w (i+1)) = BitVec.twoPow w i := by
  rw [rightShift,if_neg (by simp)]
  refine BitVec.eq_of_getLsbD_eq fun k hk => ?_
  rw [BitVec.getLsbD_ushiftRight,BitVec.getLsbD_twoPow,BitVec.getLsbD_twoPow,decide_eq_true hi,
    decide_eq_true (show i < w by omega)]
  congr 1
  exact decide_eq_decide.mpr (by omega)

theorem rightShift_iterate (poly : BitVec w) {i n : Nat} (hi : i+n < w) :
    (rightShift poly)^[n] (BitVec.twoPow w (i+n)) = BitVec.twoPow w i := by
  induction n with
  | zero => rfl
  | succ n ih =>
    rw [iterate_succ_apply,← Nat.add_assoc,rightShift_next poly (by omega),ih (by omega)]

theorem rightShift_first (poly : BitVec w) (hw : 0 < w) :
    rightShift poly (BitVec.twoPow w 0) = poly := by
  have hz : BitVec.twoPow w 0 >>> 1 = 0#w := by
    refine BitVec.eq_of_getLsbD_eq fun k hk => ?_
    rw [BitVec.getLsbD_ushiftRight,BitVec.getLsbD_twoPow,
      decide_eq_false (show ¬ 0 = 1+k by omega),Bool.and_false,BitVec.getLsbD_zero]
  rw [rightShift,if_pos (by simpa using hw),hz,BitVec.zero_xor]

theorem leftShift_next (poly : BitVec w) {i : Nat} (hi : i+1 < w) :
    leftShift poly (BitVec.twoPow w (w-1-(i+1))) = BitVec.twoPow w (w-1-i) := by
  have hm : (BitVec.twoPow w (w-1-(i+1))).msb = false := by
    rw [BitVec.msb_eq_getLsbD_last,BitVec.getLsbD_twoPow,
      decide_eq_false (show ¬ w-1-(i+1) = w-1 by omega),Bool.and_false]
  rw [leftShift,hm,if_neg Bool.false_ne_true]
  refine BitVec.eq_of_getLsbD_eq fun k hk => ?_
  rw [BitVec.getLsbD_shiftLeft,BitVec.getLsbD_twoPow,BitVec.getLsbD_twoPow,decide_eq_true hk,
    decide_eq_true (show w-1-(i+1) < w by omega),decide_eq_true (show w-1-i < w by omega)]
  by_cases h1 : k < 1
  · simp [h1,show ¬ w-1-i = k by omega]
  · simp [h1,show w-1-(i+1) = k-1 ↔ w-1-i = k by omega]

theorem leftShift_first (poly : BitVec w) (hw : 0 < w) :
    leftShift poly (BitVec.twoPow w (w-1)) = poly := by
  have hm : (BitVec.twoPow w (w-1)).msb = true := by
    rw [BitVec.msb_eq_getLsbD_last,BitVec.getLsbD_twoPow,decide_eq_true (show w-1 < w by omega),
      decide_eq_true rfl]
    rfl
  have hz : BitVec.twoPow w (w-1) <<< 1 = 0#w := by
    refine BitVec.eq_of_getLsbD_eq fun k hk => ?_
    rw [BitVec.getLsbD_shiftLeft,BitVec.getLsbD_twoPow,BitVec.getLsbD_zero]
    by_cases h1 : k < 1
    · simp [h1]
    · simp [show ¬ w-1 = k-1 by omega]
  rw [leftShift,hm,if_pos rfl,hz,BitVec.zero_xor]

theorem rightShift_lane {poly : BitVec w} (hp : poly.msb = true) :
    Lane (rightShift poly) (fun i => i) := by
  have hlast := hp
  rw [BitVec.msb_eq_getLsbD_last] at hlast
  have hw : 0 < w := Nat.pos_of_ne_zero fun h0 => by
    subst h0
    simp at hlast
  refine ⟨rightShift_linear poly,rightShift_injective hp,fun i hi => hi,fun i _ j _ h => h,
    fun k hk => ⟨k,hk,rfl⟩,fun i hi => rightShift_next poly hi,hw,?_⟩
  rw [rightShift_first poly hw,hlast]

theorem leftShift_lane {poly : BitVec w} (hp : poly.getLsbD 0 = true) :
    Lane (leftShift poly) (fun i => w-1-i) := by
  have hw : 0 < w := Nat.pos_of_ne_zero fun h0 => by
    subst h0
    simp at hp
  refine ⟨leftShift_linear poly,leftShift_injective hp,fun i hi => by omega,
    fun i hi j hj h => by omega,fun k hk => ⟨w-1-k,by omega,by omega⟩,
    fun i hi => leftShift_next poly hi,hw,?_⟩
  rw [Nat.sub_zero,Nat.sub_self,leftShift_first poly hw,hp]

theorem lost_rightShift (poly : BitVec w) (hw : 0 < w) (j : Nat) :
    lost (rightShift poly) (fun i => i) (j+1) = poly.getLsbD j := by
  rw [lost,rightShift_first poly hw]

theorem lost_leftShift (poly : BitVec w) (hw : 0 < w) (j : Nat) :
    lost (leftShift poly) (fun i => w-1-i) (j+1) = poly.getLsbD (w-1-j) := by
  rw [lost,Nat.sub_zero,leftShift_first poly hw]

end ApxBus
