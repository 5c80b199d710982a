import Mathlib.Data.List.Basic
set_option autoImplicit false

/-!
Rows of optional items in groups of eight: each group is a mask of the items that are there,
and then their bytes.
-/

namespace ApxBus.MaskGroups

def bitMask (k : Nat) : BitVec 8 := 1#8 <<< k

theorem getLsbD_bitMask {k : Nat} (hk : k < 8) (j : Nat) :
    (bitMask k).getLsbD j = decide (j = k) := by
  rw [bitMask,BitVec.getLsbD_shiftLeft,BitVec.getLsbD_one]
  by_cases hj : j = k
  · subst hj
    simp [hk]
  · have h0 : ¬ (j-k = 0 ∧ ¬ j < k) := by omega
    simpa [hj] using fun _ h1 h2 => h0 ⟨h2,by omega⟩

theorem bitMask_shift (k : Nat) : bitMask k <<< 1 = bitMask (k+1) := by
  simp [bitMask,BitVec.shiftLeft_add]

theorem bitMask_eq_zero {k : Nat} (hk : k ≤ 8) : bitMask k = 0#8 ↔ k = 8 := by
  constructor
  · intro h
    by_contra hne
    have hb := getLsbD_bitMask (show k < 8 by omega) k
    simp [h] at hb
  · rintro rfl
    decide

theorem and_bitMask {k : Nat} (hk : k < 8) (b : BitVec 8) :
    b &&& bitMask k ≠ 0#8 ↔ b.getLsbD k = true := by
  constructor
  · intro h
    by_contra hb
    refine h (BitVec.eq_of_getLsbD_eq fun j hj => ?_)
    by_cases hjk : j = k
    · subst hjk
      simp [hb]
    · simp [getLsbD_bitMask hk,hjk]
  · intro h h0
    have hb := congrArg (BitVec.getLsbD · k) h0
    simp [getLsbD_bitMask hk,h] at hb

variable {α : Type*}

/-- Bit `k` tells whether the item `k` is there. -/
def maskOf : List (Option α) → BitVec 8
  | [] => 0#8
  | u :: us => maskOf us <<< 1 ||| (if u.isSome then 1#8 else 0#8)

theorem getLsbD_maskOf (us : List (Option α)) {k : Nat} (hk : k < 8) :
    (maskOf us).getLsbD k = (us[k]?.getD none).isSome := by
  induction us generalizing k with
  | nil => simp [maskOf]
  | cons u us ih =>
    rw [maskOf,BitVec.getLsbD_or,BitVec.getLsbD_shiftLeft]
    cases k with
    | zero => cases u <;> simp
    | succ k => cases u <;> simp [hk,ih (show k < 8 by omega)]

theorem maskOf_snoc_none (us : List (Option α)) : maskOf (us ++ [none]) = maskOf us := by
  refine BitVec.eq_of_getLsbD_eq fun j hj => ?_
  rw [getLsbD_maskOf _ hj,getLsbD_maskOf _ hj]
  rcases Nat.lt_trichotomy j us.length with h | h | h
  · rw [List.getElem?_append_left h]
  · simp [h]
  · rw [List.getElem?_eq_none (Nat.le_of_lt h),List.getElem?_eq_none (by simp; omega)]

theorem maskOf_snoc_some {us : List (Option α)} (hl : us.length < 8) (a : α) :
    maskOf (us ++ [some a]) = maskOf us ||| bitMask us.length := by
  refine BitVec.eq_of_getLsbD_eq fun j hj => ?_
  rw [BitVec.getLsbD_or,getLsbD_bitMask hl,getLsbD_maskOf _ hj,getLsbD_maskOf _ hj]
  rcases Nat.lt_trichotomy j us.length with h | h | h
  · simp [List.getElem?_append_left h,Nat.ne_of_lt h]
  · simp [h]
  · rw [List.getElem?_eq_none (Nat.le_of_lt h),List.getElem?_eq_none (by simp; omega)]
    simp [Nat.ne_of_gt h]

def dataOf (us : List (Option (List α))) : List α := us.flatMap fun u => u.getD []

@[simp] theorem dataOf_nil : dataOf ([] : List (Option (List α))) = [] := rfl

@[simp] theorem dataOf_cons (u : Option (List α)) (us : List (Option (List α))) :
    dataOf (u :: us) = u.getD [] ++ dataOf us := rfl

@[simp] theorem dataOf_append (us vs : List (Option (List α))) :
    dataOf (us ++ vs) = dataOf us ++ dataOf vs := List.flatMap_append

def group (us : List (Option (List (BitVec 8)))) : List (BitVec 8) := maskOf us :: dataOf us

theorem group_snoc_none (us : List (Option (List (BitVec 8)))) :
    group (us ++ [none]) = group us := by
  simp [group,maskOf_snoc_none]

theorem group_snoc_some {us : List (Option (List (BitVec 8)))} (hl : us.length < 8)
    (b : List (BitVec 8)) :
    group (us ++ [some b]) = (group us).set 0 (maskOf us ||| bitMask us.length) ++ b := by
  simp [group,maskOf_snoc_some hl]

def bitAt (l : List (BitVec 8)) (i : Nat) : Bool := (l.getD (i/8) 0#8).getLsbD (i%8)

theorem bitAt_set {l : List (BitVec 8)} {p : Nat} (hp : p < l.length) (b : BitVec 8) (i : Nat) :
    bitAt (l.set p b) i = if i/8 = p then b.getLsbD (i%8) else bitAt l i := by
  unfold bitAt
  by_cases h : i/8 = p
  · subst h
    simp [hp]
  · simp [List.getD_eq_getElem?_getD,List.getElem?_set_ne (Ne.symm h),h]

theorem bitAt_place {p k : Nat} (hk : k < 8) (l : List (BitVec 8)) :
    bitAt l (8*p+k) = (l.getD p 0#8).getLsbD k := by
  rw [bitAt,show (8*p+k)/8 = p by omega,show (8*p+k)%8 = k by omega]

theorem bitAt_or {l : List (BitVec 8)} {p k : Nat} (hp : p < l.length) (hk : k < 8) (i : Nat) :
    bitAt (l.set p (l.getD p 0#8 ||| bitMask k)) i = (decide (i = 8*p+k) || bitAt l i) := by
  rw [bitAt_set hp]
  split_ifs with h
  · subst h
    rw [BitVec.getLsbD_or,getLsbD_bitMask hk,Bool.or_comm]
    congr 1
    exact decide_eq_decide.mpr (by omega)
  · have hne : i ≠ 8*p+k := by omega
    simp [hne]

theorem bitAt_andNot {l : List (BitVec 8)} {p k : Nat} (hp : p < l.length) (hk : k < 8)
    (i : Nat) : bitAt (l.set p (l.getD p 0#8 &&& ~~~bitMask k)) i =
      (!decide (i = 8*p+k) && bitAt l i) := by
  rw [bitAt_set hp]
  split_ifs with h
  · subst h
    have hi : i%8 < 8 := Nat.mod_lt _ (by decide)
    rw [BitVec.getLsbD_and,BitVec.getLsbD_not,getLsbD_bitMask hk,Bool.and_comm]
    simp only [hi,decide_true,Bool.true_and]
    congr 2
    exact decide_eq_decide.mpr (by omega)
  · have hne : i ≠ 8*p+k := by omega
    simp [hne]

end ApxBus.MaskGroups
