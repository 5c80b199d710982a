import Mathlib.Logic.Function.Iterate
import Mathlib.Data.List.Basic
set_option autoImplicit false

/-! Maps of bit vectors that keep exclusive or, and the shift registers among them. -/

namespace ApxBus

variable {u v w : Nat}

def XorLinear (f : BitVec v → BitVec w) : Prop := ∀ x y, f (x ^^^ y) = f x ^^^ f y

theorem xor_xor_cancel (x y : BitVec w) : x ^^^ y ^^^ y = x := by
  rw [BitVec.xor_assoc,BitVec.xor_self,BitVec.xor_zero]

theorem xor_eq_xor_iff {x y a b : BitVec w} : x ^^^ a = y ^^^ b ↔ x ^^^ y = a ^^^ b := by
  have h : x ^^^ a ^^^ (y ^^^ b) = x ^^^ y ^^^ (a ^^^ b) := by ac_rfl
  rw [← BitVec.xor_eq_zero_iff,h,BitVec.xor_eq_zero_iff]

theorem and_twoPow_ne_zero {i : Nat} (hi : i < w) (x : BitVec w) :
    x &&& BitVec.twoPow w i ≠ 0#w ↔ x.getLsbD i = true := by
  rw [BitVec.and_twoPow]
  cases x.getLsbD i with
  | false => simp
  | true =>
    have hne : BitVec.twoPow w i ≠ 0#w := by
      intro h
      have hbit := congrArg (·.getLsbD i) h
      simp [hi] at hbit
    simp [hne]

namespace XorLinear

variable {f g : BitVec v → BitVec w}

theorem id : XorLinear (fun x : BitVec w => x) := fun _ _ => rfl

theorem zero (hf : XorLinear f) : f 0#v = 0#w := by
  have h := hf 0#v 0#v
  rwa [BitVec.xor_self,BitVec.xor_self] at h

theorem comp {f : BitVec u → BitVec v} {g : BitVec v → BitVec w} (hg : XorLinear g)
    (hf : XorLinear f) : XorLinear (fun x => g (f x)) := by
  intro x y
  simp only [hf x y,hg (f x) (f y)]

theorem xor (hf : XorLinear f) (hg : XorLinear g) : XorLinear (fun x => f x ^^^ g x) := by
  intro x y
  simp only [hf x y,hg x y]
  ac_rfl

theorem iterate {S : BitVec w → BitVec w} (hS : XorLinear S) (n : Nat) : XorLinear S^[n] := by
  induction n with
  | zero => exact id
  | succ n ih =>
    intro x y
    rw [Function.iterate_succ_apply',Function.iterate_succ_apply',Function.iterate_succ_apply',
      ih x y,hS]

theorem shiftLeft (n : Nat) : XorLinear (fun x : BitVec w => x <<< n) :=
  fun x y => BitVec.shiftLeft_xor_distrib x y n

theorem ushiftRight (n : Nat) : XorLinear (fun x : BitVec w => x >>> n) :=
  fun x y => BitVec.ushiftRight_xor_distrib x y n

theorem setWidth : XorLinear (fun x : BitVec v => x.setWidth w) :=
  fun _ _ => BitVec.setWidth_xor

theorem extractLsb' (k n : Nat) : XorLinear (fun x : BitVec w => x.extractLsb' k n) :=
  fun _ _ => BitVec.extractLsb'_xor

theorem and (m : BitVec w) : XorLinear (fun x => x &&& m) := by
  intro x y
  apply BitVec.eq_of_getLsbD_eq
  intro i _
  simp only [BitVec.getLsbD_xor,BitVec.getLsbD_and]
  cases m.getLsbD i <;> simp

theorem ext (hf : XorLinear f) (hg : XorLinear g)
    (h : ∀ i < v, f (BitVec.twoPow v i) = g (BitVec.twoPow v i)) (x : BitVec v) : f x = g x := by
  have low : ∀ k ≤ v, ∀ x : BitVec v, (∀ i, k ≤ i → x.getLsbD i = false) → f x = g x := by
    intro k hk
    induction k with
    | zero =>
      intro x hx
      have h0 : x = 0#v := BitVec.eq_of_getLsbD_eq fun i _ => by simpa using hx i (Nat.zero_le i)
      rw [h0,hf.zero,hg.zero]
    | succ k ih =>
      intro x hx
      cases hbit : x.getLsbD k with
      | false =>
        refine ih (by omega) x fun i hi => ?_
        obtain rfl | hlt := Nat.eq_or_lt_of_le hi
        · exact hbit
        · exact hx i hlt
      | true =>
        have hrest : f (x ^^^ BitVec.twoPow v k) = g (x ^^^ BitVec.twoPow v k) := by
          refine ih (by omega) _ fun i hi => ?_
          rw [BitVec.getLsbD_xor,BitVec.getLsbD_twoPow]
          obtain rfl | hlt := Nat.eq_or_lt_of_le hi
          · have hk : k < v := hk
            simp [hbit,hk]
          · simp [hx i hlt,show k ≠ i by omega]
        rw [← xor_xor_cancel x (BitVec.twoPow v k),hf,hg,hrest,h k hk]
  exact low v (Nat.le_refl v) x fun i hi => BitVec.getLsbD_of_ge x i hi

theorem injective (hf : XorLinear f) (h : ∀ x, f x = 0#w → x = 0#v) : Function.Injective f := by
  intro x y hxy
  have hz : f (x ^^^ y) = 0#w := by rw [hf,hxy,BitVec.xor_self]
  exact BitVec.xor_eq_zero_iff.mp (h _ hz)

theorem injective_xor {N : BitVec w → BitVec w} (hN : XorLinear N) (k : Nat)
    (h : ∀ i < w, N^[k] (BitVec.twoPow w i) = 0#w) : Function.Injective fun x => x ^^^ N x := by
  refine (id.xor hN).injective fun x hx => ?_
  have hfix : N x = x := (BitVec.xor_eq_zero_iff.mp hx).symm
  have hzero : XorLinear fun _ : BitVec w => 0#w := fun _ _ => (BitVec.xor_self).symm
  have hk : N^[k] x = 0#w := ext (hN.iterate k) hzero h x
  rwa [Function.iterate_fixed hfix] at hk

end XorLinear

def leftShift (poly x : BitVec w) : BitVec w := if x.msb then (x <<< 1) ^^^ poly else x <<< 1

def rightShift (poly x : BitVec w) : BitVec w :=
  if x.getLsbD 0 then (x >>> 1) ^^^ poly else x >>> 1

theorem XorLinear.feedback {out : BitVec w → Bool} {S : BitVec w → BitVec w}
    (hout : ∀ x y, out (x ^^^ y) = (out x ^^ out y)) (hS : XorLinear S) (poly : BitVec w) :
    XorLinear fun x => if out x then S x ^^^ poly else S x := by
  intro x y
  simp only [hout,hS x y]
  cases out x <;> cases out y
  · simp
  · simp [BitVec.xor_assoc]
  · simp only [Bool.xor_false,if_true,Bool.false_eq_true,if_false]
    ac_rfl
  · simp only [Bool.xor_true,Bool.not_true,if_true,Bool.false_eq_true,if_false]
    rw [← xor_xor_cancel (S x ^^^ S y) poly]
    ac_rfl

theorem leftShift_linear (poly : BitVec w) : XorLinear (leftShift poly) :=
  (XorLinear.shiftLeft 1).feedback (fun _ _ => BitVec.msb_xor) poly

theorem rightShift_linear (poly : BitVec w) : XorLinear (rightShift poly) :=
  (XorLinear.ushiftRight 1).feedback (fun _ _ => BitVec.getLsbD_xor) poly

theorem leftShift_injective {poly : BitVec w} (hp : poly.getLsbD 0 = true) :
    Function.Injective (leftShift poly) := by
  refine (leftShift_linear poly).injective fun x hx => ?_
  have hbit : ∀ i, (leftShift poly x).getLsbD i = false := fun i => by rw [hx]; simp
  rw [leftShift] at hbit
  cases hm : x.msb with
  | true => simpa [hm,hp] using hbit 0
  | false =>
    refine BitVec.eq_of_getLsbD_eq fun i hi => ?_
    by_cases hlast : i+1 < w
    · simpa [hm,hlast,BitVec.getLsbD_eq_getElem hi] using hbit (i+1)
    · rw [BitVec.msb_eq_getLsbD_last,show w-1 = i by omega] at hm
      simpa using hm

theorem rightShift_injective {poly : BitVec w} (hp : poly.msb = true) :
    Function.Injective (rightShift poly) := by
  refine (rightShift_linear poly).injective fun x hx => ?_
  have hbit : ∀ i, (rightShift poly x).getLsbD i = false := fun i => by rw [hx]; simp
  rw [rightShift] at hbit
  cases h0 : x.getLsbD 0 with
  | true =>
    rw [BitVec.msb_eq_getLsbD_last] at hp
    have hw : 0 < w := Nat.pos_of_ne_zero fun h => by subst h; simp at hp
    have hlast := hbit (w-1)
    simp [h0,hp,show 1+(w-1) = w by omega] at hlast
  | false =>
    refine BitVec.eq_of_getLsbD_eq fun i hi => ?_
    cases i with
    | zero => simpa using h0
    | succ i => simpa [h0,Nat.add_comm] using hbit i

def feedRight (poly : BitVec w) : BitVec w × BitVec w → BitVec w × BitVec w
  | (x,v) => (if (x ^^^ v).getLsbD 0 then (x >>> 1) ^^^ poly else x >>> 1,v >>> 1)

theorem feedRight_eq (poly x v : BitVec w) :
    feedRight poly (x,v) = (rightShift poly (x ^^^ v) ^^^ (v >>> 1),v >>> 1) := by
  simp only [feedRight,rightShift,BitVec.ushiftRight_xor_distrib,Prod.mk.injEq,and_true]
  cases (x ^^^ v).getLsbD 0 with
  | false =>
    simp only [Bool.false_eq_true,if_false]
    exact (xor_xor_cancel _ _).symm
  | true =>
    simp only [if_true]
    rw [← xor_xor_cancel (x >>> 1 ^^^ poly) (v >>> 1)]
    ac_rfl

theorem feedRight_iterate (poly x v : BitVec w) (k : Nat) :
    (feedRight poly)^[k] (x,v) = ((rightShift poly)^[k] (x ^^^ v) ^^^ (v >>> k),v >>> k) := by
  induction k with
  | zero =>
    rw [Function.iterate_zero,Function.iterate_zero,id_eq,id_eq,BitVec.ushiftRight_zero,
      xor_xor_cancel]
  | succ k ih =>
    rw [Function.iterate_succ_apply',ih,feedRight_eq,xor_xor_cancel,
      Function.iterate_succ_apply',BitVec.shiftRight_add]

theorem feedRight_iterate_width (poly x v : BitVec w) :
    ((feedRight poly)^[w] (x,v)).1 = (rightShift poly)^[w] (x ^^^ v) := by
  have hv : v >>> w = 0#w := BitVec.ushiftRight_eq_zero (Nat.le_refl w)
  rw [feedRight_iterate,hv,BitVec.xor_zero]

section Feed

variable {σ β : Type} {f : σ → β → σ}

theorem foldl_injective (hs : ∀ b, Function.Injective (f · b)) (l : List β) :
    Function.Injective (l.foldl f) := by
  induction l with
  | nil => exact fun _ _ h => h
  | cons b l ih => exact fun s t h => hs b (ih h)

theorem foldl_ne (hs : ∀ b, Function.Injective (f · b)) (hb : ∀ s, Function.Injective (f s))
    {b c : β} (h : b ≠ c) (s : σ) (p q : List β) :
    (p ++ b :: q).foldl f s ≠ (p ++ c :: q).foldl f s := by
  rw [List.foldl_append,List.foldl_append,List.foldl_cons,List.foldl_cons]
  exact fun he => h (hb _ (foldl_injective hs q he))

theorem foldl_xor {S : BitVec w → BitVec w} (hS : XorLinear S) (l : List (BitVec w))
    (s t : BitVec w) :
    l.foldl (fun s x => S (s ^^^ x)) s ^^^ l.foldl (fun s x => S (s ^^^ x)) t =
      S^[l.length] (s ^^^ t) := by
  induction l generalizing s t with
  | nil => rfl
  | cons x l ih =>
    rw [List.foldl_cons,List.foldl_cons,ih,List.length_cons,Function.iterate_succ_apply,← hS]
    congr 2
    rw [← xor_xor_cancel (s ^^^ t) x]
    ac_rfl

/-- A test that holds of the first `n` states from `x`. -/
def holdsAlong (p : σ → Bool) (f : σ → σ) : Nat → σ → Bool
  | 0, _ => true
  | n+1, x => p x && holdsAlong p f n (f x)

theorem holdsAlong_iterate {p : σ → Bool} {f : σ → σ} {n : Nat} {x : σ}
    (h : holdsAlong p f n x = true) {k : Nat} (hk : k < n) : p (f^[k] x) = true := by
  induction n generalizing x k with
  | zero => omega
  | succ n ih =>
    rw [holdsAlong,Bool.and_eq_true] at h
    cases k with
    | zero => exact h.1
    | succ k => exact ih h.2 (by omega)

end Feed

end ApxBus
