import Mathlib.Algebra.Order.Field.Rat
import Mathlib.Order.Monotone.Basic
import Mathlib.Tactic.Linarith
import Mathlib.Tactic.Ring
set_option autoImplicit false

/-! The numbers of binary interchange formats: a sign, an exponent, and `m` bits of fraction. -/

namespace ApxBus.BinaryFloat

/-- The magnitude of a pattern without sign, in units of the smallest number. -/
def units (m x : Nat) : Nat := if x < 2^m then x else (2^m+x%2^m)*2^(x/2^m-1)

def value (m bias : Nat) {w : Nat} (v : BitVec w) : ℚ :=
  (if v.msb then -1 else 1)*(units m (v.toNat%2^(w-1))/2^(m+bias-1))

def Finite (m : Nat) {w : Nat} (v : BitVec w) : Prop := v.toNat%2^(w-1)+2^m < 2^(w-1)

def IsNaN (m : Nat) {w : Nat} (v : BitVec w) : Prop := 2^(w-1) < v.toNat%2^(w-1)+2^m

instance (m : Nat) {w : Nat} (v : BitVec w) : Decidable (Finite m v) :=
  inferInstanceAs (Decidable (_ < _))

instance (m : Nat) {w : Nat} (v : BitVec w) : Decidable (IsNaN m v) :=
  inferInstanceAs (Decidable (_ < _))

theorem abs_value (m bias : Nat) {w : Nat} (v : BitVec w) :
    |value m bias v| = units m (v.toNat%2^(w-1))/2^(m+bias-1) := by
  have hpos : (0 : ℚ) ≤ units m (v.toNat%2^(w-1))/2^(m+bias-1) :=
    div_nonneg (Nat.cast_nonneg _) (pow_nonneg zero_le_two _)
  unfold value
  split_ifs
  · rw [neg_one_mul,abs_neg,abs_of_nonneg hpos]
  · rw [one_mul,abs_of_nonneg hpos]

theorem abs_signed_sub (b b' : Bool) (x y : ℚ) :
    |(if b then -1 else 1)*x-(if b' then -1 else 1)*y| = if b = b' then |x-y| else |x+y| := by
  cases b with
  | false => cases b' <;> simp
  | true =>
    cases b' with
    | false => simpa [sub_eq_add_neg,add_comm] using abs_neg (x+y)
    | true => simpa [sub_eq_add_neg,add_comm] using abs_neg (x-y)

theorem value_zero (m bias w : Nat) : value m bias (0#w) = 0 := by
  have hz : (0#w).toNat%2^(w-1) = 0 := by
    rw [BitVec.toNat_zero,Nat.zero_mod]
  unfold value units
  rw [hz,if_pos (Nat.two_pow_pos m),Nat.cast_zero,zero_div,mul_zero]

section
variable {k l m : Nat} (s : BitVec k) (e : BitVec l) (f : BitVec m)

theorem and_pattern (s' : BitVec k) (e' : BitVec l) (f' : BitVec m) :
    (s ++ e ++ f) &&& (s' ++ e' ++ f') = (s &&& s') ++ (e &&& e') ++ (f &&& f') := by
  rw [BitVec.and_append,BitVec.and_append]

theorem or_pattern (s' : BitVec k) (e' : BitVec l) (f' : BitVec m) :
    (s ++ e ++ f) ||| (s' ++ e' ++ f') = (s ||| s') ++ (e ||| e') ++ (f ||| f') := by
  rw [BitVec.or_append,BitVec.or_append]

theorem pattern_toNat : (s ++ e ++ f).toNat = (s.toNat*2^l+e.toNat)*2^m+f.toNat := by
  rw [BitVec.toNat_append,BitVec.toNat_append,← Nat.shiftLeft_add_eq_or_of_lt f.isLt,
    ← Nat.shiftLeft_add_eq_or_of_lt e.isLt,Nat.shiftLeft_eq,Nat.shiftLeft_eq]

theorem pattern_and_first :
    (s ++ e ++ f) &&& (BitVec.allOnes k ++ 0#l ++ 0#m) = s ++ 0#l ++ 0#m := by
  rw [and_pattern,BitVec.and_allOnes,BitVec.and_zero,BitVec.and_zero]

theorem pattern_and_second :
    (s ++ e ++ f) &&& (0#k ++ BitVec.allOnes l ++ 0#m) = 0#k ++ e ++ 0#m := by
  rw [and_pattern,BitVec.and_allOnes,BitVec.and_zero,BitVec.and_zero]

theorem pattern_and_third :
    (s ++ e ++ f) &&& (0#k ++ 0#l ++ BitVec.allOnes m) = 0#k ++ 0#l ++ f := by
  rw [and_pattern,BitVec.and_allOnes,BitVec.and_zero,BitVec.and_zero]

theorem pattern_and_rest :
    (s ++ e ++ f) &&& (0#k ++ BitVec.allOnes l ++ BitVec.allOnes m) = 0#k ++ e ++ f := by
  rw [and_pattern,BitVec.and_allOnes,BitVec.and_allOnes,BitVec.and_zero]

variable {s e f} in
theorem pattern_inj {s' : BitVec k} {e' : BitVec l} {f' : BitVec m} :
    s ++ e ++ f = s' ++ e' ++ f' ↔ s = s' ∧ e = e' ∧ f = f' := by
  constructor
  · intro h
    have hse := congrArg (·.extractLsb' m (k+l)) h
    have hf := congrArg (·.extractLsb' 0 m) h
    simp only [BitVec.extractLsb'_append_eq_left,BitVec.extractLsb'_append_eq_right] at hse hf
    have hs := congrArg (·.extractLsb' l k) hse
    have he := congrArg (·.extractLsb' 0 l) hse
    simp only [BitVec.extractLsb'_append_eq_left,BitVec.extractLsb'_append_eq_right] at hs he
    exact ⟨hs,he,hf⟩
  · rintro ⟨rfl,rfl,rfl⟩
    rfl

theorem exists_pattern (v : BitVec (k+l+m)) :
    ∃ (s : BitVec k) (e : BitVec l) (f : BitVec m), v = s ++ e ++ f := by
  refine ⟨(v.extractLsb' m (k+l)).extractLsb' l k,(v.extractLsb' m (k+l)).extractLsb' 0 l,
    v.extractLsb' 0 m,?_⟩
  rw [BitVec.extractLsb'_append_extractLsb',BitVec.extractLsb'_append_extractLsb']

end

section
variable {l m : Nat} (s : BitVec 1) (e : BitVec l) (f : BitVec m)

theorem pattern_magnitude : (s ++ e ++ f).toNat%2^(1+l+m-1) = e.toNat*2^m+f.toNat := by
  have hlt : e.toNat*2^m+f.toNat < 2^(l+m) := by
    have he := e.isLt
    have hf := f.isLt
    calc e.toNat*2^m+f.toNat < e.toNat*2^m+2^m := Nat.add_lt_add_left hf _
      _ = (e.toNat+1)*2^m := (Nat.add_one_mul _ _).symm
      _ ≤ 2^l*2^m := Nat.mul_le_mul_right _ he
      _ = 2^(l+m) := (Nat.pow_add _ _ _).symm
  have hsum : (s ++ e ++ f).toNat = s.toNat*2^(l+m)+(e.toNat*2^m+f.toNat) := by
    rw [pattern_toNat,Nat.pow_add]
    ring
  rw [show 1+l+m-1 = l+m by omega,hsum,Nat.mul_add_mod_self_right,Nat.mod_eq_of_lt hlt]

theorem pattern_msb : (s ++ e ++ f).msb = s.msb := by
  rw [BitVec.msb_append,if_neg (by omega),BitVec.msb_append,if_neg (by decide)]

theorem value_pattern (bias : Nat) : value m bias (s ++ e ++ f) =
    (if s.msb then -1 else 1)*(units m (e.toNat*2^m+f.toNat)/2^(m+bias-1)) := by
  unfold value
  rw [pattern_msb,pattern_magnitude]

theorem finite_pattern : Finite m (s ++ e ++ f) ↔ e.toNat+1 < 2^l := by
  have hf := f.isLt
  have hpos := Nat.two_pow_pos m
  unfold Finite
  rw [pattern_magnitude,show 1+l+m-1 = l+m by omega,Nat.pow_add]
  constructor
  · intro h
    by_contra hno
    have hle := Nat.mul_le_mul_right (2^m) (Nat.not_lt.mp hno)
    rw [Nat.add_mul] at hle
    omega
  · intro h
    have hle := Nat.mul_le_mul_right (2^m) (Nat.succ_le_of_lt h)
    rw [Nat.succ_mul,Nat.add_mul] at hle
    omega

theorem isNaN_pattern : IsNaN m (s ++ e ++ f) ↔ e.toNat+1 = 2^l ∧ f.toNat ≠ 0 := by
  have he := e.isLt
  have hf := f.isLt
  unfold IsNaN
  rw [pattern_magnitude,show 1+l+m-1 = l+m by omega,Nat.pow_add]
  constructor
  · intro h
    have heq : e.toNat+1 = 2^l := by
      by_contra hno
      have hle := Nat.mul_le_mul_right (2^m) (show e.toNat+1+1 ≤ 2^l by omega)
      rw [Nat.add_mul,Nat.add_mul] at hle
      omega
    rw [← heq,Nat.add_mul] at h
    exact ⟨heq,by omega⟩
  · rintro ⟨heq,hne⟩
    rw [← heq,Nat.add_mul]
    omega

end

variable {m x : Nat}

theorem units_of_lt (h : x < 2^m) : units m x = x := if_pos h

theorem units_binade (e : Nat) {f : Nat} (hf : f ≤ 2^m) :
    units m ((e+1)*2^m+f) = (2^m+f)*2^e := by
  have hpos := Nat.two_pow_pos m
  have hle : 2^m ≤ (e+1)*2^m+f :=
    (Nat.le_mul_of_pos_left _ (Nat.succ_pos e)).trans (Nat.le_add_right _ _)
  unfold units
  rw [if_neg (Nat.not_lt.mpr hle)]
  rcases Nat.lt_or_eq_of_le hf with hlt | rfl
  · rw [Nat.add_comm _ f,Nat.add_mul_mod_self_right,Nat.mod_eq_of_lt hlt,
      Nat.add_mul_div_right _ _ hpos,Nat.div_eq_of_lt hlt,Nat.zero_add,Nat.add_sub_cancel]
  · rw [← Nat.succ_mul,Nat.mul_mod_left,Nat.mul_div_cancel _ hpos,Nat.add_zero,Nat.succ_sub_one,
      Nat.pow_succ]
    ring

theorem exists_binade (h : 2^m ≤ x) : ∃ e f, f < 2^m ∧ x = (e+1)*2^m+f := by
  have hpos := Nat.two_pow_pos m
  obtain ⟨e,he⟩ : ∃ e, x/2^m = e+1 :=
    Nat.exists_eq_succ_of_ne_zero (Nat.div_pos h hpos).ne'
  refine ⟨e,x%2^m,Nat.mod_lt _ hpos,?_⟩
  rw [← he,Nat.mul_comm]
  exact (Nat.div_add_mod x (2^m)).symm

theorem units_of_le (h : x ≤ 2^(m+1)) : units m x = x := by
  rcases Nat.lt_or_ge x (2^m) with hlt | hge
  · exact units_of_lt hlt
  · rw [Nat.pow_succ] at h
    obtain ⟨f,rfl⟩ := Nat.exists_eq_add_of_le hge
    have hb := @units_binade m 0 f (by omega)
    rwa [Nat.zero_add,Nat.one_mul,Nat.pow_zero,Nat.mul_one] at hb

theorem units_strictMono (m : Nat) : StrictMono (units m) := by
  refine strictMono_nat_of_lt_succ fun x => ?_
  rcases Nat.lt_or_ge x (2^m) with hlt | hge
  · have hpow : 2^m ≤ 2^(m+1) := Nat.pow_le_pow_right (by decide) (Nat.le_succ m)
    rw [units_of_lt hlt,units_of_le (by omega)]
    exact Nat.lt_succ_self x
  · obtain ⟨e,f,hf,rfl⟩ := exists_binade hge
    rw [Nat.add_assoc,units_binade e hf.le,units_binade e hf]
    exact Nat.mul_lt_mul_of_pos_right (by omega) (Nat.two_pow_pos e)

theorem units_between (k c : Nat) (h : 2^m ≤ x) {d : Nat} (hd : d ≤ 2^k) :
    units (m+k) (c*2^(m+k)+(x*2^k+d)) = 2^c*(2^k*units m x+d*(units m (x+1)-units m x)) := by
  obtain ⟨e,f,hf,rfl⟩ := exists_binade h
  have hle : f*2^k+d ≤ 2^(m+k) := by
    calc f*2^k+d ≤ f*2^k+2^k := Nat.add_le_add_left hd _
      _ = (f+1)*2^k := (Nat.succ_mul _ _).symm
      _ ≤ 2^m*2^k := Nat.mul_le_mul_right _ hf
      _ = 2^(m+k) := (Nat.pow_add _ _ _).symm
  have hx : c*2^(m+k)+(((e+1)*2^m+f)*2^k+d) = (c+e+1)*2^(m+k)+(f*2^k+d) := by
    rw [Nat.pow_add]
    ring
  have hstep : (2^m+(f+1))*2^e-(2^m+f)*2^e = 2^e := by
    rw [← Nat.add_assoc,Nat.succ_mul,Nat.add_sub_cancel_left]
  rw [hx,units_binade (c+e) hle,Nat.add_assoc,units_binade e hf.le,units_binade e hf,hstep,
    Nat.pow_add,Nat.pow_add]
  ring

section Nearest
variable {α : Type*} [Field α] [LinearOrder α] [IsStrictOrderedRing α]

/-- From the midpoint below to before the midpoint above. -/
structure Rounds (g : Nat → α) (x : α) (h : Nat) : Prop where
  low : ∀ j, j+1 = h → g j+g h ≤ 2*x
  high : 2*x < g h+g (h+1)

variable {g : Nat → α} {x : α} {h : Nat}

theorem Rounds.nearest (hr : Rounds g x h) (hg : StrictMono g) (j : Nat) :
    |x-g h| ≤ |x-g j| ∧ (|x-g h| = |x-g j| → g j ≤ g h) := by
  rcases Nat.lt_trichotomy j h with hlt | rfl | hgt
  · have hle : g j ≤ g (h-1) := hg.monotone (by omega)
    have hlow := hr.low (h-1) (by omega)
    have hlt' : g j < g h := hg hlt
    refine ⟨?_,fun _ => hlt'.le⟩
    rw [abs_of_nonneg (show 0 ≤ x-g j by linarith)]
    exact abs_le.mpr ⟨by linarith,by linarith⟩
  · exact ⟨le_rfl,fun _ => le_rfl⟩
  · have hle : g (h+1) ≤ g j := hg.monotone hgt
    have hhigh := hr.high
    have hlt : g h < g j := hg hgt
    have habs : |x-g h| < |x-g j| := by
      rw [abs_sub_comm x (g j),abs_of_nonneg (show 0 ≤ g j-x by linarith)]
      exact abs_lt.mpr ⟨by linarith,by linarith⟩
    exact ⟨habs.le,fun heq => absurd heq habs.ne⟩

theorem Rounds.nearest_neg (hr : Rounds g x h) (hg : StrictMono g) (h0 : g 0 = 0) (hx : 0 ≤ x)
    (j : Nat) : |x-g h| ≤ |x+g j| ∧ (|x-g h| = |x+g j| → g j ≤ g h) := by
  have hj : 0 ≤ g j := h0 ▸ hg.monotone (Nat.zero_le j)
  have hh : 0 ≤ g h := h0 ▸ hg.monotone (Nat.zero_le h)
  have hzero := (hr.nearest hg 0).1
  rw [h0,sub_zero,abs_of_nonneg hx] at hzero
  rw [abs_of_nonneg (show 0 ≤ x+g j by linarith)]
  exact ⟨by linarith,fun heq => by linarith⟩

end Nearest

end ApxBus.BinaryFloat
