import Mathlib.Algebra.BigOperators.Group.List.Basic
import Mathlib.Data.List.Lex
import Mathlib.Data.Nat.ModEq
set_option autoImplicit false

/-! Numbers with digits of different widths in bits, the highest digit first. -/

namespace ApxBus.MixedRadix

/-- The number of these digits; the digits that are missing at the end are zero. -/
def value : List Nat → List Nat → Nat
  | _ :: bs, d :: ds => d*2^bs.sum+value bs ds
  | _, _ => 0

def Fits : List Nat → List Nat → Prop
  | _, [] => True
  | [], _ :: _ => False
  | b :: bs, d :: ds => d < 2^b ∧ Fits bs ds

variable {b d : Nat} {bs ds es : List Nat}

@[simp] theorem value_nil (bs : List Nat) : value bs [] = 0 := by cases bs <;> rfl

@[simp] theorem fits_nil (bs : List Nat) : Fits bs [] := by cases bs <;> trivial

theorem Fits.value_lt (h : Fits bs ds) : value bs ds < 2^bs.sum := by
  induction ds generalizing bs with
  | nil =>
    rw [value_nil]
    exact Nat.two_pow_pos _
  | cons d ds ih =>
    cases bs with
    | nil => exact h.elim
    | cons b bs =>
      have hv := ih h.2
      have hd : (d+1)*2^bs.sum ≤ 2^b*2^bs.sum := Nat.mul_le_mul_right _ h.1
      rw [value,List.sum_cons,Nat.pow_add]
      rw [Nat.succ_mul] at hd
      omega

theorem value_lt_of_lt (hd : Fits bs ds) (he : Fits bs es) (hl : ds.length = es.length)
    (h : ds < es) : value bs ds < value bs es := by
  induction bs generalizing ds es with
  | nil =>
    cases ds with
    | cons d ds => exact hd.elim
    | nil =>
      rw [List.eq_nil_of_length_eq_zero hl.symm] at h
      exact absurd h (List.lt_irrefl _)
  | cons b bs ih =>
    cases ds with
    | nil =>
      rw [List.eq_nil_of_length_eq_zero hl.symm] at h
      exact absurd h (List.lt_irrefl _)
    | cons d ds =>
      cases es with
      | nil => cases hl
      | cons e es =>
        rw [value,value]
        rcases List.cons_lt_cons_iff.mp h with hlt | ⟨rfl,hlt⟩
        · have hv := hd.2.value_lt
          have hmul : (d+1)*2^bs.sum ≤ e*2^bs.sum := Nat.mul_le_mul_right _ hlt
          rw [Nat.succ_mul] at hmul
          omega
        · exact Nat.add_lt_add_left (ih hd.2 he.2 (Nat.succ.inj hl) hlt) _

theorem value_injective (hd : Fits bs ds) (he : Fits bs es) (hl : ds.length = es.length)
    (h : value bs ds = value bs es) : ds = es := by
  rcases lt_trichotomy ds es with hlt | heq | hlt
  · exact absurd h (value_lt_of_lt hd he hl hlt).ne
  · exact heq
  · exact absurd h (value_lt_of_lt he hd hl.symm hlt).ne'

theorem value_append (bs ds es : List Nat) :
    value bs (ds++es) = value bs ds+value (bs.drop ds.length) es := by
  induction ds generalizing bs with
  | nil => simp
  | cons d ds ih =>
    cases bs with
    | nil => simp [value]
    | cons b bs =>
      rw [List.cons_append,value,value,ih,List.length_cons,List.drop_succ_cons,Nat.add_assoc]

theorem value_concat (bs ds : List Nat) (d : Nat) (h : ds.length < bs.length) :
    value bs (ds++[d]) = value bs ds+d*2^(bs.drop (ds.length+1)).sum := by
  rw [value_append,List.drop_eq_getElem_cons h,value,value_nil,Nat.add_zero]

theorem fits_append : Fits bs (ds++es) ↔ Fits bs ds ∧ Fits (bs.drop ds.length) es := by
  induction ds generalizing bs with
  | nil => simp
  | cons d ds ih =>
    cases bs with
    | nil => simp [Fits]
    | cons b bs => simp only [List.cons_append,Fits,ih,and_assoc,List.length_cons,
      List.drop_succ_cons]

theorem fits_concat (h : bs[ds.length]? = some b) :
    Fits bs (ds++[d]) ↔ Fits bs ds ∧ d < 2^b := by
  obtain ⟨hlt,hb⟩ := List.getElem?_eq_some_iff.mp h
  rw [fits_append,List.drop_eq_getElem_cons hlt,hb,Fits,iff_true_intro (fits_nil _),and_true]

theorem sum_drop_le (bs : List Nat) (n : Nat) : (bs.drop n).sum ≤ bs.sum := by
  rw [← bs.sum_take_add_sum_drop n]
  exact Nat.le_add_left _ _

theorem dvd_value (bs ds : List Nat) : 2^(bs.drop ds.length).sum ∣ value bs ds := by
  induction ds generalizing bs with
  | nil => simp
  | cons d ds ih =>
    cases bs with
    | nil => simp [value]
    | cons b bs =>
      rw [value,List.length_cons,List.drop_succ_cons]
      have hpow := Nat.pow_dvd_pow 2 (sum_drop_le bs ds.length)
      exact Nat.dvd_add (Nat.dvd_mul_left_of_dvd hpow d) (ih bs)

theorem and_high {n s t : Nat} (hn : n < 2^s) (ht : t ≤ s) :
    n &&& (2^s-2^t) = n/2^t*2^t := by
  have hmask : 2^s-2^t = (2^(s-t)-1) <<< t := by
    rw [Nat.shiftLeft_eq,Nat.sub_mul,← Nat.pow_add,Nat.sub_add_cancel ht,Nat.one_mul]
  have hdiv : n/2^t < 2^(s-t) := by
    rw [Nat.div_lt_iff_lt_mul (Nat.two_pow_pos t),← Nat.pow_add,Nat.sub_add_cancel ht]
    exact hn
  rw [← Nat.shiftLeft_eq,← Nat.and_two_pow_sub_one_of_lt_two_pow hdiv,Nat.shiftLeft_and_distrib,
    ← hmask]
  apply Nat.eq_of_testBit_eq
  intro i
  rw [Nat.testBit_and,Nat.testBit_and,Nat.testBit_shiftLeft,Nat.testBit_div_two_pow]
  by_cases hi : t ≤ i
  · simp [hi]
  · simp [hmask,Nat.testBit_shiftLeft,hi]

theorem and_high_eq_iff (hd : Fits bs ds) (he : Fits bs es) (hl : ds.length ≤ es.length) :
    value bs es &&& (2^bs.sum-2^(bs.drop ds.length).sum) = value bs ds ↔ ds <+: es := by
  have hlen : (es.take ds.length).length = ds.length := List.length_take_of_le hl
  have htake := List.take_append_drop ds.length es
  rw [← htake,fits_append,hlen] at he
  have hval : value bs es/2^(bs.drop ds.length).sum*2^(bs.drop ds.length).sum =
      value bs (es.take ds.length) := by
    conv_lhs => rw [← htake,value_append,hlen]
    have hdvd := dvd_value bs (es.take ds.length)
    rw [hlen] at hdvd
    rw [Nat.add_div_of_dvd_right hdvd,Nat.div_eq_of_lt he.2.value_lt,Nat.add_zero,
      Nat.div_mul_cancel hdvd]
  have hes : value bs es < 2^bs.sum := by
    rw [← htake]
    exact Fits.value_lt (fits_append.mpr (hlen.symm ▸ he))
  rw [and_high hes (sum_drop_le bs _),hval,List.prefix_iff_eq_take]
  exact ⟨fun h => (value_injective he.1 hd hlen h).symm,fun h => by rw [← h]⟩

theorem value_concat_mod (hl : bs.length = ds.length) (b d : Nat) (hd : d < 2^b) :
    value (bs++[b]) (ds++[d])%2^b = d := by
  have hlen : ds.length < (bs++[b]).length := by rw [List.length_append,hl]; simp
  have hdvd := dvd_value (bs++[b]) ds
  rw [List.drop_left' hl,List.sum_singleton] at hdvd
  rw [value_concat _ _ _ hlen,List.drop_of_length_le (by simp [hl]),List.sum_nil,Nat.pow_zero,
    Nat.mul_one,Nat.add_mod,Nat.mod_eq_zero_of_dvd hdvd,Nat.zero_add,Nat.mod_mod,
    Nat.mod_eq_of_lt hd]

end ApxBus.MixedRadix
