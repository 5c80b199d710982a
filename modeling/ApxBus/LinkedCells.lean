import Mathlib.Algebra.BigOperators.Group.Finset.Basic
import Mathlib.Algebra.Order.BigOperators.Group.Finset
import Mathlib.Data.Multiset.Range
import Mathlib.Data.Fintype.Option
import Mathlib.Algebra.Order.Group.Multiset
import Mathlib.Algebra.BigOperators.Group.Finset.Piecewise
import Mathlib.Tactic.Abel
set_option autoImplicit false

/-!
Cells of one array chained by index links. Several chains, one for each owner
`k : ι`, share the array; a cell is moved between them by rewriting links.
Nothing here depends on what the cells store.
-/

namespace ApxBus.LinkedCells
open Function

/-- The cells met from `h` on along `next`, up to the end mark, are exactly the list. -/
def Linked (next : Nat → Nat) (nil : Nat) : Nat → List Nat → Prop
  | h, [] => h = nil
  | h, i :: l => h = i ∧ i ≠ nil ∧ Linked next nil (next i) l

section Chain
variable {next next' : Nat → Nat} {nil h : Nat} {l : List Nat}

theorem Linked.congr (hn : ∀ i ∈ l, next' i = next i) (hc : Linked next nil h l) :
    Linked next' nil h l := by
  induction l generalizing h with
  | nil => exact hc
  | cons i l ih =>
    obtain ⟨rfl,hi,hc⟩ := hc
    refine ⟨rfl,hi,?_⟩
    rw [hn h (by simp)]
    exact ih (fun j hj => hn j (by simp [hj])) hc

theorem Linked.update {i x : Nat} (hi : i ∉ l) (hc : Linked next nil h l) :
    Linked (update next i x) nil h l :=
  hc.congr fun _ hj => update_of_ne (ne_of_mem_of_not_mem hj hi) _ _

theorem Linked.eq_nil_iff (hc : Linked next nil h l) : h = nil ↔ l = [] := by
  cases l with
  | nil => simpa [Linked] using hc
  | cons i l =>
    obtain ⟨rfl,hi,-⟩ := hc
    simp [hi]

theorem Linked.append {t i : Nat} (hc : Linked next nil h (l ++ [t]))
    (hl : (l ++ [t]).Nodup) (hi : i ∉ l ++ [t]) (hnil : i ≠ nil) :
    Linked (Function.update (Function.update next t i) i nil) nil h (l ++ [t,i]) := by
  induction l generalizing h with
  | nil =>
    obtain ⟨rfl,ht,-⟩ := hc
    have hti : h ≠ i := by simpa using Ne.symm (by simpa using hi)
    refine ⟨rfl,ht,?_,hnil,?_⟩
    · simp [hti]
    · simp [Linked]
  | cons j l ih =>
    obtain ⟨rfl,hj,hc⟩ := hc
    simp only [List.cons_append,List.nodup_cons,List.mem_cons,not_or] at hl hi
    have hjt : h ≠ t := fun e => hl.1 (by simp [e])
    refine ⟨rfl,hj,?_⟩
    rw [update_of_ne (Ne.symm hi.1),update_of_ne hjt]
    exact ih hc hl.2 hi.2

end Chain

theorem linked_range (n : Nat) {nil i : Nat} {next : Nat → Nat} (hi : i ≤ n) (hn : n < nil)
    (hnext : ∀ j, j < n → next j = if j = n-1 then nil else j+1) :
    Linked next nil (if i = n then nil else i) (List.range' i (n-i)) := by
  induction hk : n-i generalizing i with
  | zero =>
    have he : i = n := by omega
    simp [he,Linked]
  | succ k ih =>
    have hne : i ≠ n := by omega
    rw [if_neg hne,List.range'_succ]
    refine ⟨rfl,by omega,?_⟩
    have h := ih (i := i+1) (by omega) (by omega)
    rw [hnext i (by omega)]
    by_cases hl : i = n-1
    · have hs : i+1 = n := by omega
      rw [if_pos hs] at h
      rwa [if_pos hl]
    · have hs : i+1 ≠ n := by omega
      rw [if_neg hs] at h
      rwa [if_neg hl]

/-- Every one of the cells `0..n-1` is in exactly one of the chains, once. -/
structure Partition {ι : Type} [Fintype ι] (n nil : Nat) (next : Nat → Nat)
    (heads : ι → Nat) (chains : ι → List Nat) : Prop where
  chain : ∀ k, Linked next nil (heads k) (chains k)
  cover : ∑ k, (chains k : Multiset Nat) = Multiset.range n

section Partition
variable {ι : Type} [Fintype ι] {n nil : Nat} {next : Nat → Nat} {heads : ι → Nat}
  {chains : ι → List Nat}

theorem Partition.lt (hp : Partition n nil next heads chains) {k : ι} {i : Nat}
    (hi : i ∈ chains k) : i < n := by
  have hle : (chains k : Multiset Nat) ≤ ∑ k, (chains k : Multiset Nat) :=
    Finset.single_le_sum (f := fun k => (chains k : Multiset Nat))
      (fun _ _ => Multiset.zero_le _) (Finset.mem_univ k)
  rw [hp.cover] at hle
  exact Multiset.mem_range.mp (Multiset.mem_of_le hle (by simpa using hi))

theorem Partition.nodup (hp : Partition n nil next heads chains) (k : ι) :
    (chains k).Nodup := by
  have hle : (chains k : Multiset Nat) ≤ ∑ k, (chains k : Multiset Nat) :=
    Finset.single_le_sum (f := fun k => (chains k : Multiset Nat))
      (fun _ _ => Multiset.zero_le _) (Finset.mem_univ k)
  rw [hp.cover] at hle
  exact Multiset.coe_nodup.mp (Multiset.nodup_of_le hle (Multiset.nodup_range n))

theorem Partition.disjoint [DecidableEq ι] (hp : Partition n nil next heads chains) {k j : ι}
    (hkj : k ≠ j) {i : Nat} (hk : i ∈ chains k) : i ∉ chains j := by
  intro hj
  have hle : (chains k : Multiset Nat) + (chains j : Multiset Nat) ≤
      ∑ k, (chains k : Multiset Nat) := by
    rw [← Finset.sum_pair (f := fun k => (chains k : Multiset Nat)) hkj]
    exact Finset.sum_le_sum_of_subset (Finset.subset_univ _)
  rw [hp.cover] at hle
  have hn := Multiset.nodup_of_le hle (Multiset.nodup_range n)
  rw [Multiset.nodup_add] at hn
  exact Multiset.disjoint_left.mp hn.2.2 (by simpa using hk) (by simpa using hj)

theorem Partition.length (hp : Partition n nil next heads chains) :
    ∑ k, (chains k).length = n := by
  have h := congrArg Multiset.card hp.cover
  simpa using h

theorem Partition.length_le (hp : Partition n nil next heads chains) (k : ι) :
    (chains k).length ≤ n := by
  have h := Finset.single_le_sum (f := fun k => (chains k).length)
    (fun _ _ => Nat.zero_le _) (Finset.mem_univ k)
  rw [hp.length] at h
  exact h

variable [DecidableEq ι]

theorem sum_update_add {M : Type} [AddCommMonoid M] (f : ι → M) (k : ι) (b : M) :
    ∑ x, update f k b x + f k = ∑ x, f x + b := by
  rw [Finset.sum_update_of_mem (Finset.mem_univ k),
    ← Finset.add_sum_erase Finset.univ f (Finset.mem_univ k),Finset.sdiff_singleton_eq_erase]
  abel

theorem cover_move {k j : ι} (hkj : k ≠ j) {i : Nat} {l l' : List Nat}
    (hk : chains k = i :: l) (hj : (l' : Multiset Nat) = i ::ₘ (chains j : Multiset Nat)) :
    ∑ x, (update (update chains k l) j l' x : Multiset Nat) =
      ∑ x, (chains x : Multiset Nat) := by
  have hu : (fun x => (update (update chains k l) j l' x : Multiset Nat)) =
      update (update (fun x => (chains x : Multiset Nat)) k l) j l' := by
    funext x
    by_cases hxj : x = j
    · subst hxj; simp
    · by_cases hxk : x = k
      · subst hxk; simp [hxj]
      · simp [hxj,hxk]
  rw [hu]
  have h1 := sum_update_add (update (fun x => (chains x : Multiset Nat)) k l) j l'
  have h2 := sum_update_add (fun x => (chains x : Multiset Nat)) k l
  simp only [update_of_ne hkj.symm,hj,hk,← Multiset.cons_coe,← Multiset.singleton_add,
    ← add_assoc] at h1 h2
  rw [hj,← Multiset.singleton_add]
  exact (add_right_cancel h1).trans (add_right_cancel h2)

theorem Partition.push (hp : Partition n nil next heads chains) {k j : ι} (hkj : k ≠ j)
    {i : Nat} {l : List Nat} (hk : chains k = i :: l) :
    Partition n nil (update next i (heads j)) (update (update heads k (next i)) j i)
      (update (update chains k l) j (i :: chains j)) := by
  have hck := hp.chain k
  have hn := hp.nodup k
  have hik : i ∈ chains k := by simp [hk]
  have hij : i ∉ chains j := hp.disjoint hkj hik
  rw [hk] at hck hn
  refine ⟨fun x => ?_,?_⟩
  · by_cases hxj : x = j
    · subst hxj
      simp only [update_self]
      exact ⟨rfl,hck.2.1,by rw [update_self]; exact (hp.chain x).update hij⟩
    · rw [update_of_ne hxj,update_of_ne hxj]
      by_cases hxk : x = k
      · subst hxk
        simp only [update_self]
        exact hck.2.2.update (List.nodup_cons.mp hn).1
      · rw [update_of_ne hxk,update_of_ne hxk]
        exact (hp.chain x).update (hp.disjoint (Ne.symm hxk) hik)
  · rw [cover_move hkj hk (by simp)]
    exact hp.cover

/-- The first cell of `k` is linked behind the last cell `t` of `j`. -/
theorem Partition.append (hp : Partition n nil next heads chains) {k j : ι} (hkj : k ≠ j)
    {i t : Nat} {l m : List Nat} (hk : chains k = i :: l) (hj : chains j = m ++ [t]) :
    Partition n nil (update (update next t i) i nil) (update heads k (next i))
      (update (update chains k l) j (m ++ [t,i])) := by
  have hck := hp.chain k
  have hcj := hp.chain j
  have hn := hp.nodup k
  have hnj := hp.nodup j
  have hik : i ∈ chains k := by simp [hk]
  have htj : t ∈ chains j := by simp [hj]
  have hij : i ∉ chains j := hp.disjoint hkj hik
  have htk : t ∉ chains k := hp.disjoint hkj.symm htj
  rw [hk] at hck hn htk
  rw [hj] at hcj hnj hij
  refine ⟨fun x => ?_,?_⟩
  · by_cases hxj : x = j
    · subst hxj
      rw [update_self,update_of_ne hkj.symm]
      exact hcj.append hnj hij hck.2.1
    · rw [update_of_ne hxj]
      by_cases hxk : x = k
      · subst hxk
        simp only [update_self]
        have htl : t ∉ l := fun h => htk (by simp [h])
        exact (hck.2.2.update htl).update (List.nodup_cons.mp hn).1
      · rw [update_of_ne hxk,update_of_ne hxk]
        exact ((hp.chain x).update (hp.disjoint (Ne.symm hxj) htj)).update
          (hp.disjoint (Ne.symm hxk) hik)
  · have hl : ((m ++ [t,i] : List Nat) : Multiset Nat) = i ::ₘ (chains j : Multiset Nat) := by
      rw [hj,Multiset.cons_coe,Multiset.coe_eq_coe]
      have h : (m ++ [t] ++ [i]).Perm ([i] ++ (m ++ [t])) := List.perm_append_comm
      simpa using h
    rw [cover_move hkj hk hl]
    exact hp.cover

theorem Partition.start (hp : Partition n nil next heads chains) {k j : ι} (hkj : k ≠ j)
    {i : Nat} {l : List Nat} (hk : chains k = i :: l) (hj : chains j = []) :
    Partition n nil (update next i nil) (update (update heads k (next i)) j i)
      (update (update chains k l) j [i]) := by
  have hnil : heads j = nil := by simpa [hj,Linked] using hp.chain j
  have h := hp.push hkj hk
  rwa [hnil,hj] at h

end Partition

end ApxBus.LinkedCells
