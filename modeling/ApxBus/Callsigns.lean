import Mathlib.Logic.Relation
import Mathlib.Data.Fintype.Card
set_option autoImplicit false

/-!
Stations on one line, each under a label of its own choice. What a station sends reaches all
the others in order, and a station that hears its own label takes another and says so, if it can.
Nothing here depends on what else is sent, nor on how a new label is chosen.
-/

namespace ApxBus.Callsigns
open Function

section Trace
variable {ι S T : Type*}

/-- What a state becomes by steps that each name at most one station, and the stations named. -/
inductive Trace (R : S → Option ι → S → Prop) (s : S) : List ι → S → Prop where
  | refl : Trace R s [] s
  | tail {l : List ι} {t u : S} {o : Option ι} (h : Trace R s l t) (hs : R t o u) :
      Trace R s (l ++ o.toList) u

variable {R : S → Option ι → S → Prop} {s t : S} {l : List ι}

theorem Trace.invariant {P : S → Prop} (h : Trace R s l t) (h0 : P s)
    (hstep : ∀ t o u, P t → R t o u → P u) : P t := by
  induction h with
  | refl => exact h0
  | tail _ hs ih => exact hstep _ _ _ ih hs

theorem Trace.simulates {Q : T → Option ι → T → Prop} (f : S → T) (h : Trace R s l t)
    (hstep : ∀ t o u, R t o u → Q (f t) o (f u) ∨ o = none ∧ f t = f u) :
    Trace Q (f s) l (f t) := by
  induction h with
  | refl => exact .refl
  | tail _ hs ih =>
    rcases hstep _ _ _ hs with hq | ⟨rfl,he⟩
    · exact ih.tail hq
    · simpa [← he] using ih

end Trace

/-- `sending` holds the labels of the calls not yet on the line, `inbox` of those not yet heard.
`used` tells which stations have called under the label they bear. -/
structure State (ι L : Type*) where
  sign : ι → L
  used : ι → Prop
  sending : ι → List L
  inbox : ι → List L

variable {ι L : Type*} [DecidableEq ι]

namespace State

def start (sign : ι → L) : State ι L := ⟨sign,fun _ => False,fun _ => [],fun _ => []⟩

/-- One step of the line, with the station that changes its label in it. -/
inductive Step : State ι L → Option ι → State ι L → Prop where
  | call {s : State ι L} (i : ι) (n : Nat) :
      Step s none {s with
        used := update s.used i (s.used i ∨ 0 < n)
        sending := update s.sending i (s.sending i ++ List.replicate n (s.sign i))}
  | carry {s : State ι L} {i : ι} {l : L} {rest : List L} (h : s.sending i = l :: rest) :
      Step s none {s with
        sending := update s.sending i rest
        inbox := fun j => if j = i then s.inbox j else s.inbox j ++ [l]}
  | hear {s : State ι L} {i : ι} {l : L} {rest : List L} (h : s.inbox i = l :: rest)
      (hl : l ≠ s.sign i) : Step s none {s with inbox := update s.inbox i rest}
  | clash {s : State ι L} {i : ι} {rest : List L} (l : L) (n : Nat)
      (h : s.inbox i = s.sign i :: rest) :
      Step s (some i) ⟨update s.sign i l,update s.used i (0 < n),
        update s.sending i (s.sending i ++ List.replicate n l),update s.inbox i rest⟩

/-- A call of `i` under its label is still to be heard by `j`. -/
def Told (s : State ι L) (i j : ι) : Prop := s.sign i ∈ s.sending i ∨ s.sign i ∈ s.inbox j

def Announced (s : State ι L) : Prop :=
  ∀ i j, i ≠ j → s.sign i = s.sign j → s.used i → s.used j → s.Told i j ∨ s.Told j i

/-- Apart from `i` itself nobody bears the label, and `i` is not going to hear it. -/
structure Free (s : State ι L) (i : ι) (l : L) : Prop where
  sign : ∀ j, j ≠ i → s.sign j ≠ l
  sending : ∀ j, j ≠ i → l ∉ s.sending j
  inbox : l ∉ s.inbox i

def Settled (s : State ι L) (i : ι) : Prop := s.Free i (s.sign i)

variable {s s' t : State ι L} {o : Option ι} {i j : ι}

/-- The station whose call is to come keeps that call in one queue or the other. -/
theorem Told.step (h : s.Told i j) (hij : i ≠ j) (hs : s.Step o s') (hi : o ≠ some i)
    (hne : s.sign i = s.sign j) (hj : o ≠ some j) : s'.Told i j := by
  cases hs with
  | call k n =>
    refine h.imp (fun hm => ?_) id
    by_cases hk : i = k
    · subst hk
      simp [hm]
    · simpa [update_of_ne hk] using hm
  | @carry k l rest hq =>
    rcases h with hm | hm
    · by_cases hk : i = k
      · subst hk
        rw [hq] at hm
        rcases List.mem_cons.mp hm with hl | hm
        · exact Or.inr (by simp [Ne.symm hij,hl])
        · exact Or.inl (by simpa using hm)
      · exact Or.inl (by simpa [update_of_ne hk] using hm)
    · refine Or.inr ?_
      by_cases hk : j = k
      · simpa [hk] using hk ▸ hm
      · simp [hk,hm]
  | @hear k l rest hq hl =>
    refine h.imp id fun hm => ?_
    by_cases hk : j = k
    · subst hk
      rw [hq] at hm
      rcases List.mem_cons.mp hm with he | hm
      · exact absurd (he.symm.trans hne) hl
      · simpa using hm
    · simpa [update_of_ne hk] using hm
  | @clash k rest l n hq =>
    have hik : i ≠ k := fun h => hi (congrArg some h.symm)
    have hjk : j ≠ k := fun h => hj (congrArg some h.symm)
    simpa [Told,update_of_ne hik,update_of_ne hjk] using h

theorem Step.told (hs : s.Step o s') (hu : s'.used i) (hn : ¬ s.used i ∨ o = some i) :
    s'.sign i ∈ s'.sending i := by
  cases hs with
  | call k n =>
    rcases hn with hn | hn
    · by_cases hk : i = k
      · subst hk
        have hpos : 0 < n := by simpa [hn] using hu
        simp [Nat.pos_iff_ne_zero.mp hpos]
      · exact absurd (by simpa [update_of_ne hk] using hu) hn
    · simp at hn
  | carry hq => exact absurd hu (hn.resolve_right (by simp))
  | hear hq hl => exact absurd hu (hn.resolve_right (by simp))
  | @clash k rest l n hq =>
    by_cases hk : i = k
    · subst hk
      have hpos : 0 < n := by simpa using hu
      simp [Nat.pos_iff_ne_zero.mp hpos]
    · have hu' : s.used i := by simpa [update_of_ne hk] using hu
      rcases hn with hn | hn
      · exact absurd hu' hn
      · exact absurd (Option.some.inj hn).symm hk

theorem Step.sign_eq (hs : s.Step o s') (hi : o ≠ some i) : s'.sign i = s.sign i := by
  cases hs with
  | call k n => rfl
  | carry hq => rfl
  | hear hq hl => rfl
  | clash l n hq => exact update_of_ne (fun h => hi (congrArg some h.symm)) _ _

theorem Announced.step (h : s.Announced) (hs : s.Step o s') : s'.Announced := by
  intro i j hij hsign hui huj
  by_cases hi : ¬ s.used i ∨ o = some i
  · exact Or.inl (Or.inl (hs.told hui hi))
  by_cases hj : ¬ s.used j ∨ o = some j
  · exact Or.inr (Or.inl (hs.told huj hj))
  push Not at hi hj
  have hold : s.sign i = s.sign j := by rwa [← hs.sign_eq hi.2,← hs.sign_eq hj.2]
  exact (h i j hij hold hi.1 hj.1).imp (fun ht => ht.step hij hs hi.2 hold hj.2)
    fun ht => ht.step (Ne.symm hij) hs hj.2 hold.symm hi.2

theorem Announced.run {l : List ι} (h : s.Announced) (hr : Trace Step s l t) : t.Announced :=
  hr.invariant h fun _ _ _ ha hs => ha.step hs

omit [DecidableEq ι] in
theorem Announced.apart (h : s.Announced) {l : L} (hs : ∀ k, l ∉ s.sending k ∧ l ∉ s.inbox k)
    (hi : s.used i) (hj : s.used j) (hil : s.sign i = l) (hjl : s.sign j = l) : i = j := by
  by_contra hij
  rcases h i j hij (hil.trans hjl.symm) hi hj with h | h
  · rw [Told,hil] at h
    exact h.elim (hs i).1 (hs j).2
  · rw [Told,hjl] at h
    exact h.elim (hs j).1 (hs i).2

theorem Free.step {l : L} (h : s.Free i l) (hl : s.sign i = l) (hs : s.Step o s')
    (hn : ∀ j, o = some j → s'.sign j ≠ l) : s'.Free i l := by
  subst hl
  cases hs with
  | call k n =>
    refine ⟨h.sign,fun j hj => ?_,h.inbox⟩
    by_cases hk : j = k
    · subst hk
      simp [h.sending j hj,Ne.symm (h.sign j hj)]
    · simpa [update_of_ne hk] using h.sending j hj
  | @carry k l rest hq =>
    refine ⟨h.sign,fun j hj => ?_,?_⟩
    · by_cases hk : j = k
      · subst hk
        have hm := h.sending j hj
        rw [hq] at hm
        simpa using List.not_mem_of_not_mem_cons hm
      · simpa [update_of_ne hk] using h.sending j hj
    · by_cases hk : i = k
      · simpa [hk] using hk ▸ h.inbox
      · have hm := h.sending k (Ne.symm hk)
        rw [hq] at hm
        simp [hk,h.inbox,List.ne_of_not_mem_cons hm]
  | @hear k l rest hq hl =>
    refine ⟨h.sign,h.sending,?_⟩
    by_cases hk : i = k
    · subst hk
      have hm := h.inbox
      rw [hq] at hm
      simpa using List.not_mem_of_not_mem_cons hm
    · simpa [update_of_ne hk] using h.inbox
  | @clash k rest l n hq =>
    have hk : i ≠ k := by
      rintro rfl
      exact h.inbox (by simp [hq])
    have hlk : l ≠ s.sign i := by simpa using hn k rfl
    refine ⟨fun j hj => ?_,fun j hj => ?_,by simpa [update_of_ne hk] using h.inbox⟩
    · by_cases hjk : j = k
      · subst hjk
        simpa using hlk
      · simpa [update_of_ne hjk] using h.sign j hj
    · by_cases hjk : j = k
      · subst hjk
        simp [h.sending j hj,Ne.symm hlk]
      · simpa [update_of_ne hjk] using h.sending j hj

theorem Settled.no_clash (h : s.Settled i) (hs : s.Step o s') : o ≠ some i := by
  rintro rfl
  cases hs with
  | clash l n hq => exact h.inbox (by simp [hq])

theorem Settled.step (h : s.Settled i) (hs : s.Step o s')
    (hn : ∀ j, o = some j → s'.sign j ≠ s.sign i) : s'.Settled i := by
  rw [Settled,hs.sign_eq (h.no_clash hs)]
  exact Free.step h rfl hs hn

theorem Step.settles (hs : s.Step (some i) s') (hf : s.Free i (s'.sign i)) : s'.Settled i := by
  cases hs with
  | @clash _ rest l n hq =>
    dsimp only at hf
    rw [update_self] at hf
    have hin := hf.inbox
    rw [hq] at hin
    refine ⟨fun j hj => ?_,fun j hj => ?_,?_⟩
    · simpa [update_of_ne hj] using hf.sign j hj
    · simpa [update_of_ne hj] using hf.sending j hj
    · simpa using List.not_mem_of_not_mem_cons hin

def FreshStep (s : State ι L) (o : Option ι) (s' : State ι L) : Prop :=
  s.Step o s' ∧ ∀ i, o = some i → s.Free i (s'.sign i)

theorem settled_fresh {l : List ι} (h : Trace FreshStep s l t) :
    l.Nodup ∧ (∀ i, i ∈ l → t.Settled i) ∧
      ∀ i, s.Settled i → t.Settled i ∧ i ∉ l ∧ t.sign i = s.sign i := by
  induction h with
  | refl => exact ⟨List.nodup_nil,by simp,fun _ h => ⟨h,by simp,rfl⟩⟩
  | @tail l t u o _ hs ih =>
    obtain ⟨hs,hf⟩ := hs
    obtain ⟨hnd,hset,hkeep⟩ := ih
    have hstep : ∀ i, t.Settled i → u.Settled i := by
      intro i hi
      refine hi.step hs fun j hj he => ?_
      have hij : i ≠ j := fun h => hi.no_clash hs (h ▸ hj)
      exact (hf j hj).sign i hij he.symm
    refine ⟨?_,fun i hi => ?_,fun i hi => ?_⟩
    · cases o with
      | none => simpa using hnd
      | some i =>
        have hi : i ∉ l := fun h => (hset i h).no_clash hs rfl
        simpa [List.nodup_append,hnd] using fun a ha (he : a = i) => hi (he ▸ ha)
    · rcases List.mem_append.mp hi with hi | hi
      · exact hstep i (hset i hi)
      · have ho : o = some i := by simpa using hi
        subst ho
        exact hs.settles (hf i rfl)
    · obtain ⟨ht,hil,he⟩ := hkeep i hi
      have ho := ht.no_clash hs
      exact ⟨hstep i ht,by simpa [hil] using ho,(hs.sign_eq ho).trans he⟩

/-- Each label on its way is that of its sender. -/
structure Known (s : State ι L) : Prop where
  sending : ∀ i, ∀ l ∈ s.sending i, l = s.sign i
  inbox : ∀ i, ∀ l ∈ s.inbox i, ∃ j, j ≠ i ∧ l = s.sign j

theorem Known.step (h : s.Known) (hi : Injective s.sign) (hs : s.Step o s') :
    o = none ∧ s'.sign = s.sign ∧ s'.Known := by
  cases hs with
  | call k n =>
    refine ⟨rfl,rfl,fun i l hl => ?_,h.inbox⟩
    by_cases hk : i = k
    · subst hk
      dsimp only at hl
      rw [update_self,List.mem_append] at hl
      exact hl.elim (h.sending i l) List.eq_of_mem_replicate
    · exact h.sending i l (by simpa [update_of_ne hk] using hl)
  | @carry k m rest hq =>
    refine ⟨rfl,rfl,fun i l hl => ?_,fun i l hl => ?_⟩
    · by_cases hk : i = k
      · subst hk
        exact h.sending i l (by rw [hq]; exact List.mem_cons_of_mem _ (by simpa using hl))
      · exact h.sending i l (by simpa [update_of_ne hk] using hl)
    · by_cases hk : i = k
      · exact h.inbox i l (by simpa [hk] using hl)
      · have hl' : l ∈ s.inbox i ∨ l = m := by simpa [hk] using hl
        rcases hl' with hl | rfl
        · exact h.inbox i l hl
        · exact ⟨k,Ne.symm hk,h.sending k l (by simp [hq])⟩
  | @hear k m rest hq hne =>
    refine ⟨rfl,rfl,h.sending,fun i l hl => ?_⟩
    by_cases hk : i = k
    · subst hk
      exact h.inbox i l (by rw [hq]; exact List.mem_cons_of_mem _ (by simpa using hl))
    · exact h.inbox i l (by simpa [update_of_ne hk] using hl)
  | @clash k rest l n hq =>
    obtain ⟨j,hj,he⟩ := h.inbox k (s.sign k) (by simp [hq])
    exact absurd (hi he) (Ne.symm hj)

theorem known_run {sign : ι → L} (hi : Injective sign) {l : List ι}
    (h : Trace Step (start sign) l t) : l = [] ∧ t.sign = sign ∧ t.Known := by
  induction h with
  | refl => exact ⟨rfl,rfl,fun _ _ h => absurd h List.not_mem_nil,
      fun _ _ h => absurd h List.not_mem_nil⟩
  | tail _ hs ih =>
    obtain ⟨rfl,hsign,hk⟩ := ih
    obtain ⟨rfl,hs',hk'⟩ := hk.step (hsign ▸ hi) hs
    exact ⟨rfl,hs'.trans hsign,hk'⟩

end State

end ApxBus.Callsigns
