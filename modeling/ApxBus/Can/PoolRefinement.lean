import ApxBus.Can.Assembly
import Mathlib.Algebra.BigOperators.Fin
set_option autoImplicit false

/-! The linked pool refines the assemblies: every operation, from related states, has a result,
returns what the abstract one returns and leads to related states. -/

namespace ApxBus.Can
open Function LinkedCells

def Pool.next (p : Pool) (i : Nat) : Nat := (p.items i).next

def Pool.data (p : Pool) (i : Nat) : Vector Byte 8 := (p.items i).data

/-- The owners of items are the trees and, as `none`, the free list. -/
def Pool.heads (p : Pool) : Option (Fin sizeTrees) → Nat
  | none => p.free
  | some k => (p.trees k).head

def Pool.Holds (p : Pool) (k : Fin sizeTrees) (l : List Nat) : Option Assembly → Prop
  | none => l = []
  | some s => l ≠ [] ∧ l.map p.data = s.chunks ∧ (p.trees k).extid = s.extid ∧
      (p.trees k).dlc = s.dlc ∧ (p.trees k).timeout = s.timeout

/-- The items are partitioned into the given chains, and the chains hold the assemblies. -/
structure Pool.Rep (p : Pool) (a : Assemblies) (chains : Option (Fin sizeTrees) → List Nat) :
    Prop where
  part : Partition sizeItems maxIdx p.next p.heads chains
  holds : ∀ k, p.Holds k (chains (some k)) (a k)

def Pool.Refines (p : Pool) (a : Assemblies) : Prop := ∃ chains, p.Rep a chains

section Records
variable (p : Pool) (i : Nat) (x : Item) (k : Fin sizeTrees) (t : Tree)

@[simp] theorem Pool.next_setItem : (p.setItem i x).next = update p.next i x.next := by
  funext j
  by_cases h : j = i <;> simp [next,setItem,update,h]

@[simp] theorem Pool.data_setItem : (p.setItem i x).data = update p.data i x.data := by
  funext j
  by_cases h : j = i <;> simp [data,setItem,update,h]

@[simp] theorem Pool.trees_setItem : (p.setItem i x).trees = p.trees := rfl

@[simp] theorem Pool.free_setItem : (p.setItem i x).free = p.free := rfl

@[simp] theorem Pool.next_setTree : (p.setTree k t).next = p.next := rfl

@[simp] theorem Pool.data_setTree : (p.setTree k t).data = p.data := rfl

@[simp] theorem Pool.free_setTree : (p.setTree k t).free = p.free := rfl

@[simp] theorem Pool.trees_setTree : (p.setTree k t).trees = update p.trees k t := rfl

@[simp] theorem Pool.items_setTree : (p.setTree k t).items = p.items := rfl

@[simp] theorem Pool.heads_setTree :
    (p.setTree k t).heads = update p.heads (some k) t.head := by
  funext j
  cases j with
  | none => rfl
  | some j => by_cases h : j = k <;> simp [heads,setTree,update,h]

/-- `pushItem` when the free list is not empty. -/
def Pool.take (data : Vector Byte 8) : Pool :=
  {p.setItem p.free ⟨maxIdx,data⟩ with free := p.next p.free}

@[simp] theorem Pool.next_take (data : Vector Byte 8) :
    (p.take data).next = update p.next p.free maxIdx := p.next_setItem p.free ⟨maxIdx,data⟩

@[simp] theorem Pool.data_take (data : Vector Byte 8) :
    (p.take data).data = update p.data p.free data := p.data_setItem p.free ⟨maxIdx,data⟩

@[simp] theorem Pool.trees_take (data : Vector Byte 8) : (p.take data).trees = p.trees := rfl

@[simp] theorem Pool.heads_take (data : Vector Byte 8) :
    (p.take data).heads = update p.heads none (p.next p.free) := by
  funext j
  cases j <;> rfl

theorem Pool.item_of_lt {i : Nat} (h : i < sizeItems) : p.item i = some (p.items i) := by
  simp [item,h]

theorem Pool.pushItem_of_lt (data : Vector Byte 8) (h : p.free < sizeItems) :
    p.pushItem data = some (p.take data) := by
  simp [pushItem,p.item_of_lt h,take,next]

end Records

section Holds
variable {p q : Pool} {k : Fin sizeTrees} {l : List Nat} {o : Option Assembly}

theorem Pool.Holds.congr (hd : ∀ i ∈ l, q.data i = p.data i) (ht : q.trees k = p.trees k)
    (h : p.Holds k l o) : q.Holds k l o := by
  cases o with
  | none => exact h
  | some s =>
    have hm : l.map q.data = l.map p.data := List.map_congr_left hd
    simpa only [Holds,hm,ht] using h

end Holds

section Rep
variable {p : Pool} {a : Assemblies} {chains : Option (Fin sizeTrees) → List Nat}

theorem Pool.Rep.head_eq (h : p.Rep a chains) (k : Fin sizeTrees) :
    (p.trees k).head = maxIdx ↔ a k = none := by
  have hc : (p.trees k).head = maxIdx ↔ chains (some k) = [] :=
    (h.part.chain (some k)).eq_nil_iff
  have hk := h.holds k
  rw [hc]
  cases hs : a k with
  | none => simpa [hs,Holds] using hk
  | some s =>
    rw [hs] at hk
    simp [hk.1]

theorem Pool.Rep.length_eq (h : p.Rep a chains) (k : Fin sizeTrees) :
    (chains (some k)).length = ((a k).elim [] Assembly.chunks).length := by
  have hk := h.holds k
  cases hs : a k with
  | none =>
    rw [hs] at hk
    rw [show chains (some k) = [] from hk]
    rfl
  | some s =>
    rw [hs] at hk
    simp [← hk.2.1]

theorem Pool.Rep.used_eq (h : p.Rep a chains) :
    (chains none).length + a.used = sizeItems := by
  have hl := h.part.length
  rw [Fintype.sum_option] at hl
  rw [← hl,Assemblies.used,Finset.sum_congr rfl fun k _ => (h.length_eq k).symm]

theorem Pool.Rep.free_eq (h : p.Rep a chains) : p.free = maxIdx ↔ a.used = sizeItems := by
  have hc : p.free = maxIdx ↔ chains none = [] := (h.part.chain none).eq_nil_iff
  have hu := h.used_eq
  rw [hc,← List.length_eq_zero_iff]
  omega

theorem Pool.Rep.setTree (h : p.Rep a chains) {k : Fin sizeTrees} {s : Assembly}
    (hs : a k = some s) (t : Tree) (ht : t.head = (p.trees k).head) :
    (p.setTree k t).Rep (update a k (some ⟨t.extid,t.dlc,t.timeout,s.chunks⟩)) chains := by
  have hh : update p.heads (some k) t.head = p.heads := by rw [ht]; exact update_eq_self _ _
  refine ⟨by simpa [hh] using h.part,fun j => ?_⟩
  by_cases hj : j = k
  · subst hj
    have hk := h.holds j
    rw [hs] at hk
    rw [update_self]
    exact ⟨hk.1,hk.2.1,by simp,by simp,by simp⟩
  · rw [update_of_ne hj]
    exact Holds.congr (p := p) (fun _ _ => rfl) (by simp [hj]) (h.holds j)

theorem Pool.Rep.free_cons (h : p.Rep a chains) (hf : p.free ≠ maxIdx) :
    ∃ f fs, chains none = f :: fs ∧ p.free = f ∧ f < sizeItems := by
  have hc := h.part.chain none
  cases hn : chains none with
  | nil => rw [hn] at hc; exact absurd hc hf
  | cons f fs =>
    rw [hn] at hc
    exact ⟨f,fs,rfl,hc.1,h.part.lt (k := none) (by simp [hn])⟩

theorem Pool.Rep.start (h : p.Rep a chains) {k : Fin sizeTrees} (hk : a k = none)
    (hf : p.free ≠ maxIdx) (t : Tree) (ht : t.head = p.free) (data : Vector Byte 8) :
    (p.setTree k t).pushItem data = some ((p.setTree k t).take data) ∧
      ((p.setTree k t).take data).Refines
        (update a k (some ⟨t.extid,t.dlc,t.timeout,[data]⟩)) := by
  obtain ⟨f,fs,hn,hff,hlt⟩ := h.free_cons hf
  have hke : chains (some k) = [] := by have hh := h.holds k; rwa [hk] at hh
  have hp := h.part.start (Option.some_ne_none k).symm hn hke
  refine ⟨pushItem_of_lt _ _ (by simpa [hff] using hlt),
    update (update chains none fs) (some k) [f],?_,fun j => ?_⟩
  · convert hp using 1
    · simp [hff]
    · rw [heads_take,heads_setTree,update_comm (by simp)]
      simp [ht,hff]
  · by_cases hj : j = k
    · subst hj
      simp [Holds,hff]
    · have hd : ∀ i ∈ chains (some j), i ≠ f := fun i hi e =>
        h.part.disjoint (k := some j) (j := none) (by simp) hi (by simp [hn,e])
      rw [update_of_ne hj,update_of_ne (by simpa using hj),update_of_ne (by simp)]
      refine Holds.congr (p := p) (fun i hi => ?_) (by simp [hj]) (h.holds j)
      simp [hff,hd i hi]

/-- The first free item becomes the last item of a tree in assembly. -/
theorem Pool.Rep.append (h : p.Rep a chains) {k : Fin sizeTrees} {s : Assembly}
    (hs : a k = some s) (hf : p.free ≠ maxIdx) {m : List Nat} {t : Nat}
    (hm : chains (some k) = m ++ [t]) (data : Vector Byte 8) :
    let q := (p.setTree k {p.trees k with timeout := xcanCodecTimeout}).setItem t
      {p.items t with next := p.free}
    q.pushItem data = some (q.take data) ∧
      (q.take data).Refines (update a k (some {s with
        timeout := xcanCodecTimeout, chunks := s.chunks ++ [data]})) := by
  intro q
  obtain ⟨f,fs,hn,hff,hlt⟩ := h.free_cons hf
  have hp := h.part.append (Option.some_ne_none k).symm hn hm
  have hk := h.holds k
  rw [hs] at hk
  obtain ⟨-,hdata,hext,hdlc,-⟩ := hk
  have hfk : f ∉ chains (some k) :=
    h.part.disjoint (Option.some_ne_none k).symm (by simp [hn])
  have htf : t ≠ f := fun e => hfk (by simp [hm,e])
  have hqd : q.data = p.data := by
    simp only [q,data_setItem,data_setTree]
    exact update_eq_self t p.data
  have hqf : q.free = f := hff
  have hqn : q.next = update p.next t f := by simp [q,hff]
  refine ⟨pushItem_of_lt _ _ (by rw [hqf]; exact hlt),
    update (update chains none fs) (some k) (m ++ [t,f]),?_,fun j => ?_⟩
  · convert hp using 1
    · simp [hqn,hqf]
    · rw [heads_take,hqn,hqf,update_of_ne htf.symm]
      congr 1
      funext x
      cases x with
      | none => rfl
      | some x => by_cases hx : x = k <;> simp [q,heads,setItem,hx]
  · by_cases hj : j = k
    · subst hj
      rw [update_self,update_self]
      refine ⟨by simp,?_,by simp [q,hext],by simp [q,hdlc],by simp [q]⟩
      have hmap : ∀ i ∈ chains (some j), (q.take data).data i = p.data i := fun i hi => by
        rw [data_take,hqd,hqf,update_of_ne (ne_of_mem_of_not_mem hi hfk)]
      have hlast : (q.take data).data f = data := by simp [hqf]
      have hl := List.map_congr_left hmap
      rw [hdata,hm,List.map_append] at hl
      simp only [List.map_append,List.map_cons,List.map_nil] at hl ⊢
      rw [hlast,← hl]
      simp
    · have hd : ∀ i ∈ chains (some j), i ≠ f := fun i hi e =>
        h.part.disjoint (k := some j) (j := none) (by simp) hi (by simp [hn,e])
      rw [update_of_ne hj,update_of_ne (by simpa using hj),update_of_ne (by simp)]
      refine Holds.congr (p := p) (fun i hi => ?_) (by simp [q,hj]) (h.holds j)
      rw [data_take,hqd,hqf,update_of_ne (hd i hi)]

/-- One round of `removeTree`: the first item of the tree goes back to the free list. -/
theorem Pool.Rep.release (h : p.Rep a chains) {k : Fin sizeTrees} {s : Assembly}
    (hs : a k = some s) :
    let t := p.trees k
    let q := p.setTree k {t with head := p.next t.head}
    p.item t.head = some (p.items t.head) ∧
      ({q.setItem t.head {p.items t.head with next := p.free} with free := t.head} : Pool).Refines
        (update a k (if s.chunks.length ≤ 1 then none
          else some {s with chunks := s.chunks.tail})) := by
  intro t q
  have hk := h.holds k
  have hc := h.part.chain (some k)
  rw [hs] at hk
  obtain ⟨hne,hdata,hext,hdlc,hto⟩ := hk
  cases hl : chains (some k) with
  | nil => exact absurd hl hne
  | cons i l =>
    rw [hl] at hc hdata
    have hti : t.head = i := hc.1
    have hlt : i < sizeItems := h.part.lt (k := some k) (by simp [hl])
    have hp := h.part.push (Option.some_ne_none k) hl
    have hil : i ∉ l := (List.nodup_cons.mp (hl ▸ h.part.nodup (some k))).1
    refine ⟨item_of_lt _ (hti ▸ hlt),
      update (update chains (some k) l) none (i :: chains none),?_,fun j => ?_⟩
    · convert hp using 1
      · funext x
        by_cases hx : x = i <;> simp [q,next,heads,setItem,hti,hx]
      · funext x
        cases x with
        | none => simp [heads,hti]
        | some x => by_cases hx : x = k <;> simp [q,heads,setItem,hti,hx]
    · have hd : ∀ x, (p.items x).data = p.data x := fun _ => rfl
      rw [update_of_ne (by simp)]
      by_cases hj : j = k
      · subst hj
        rw [update_self,update_self]
        cases l with
        | nil =>
          have h1 : s.chunks.length ≤ 1 := by rw [← hdata]; simp
          rw [if_pos h1]
          rfl
        | cons i' l =>
          have h1 : ¬ s.chunks.length ≤ 1 := by rw [← hdata]; simp
          rw [if_neg h1]
          refine ⟨by simp,?_,by simp [q,setItem,t,hext],by simp [q,setItem,t,hdlc],
            by simp [q,setItem,t,hto]⟩
          rw [← hdata]
          refine List.map_congr_left fun x hx => ?_
          simp [data,q,setItem,hti,ne_of_mem_of_not_mem hx hil]
      · have hdj : i ∉ chains (some j) :=
          h.part.disjoint (k := some k) (by simpa using Ne.symm hj) (by simp [hl])
        rw [update_of_ne hj,update_of_ne (by simpa using hj)]
        refine Holds.congr (p := p) (fun x hx => ?_) (by simp [q,setItem,hj]) (h.holds j)
        simp [data,q,setItem,hti,ne_of_mem_of_not_mem hx hdj]

/-- `remove(Tree &t)` ends after at most as many rounds as the tree has items. -/
theorem Pool.Refines.removeTree {p : Pool} {a : Assemblies} (h : p.Refines a)
    (k : Fin sizeTrees) (fuel : Nat) (hf : ((a k).elim [] Assembly.chunks).length ≤ fuel) :
    ∃ q, p.removeTree k fuel = some q ∧ q.Refines (update a k none) := by
  induction fuel generalizing p a with
  | zero =>
    obtain ⟨chains,hr⟩ := h
    have hn : a k = none := by
      have hl := hr.length_eq k
      have hk := hr.holds k
      cases hs : a k with
      | none => rfl
      | some s =>
        rw [hs] at hk
        have h0 := List.length_pos_iff.mpr hk.1
        omega
    refine ⟨p,by simp [Pool.removeTree,(hr.head_eq k).mpr hn],chains,?_⟩
    rwa [← hn,update_eq_self]
  | succ fuel ih =>
    obtain ⟨chains,hr⟩ := h
    cases hs : a k with
    | none =>
      refine ⟨p,by simp [Pool.removeTree,(hr.head_eq k).mpr hs],chains,?_⟩
      rwa [← hs,update_eq_self]
    | some s =>
      have hh : (p.trees k).head ≠ maxIdx := fun e => by
        rw [(hr.head_eq k).mp e] at hs; simp at hs
      obtain ⟨hi,hq⟩ := hr.release hs
      have hlen : ((update a k (if s.chunks.length ≤ 1 then none
          else some {s with chunks := s.chunks.tail}) k).elim [] Assembly.chunks).length ≤
          fuel := by
        rw [hs] at hf
        simp only [Option.elim_some] at hf
        rw [update_self]
        split_ifs
        · simp
        · simp; omega
      obtain ⟨q,hq,hqr⟩ := ih hq hlen
      refine ⟨q,?_,by simpa using hqr⟩
      rw [Pool.removeTree]
      simp only [hh,if_false,hi,Option.bind_eq_bind,Option.bind_some]
      exact hq

end Rep

theorem foldlM_refines {σ : Type} (proj : σ → Pool) (body : σ → Fin sizeTrees → Option σ)
    (f : Option Assembly → Option Assembly)
    (step : ∀ s a k, (proj s).Refines a →
      ∃ s', body s k = some s' ∧ (proj s').Refines (update a k (f (a k))))
    (ks : List (Fin sizeTrees)) (hks : ks.Nodup) (s : σ) (a : Assemblies)
    (h : (proj s).Refines a) :
    ∃ s', ks.foldlM body s = some s' ∧
      (proj s').Refines (fun k => if k ∈ ks then f (a k) else a k) := by
  induction ks generalizing s a with
  | nil => exact ⟨s,rfl,by simpa using h⟩
  | cons k ks ih =>
    obtain ⟨hk,hks⟩ := List.nodup_cons.mp hks
    obtain ⟨s₁,hs₁,h₁⟩ := step s a k h
    obtain ⟨s₂,hs₂,h₂⟩ := ih hks s₁ _ h₁
    refine ⟨s₂,by simp [List.foldlM_cons,hs₁,hs₂],?_⟩
    convert h₂ using 1
    funext j
    by_cases hj : j = k
    · subst hj; simp [hk]
    · simp [hj]

theorem Pool.Refines.remove {p : Pool} {a : Assemblies} (h : p.Refines a) (extid : Extid) :
    ∃ q, p.remove extid = some q ∧ q.Refines (a.remove extid) := by
  have hstep : ∀ (p : Pool) (a : Assemblies) (k : Fin sizeTrees), p.Refines a →
      ∃ q, Pool.removeAt extid p k = some q ∧
        q.Refines (update a k (Assemblies.discard extid (a k))) := by
    rintro p a k ⟨chains,hr⟩
    have hk := hr.holds k
    have hhead := hr.head_eq k
    cases hs : a k with
    | none =>
      refine ⟨p,by simp [Pool.removeAt,hhead.mpr hs],chains,?_⟩
      simpa [Assemblies.discard,← hs,update_eq_self] using hr
    | some s =>
      rw [hs] at hk hhead
      obtain ⟨-,-,hext,hdlc,-⟩ := hk
      have hne : (p.trees k).head ≠ maxIdx := by simp [hhead]
      by_cases haw : s.Awaits extid
      · obtain ⟨q,hq,hqr⟩ := Pool.Refines.removeTree ⟨chains,hr⟩ k sizeItems
          (by rw [← hr.length_eq]; exact hr.part.length_le _)
        refine ⟨q,?_,by simpa [Assemblies.discard,haw] using hqr⟩
        simpa [Pool.removeAt,hne,hext,hdlc,haw.1,haw.2] using hq
      · refine ⟨p,?_,chains,?_⟩
        · rw [Assembly.Awaits,not_and] at haw
          by_cases hd : s.dlc = 0#8
          · simp [Pool.removeAt,hne,hext,hdlc,hd,haw hd]
          · simp [Pool.removeAt,hne,hdlc,hd]
        · simpa [Assemblies.discard,haw,← hs,update_eq_self] using hr
  obtain ⟨q,hq,hqr⟩ := foldlM_refines id (Pool.removeAt extid) (Assemblies.discard extid)
    hstep (List.finRange sizeTrees) (List.nodup_finRange _) p a h
  simp only [List.mem_finRange,if_true] at hqr
  exact ⟨q,hq,hqr⟩

theorem Pool.Refines.timeout {p : Pool} {a : Assemblies} (h : p.Refines a) :
    ∃ q rv, p.timeout = some (q,rv) ∧ q.Refines a.timeout := by
  have hstep : ∀ (s : Pool × Bool) (a : Assemblies) (k : Fin sizeTrees), s.1.Refines a →
      ∃ s', Pool.timeoutAt s k = some s' ∧
        s'.1.Refines (update a k (Assemblies.age (a k))) := by
    rintro ⟨p,rv⟩ a k ⟨chains,hr⟩
    change p.Rep a chains at hr
    have hk := hr.holds k
    have hhead := hr.head_eq k
    cases hs : a k with
    | none =>
      refine ⟨(p,rv),by simp [Pool.timeoutAt,hhead.mpr hs],chains,?_⟩
      simpa [Assemblies.age,← hs,update_eq_self] using hr
    | some s =>
      rw [hs] at hk hhead
      obtain ⟨-,-,hext,hdlc,hto⟩ := hk
      have hne : (p.trees k).head ≠ maxIdx := by simp [hhead]
      by_cases hd : s.dlc = 0#8
      · by_cases ht : s.timeout = 0
        · obtain ⟨q,hq,hqr⟩ := Pool.Refines.removeTree ⟨chains,hr⟩ k sizeItems
            (by rw [← hr.length_eq]; exact hr.part.length_le _)
          refine ⟨(q,true),?_,by simpa [Assemblies.age,hd,ht] using hqr⟩
          simp [Pool.timeoutAt,hne,hdlc,hd,hto,ht,hq]
        · refine ⟨_,by simp [Pool.timeoutAt,hne,hdlc,hd,hto,ht]; rfl,chains,?_⟩
          have hst := hr.setTree hs {p.trees k with timeout := s.timeout-1} rfl
          simpa [Assemblies.age,hd,ht,hext,hdlc] using hst
      · refine ⟨(p,rv),by simp [Pool.timeoutAt,hne,hdlc,hd],chains,?_⟩
        simpa [Assemblies.age,hd,← hs,update_eq_self] using hr
  obtain ⟨⟨q,rv⟩,hq,hqr⟩ := foldlM_refines Prod.fst Pool.timeoutAt Assemblies.age
    hstep (List.finRange sizeTrees) (List.nodup_finRange _) (p,false) a h
  simp only [List.mem_finRange,if_true] at hqr
  exact ⟨q,rv,hq,hqr⟩

theorem Pool.Refines.orphan {p : Pool} {a : Assemblies} (h : p.Refines a) (extid : Extid)
    (rv : ErrorType) :
    ∃ q, p.orphan extid rv = some (q,rv) ∧ q.Refines (a.remove extid).timeout := by
  obtain ⟨q₁,hq₁,h₁⟩ := h.remove extid
  obtain ⟨q₂,b,hq₂,h₂⟩ := h₁.timeout
  exact ⟨q₂,by simp [Pool.orphan,hq₁,hq₂],h₂⟩

/-- The walk of `push_next(Tree &t)` reaches the last item of the chain. -/
theorem Pool.pushTail_eq (p : Pool) (k : Fin sizeTrees) (data : Vector Byte 8) {m : List Nat}
    {t : Nat} {next cnt : Nat} (hc : Linked p.next maxIdx next (m ++ [t]))
    (hlt : ∀ i ∈ m ++ [t], i < sizeItems) (hcnt : (m ++ [t]).length ≤ cnt) :
    p.pushTail k data cnt next = (do
      let q ← ((p.setTree k {p.trees k with timeout := xcanCodecTimeout}).setItem t
        {p.items t with next := p.free}).pushItem data
      some (q,ErrorType.msgAccepted)) := by
  induction m generalizing next cnt with
  | nil =>
    obtain ⟨rfl,-,hend⟩ := hc
    cases cnt with
    | zero => simp at hcnt
    | succ cnt =>
      have hi := p.item_of_lt (hlt next (by simp))
      have hn : (p.items next).next = maxIdx := hend
      simp [pushTail,hi,hn]
  | cons i m ih =>
    obtain ⟨rfl,-,hc⟩ := hc
    cases cnt with
    | zero => simp at hcnt
    | succ cnt =>
      have hi := p.item_of_lt (hlt next (by simp))
      have hn : (p.items next).next ≠ maxIdx := fun e => by
        have hnil := (hc.eq_nil_iff).mp e
        simp at hnil
      have hle : (m ++ [t]).length ≤ cnt := by simpa using hcnt
      have h := ih hc (fun j hj => hlt j (List.mem_cons_of_mem _ hj)) hle
      rw [← h]
      simp [pushTail,hi,hn]
      rfl

theorem Pool.copyChain_eq (p : Pool) (dlc : Byte) {l : List Nat} {next fuel : Nat}
    (w : Writer) (hc : Linked p.next maxIdx next l) (hl : l ≠ [])
    (hlt : ∀ i ∈ l, i < sizeItems) (hf : l.length ≤ fuel) :
    p.copyChain dlc fuel next w = some (Assembly.copy dlc (l.map p.data) w) := by
  induction l generalizing next fuel w with
  | nil => exact absurd rfl hl
  | cons i l ih =>
    obtain ⟨rfl,-,hc⟩ := hc
    cases fuel with
    | zero => simp at hf
    | succ fuel =>
      have hi := p.item_of_lt (hlt next (by simp))
      cases l with
      | nil =>
        have hn : (p.items next).next = maxIdx := hc
        simp only [copyChain,hi,Option.bind_eq_bind,Option.bind_some,hn,ne_eq,not_true,if_false,
          List.map_cons,List.map_nil,Assembly.copy,data]
        split_ifs <;> rfl
      | cons i' l =>
        have hn : (p.items next).next ≠ maxIdx := fun e => by
          have hnil := (hc.eq_nil_iff).mp e
          simp at hnil
        have h := ih (w.write (p.items next).data.toList) hc (by simp)
          (fun j hj => hlt j (List.mem_cons_of_mem _ hj)) (by simpa using hf)
        simp only [copyChain,hi,Option.bind_eq_bind,Option.bind_some,hn,ne_eq,not_false_eq_true,
          if_true,List.map_cons,Assembly.copy,data] at h ⊢
        split_ifs
        · rfl
        · exact h

theorem Pool.Rep.firstFree {p : Pool} {a : Assemblies}
    {chains : Option (Fin sizeTrees) → List Nat} (h : p.Rep a chains) :
    (List.finRange sizeTrees).find? (fun k => (p.trees k).head = maxIdx) = a.firstFree := by
  unfold Assemblies.firstFree
  congr 1
  funext k
  cases hk : a k <;> simp [h.head_eq,hk]

theorem Assemblies.firstFree_some {a : Assemblies} {k : Fin sizeTrees}
    (h : a.firstFree = some k) : a k = none := by
  simpa using List.find?_some h

theorem Assemblies.firstAwaiting_some {a : Assemblies} {extid : Extid} {k : Fin sizeTrees}
    {s : Assembly} (h : a.firstAwaiting extid = some (k,s)) :
    a k = some s ∧ s.Awaits extid := by
  obtain ⟨j,-,hj⟩ := List.exists_of_findSome?_eq_some h
  cases hs : a j with
  | none => simp [hs] at hj
  | some u =>
    by_cases hu : u.Awaits extid
    · simp only [hs,hu,Option.bind_some,if_true,Option.some.injEq,Prod.mk.injEq] at hj
      obtain ⟨rfl,rfl⟩ := hj
      exact ⟨hs,hu⟩
    · simp [hs,hu] at hj

theorem Pool.Rep.firstAwaiting {p : Pool} {a : Assemblies}
    {chains : Option (Fin sizeTrees) → List Nat} (h : p.Rep a chains) (extid : Extid) :
    (List.finRange sizeTrees).find? (fun k => (p.trees k).head ≠ maxIdx ∧
      (p.trees k).dlc = 0#8 ∧ (p.trees k).extid.sameId extid) =
      (a.firstAwaiting extid).map Prod.fst := by
  unfold Assemblies.firstAwaiting
  induction List.finRange sizeTrees with
  | nil => rfl
  | cons k ks ih =>
    have hk := h.holds k
    have hh := h.head_eq k
    rw [List.find?_cons,List.findSome?_cons]
    cases hs : a k with
    | none => simpa [hh,hs] using ih
    | some s =>
      rw [hs] at hk
      obtain ⟨-,-,hext,hdlc,-⟩ := hk
      by_cases haw : s.dlc = 0#8 ∧ s.extid.sameId extid
      · simp [hh,hs,hext,hdlc,haw,Assembly.Awaits]
      · simpa [hh,hs,hext,hdlc,haw,Assembly.Awaits] using ih

theorem Assemblies.used_remove_le (a : Assemblies) (extid : Extid) :
    (a.remove extid).used ≤ a.used := by
  refine Finset.sum_le_sum fun k _ => ?_
  cases hs : a k with
  | none => simp [remove,discard,hs]
  | some s => by_cases haw : s.Awaits extid <;> simp [remove,discard,hs,haw]

theorem Pool.Refines.free_lt {p : Pool} {a : Assemblies} (h : p.Refines a)
    (hf : p.free ≠ maxIdx) : a.used < sizeItems := by
  obtain ⟨chains,hr⟩ := h
  have hu := hr.used_eq
  rw [ne_eq,hr.free_eq] at hf
  omega

theorem Pool.Refines.pushNew {p : Pool} {a : Assemblies} (h : p.Refines a) (extid : Extid)
    (data : Vector Byte 8) (dlc : Byte) (hf : p.free ≠ maxIdx) :
    ∃ q, p.pushNew extid data dlc = some (q,(a.pushNew extid data dlc).2) ∧
      q.Refines (a.pushNew extid data dlc).1 := by
  obtain ⟨q,hq,hqr⟩ := h.remove extid
  have hfq : q.free ≠ maxIdx := by
    have hle := a.used_remove_le extid
    have hp := h.free_lt hf
    obtain ⟨chains,hr⟩ := hqr
    rw [ne_eq,hr.free_eq]
    omega
  obtain ⟨chains,hr⟩ := hqr
  unfold Pool.pushNew Assemblies.pushNew
  simp only [hq,Option.bind_eq_bind,Option.bind_some,hr.firstFree]
  cases hk : (a.remove extid).firstFree with
  | none =>
    obtain ⟨q',rv,hq',hr'⟩ := Pool.Refines.timeout ⟨chains,hr⟩
    exact ⟨q',by simp [hq'],hr'⟩
  | some k =>
    have hn := Assemblies.firstFree_some hk
    obtain ⟨hp,hpr⟩ := hr.start hn hfq ⟨extid,q.free,dlc,xcanCodecTimeout⟩ rfl data
    simp only [hp,Option.bind_some]
    by_cases hd : dlc = 0#8
    · refine ⟨_,by simp [hd]; rfl,?_⟩
      obtain ⟨chains',hr'⟩ := hpr
      have hs := hr'.setTree (k := k) (update_self ..)
        ⟨{extid with frm := 0#3},q.free,dlc,xcanCodecTimeout⟩ (by simp)
      refine ⟨chains',?_⟩
      simpa [hd] using hs
    · exact ⟨_,by simp [hd]; rfl,by simpa [hd] using hpr⟩

theorem Pool.Refines.pushNext {p : Pool} {a : Assemblies} (h : p.Refines a) (extid : Extid)
    (data : Vector Byte 8) (dlc : Byte) (hf : p.free ≠ maxIdx) :
    ∃ q, p.pushNext extid data dlc = some (q,(a.pushNext extid data dlc).2) ∧
      q.Refines (a.pushNext extid data dlc).1 := by
  obtain ⟨chains,hr⟩ := h
  unfold Pool.pushNext Assemblies.pushNext
  rw [hr.firstAwaiting]
  cases hk : a.firstAwaiting extid with
  | none =>
    exact Pool.Refines.orphan ⟨chains,hr⟩ extid .errorOrphan
  | some ks =>
    obtain ⟨k,s⟩ := ks
    obtain ⟨hs,haw⟩ := Assemblies.firstAwaiting_some hk
    have hhold := hr.holds k
    rw [hs] at hhold
    obtain ⟨hne,-,hext,hdlc,-⟩ := hhold
    simp only [Option.map_some,hext]
    cases hc : Pool.checkSeq s.extid extid dlc with
    | error rv =>
      cases rv with
      | msgDropped => exact ⟨p,rfl,chains,hr⟩
      | _ => exact Pool.Refines.orphan ⟨chains,hr⟩ extid _
    | ok tFrm =>
      obtain ⟨m,t,hm⟩ : ∃ m t, chains (some k) = m ++ [t] :=
        ⟨_,_,(List.dropLast_append_getLast hne).symm⟩
      have hchain := hr.part.chain (some k)
      have hlen := hr.part.length_le (some k)
      have hlt : ∀ i ∈ chains (some k), i < sizeItems := fun i hi => hr.part.lt hi
      rw [hm] at hchain hlen hlt
      have ht := p.pushTail_eq k data hchain hlt hlen
      obtain ⟨hp,chains',hr'⟩ := hr.append hs hf hm data
      change p.pushTail k data maxSeqIdx (p.trees k).head = _ at ht
      rw [hp] at ht
      simp only [ht,Option.bind_eq_bind,Option.bind_some,ne_eq,not_true,if_false]
      set q := ((p.setTree k {p.trees k with timeout := xcanCodecTimeout}).setItem t
        {p.items t with next := p.free}).take data with hq
      have hqk : q.trees k = {p.trees k with timeout := xcanCodecTimeout} := by simp [hq]
      by_cases hd : dlc = 0#8
      · have hst := hr'.setTree (k := k) (update_self ..) {q.trees k with
          extid := {s.extid with frm := BitVec.ofNat 3 (if tFrm+1 > frmSeqMax then 0 else tFrm+1)}}
            rfl
        refine ⟨_,by simp [hd,hqk,hext]; rfl,chains',?_⟩
        simpa [Assembly.extend,hd,hqk,hext,hdlc,haw.1] using hst
      · have hst := hr'.setTree (k := k) (update_self ..) {q.trees k with dlc := dlc} rfl
        refine ⟨_,by simp [hd]; rfl,chains',?_⟩
        simpa [Assembly.extend,hd,hqk,hext,hdlc] using hst

theorem Assemblies.pushNext_ne_msgAccepted (a : Assemblies) (extid : Extid)
    (data : Vector Byte 8) {dlc : Byte} (hd : dlc ≠ 0#8) :
    (a.pushNext extid data dlc).2 ≠ .msgAccepted := by
  unfold pushNext
  split
  · simp
  · split <;> simp_all [Pool.checkSeq]

theorem Pool.Refines.push {p : Pool} {a : Assemblies} (h : p.Refines a) (extid : Extid)
    (data : Vector Byte 8) (dlc : Byte) :
    ∃ q, p.push extid data dlc = some (q,(a.push extid data dlc).2) ∧
      q.Refines (a.push extid data dlc).1 := by
  have hfree : p.free = maxIdx ↔ a.used = sizeItems := by
    obtain ⟨chains,hr⟩ := h
    exact hr.free_eq
  unfold Pool.push Assemblies.push
  by_cases hf : a.used = sizeItems
  · obtain ⟨q₁,rv,hq₁,h₁⟩ := h.timeout
    obtain ⟨q₂,hq₂,h₂⟩ := h₁.remove extid
    exact ⟨q₂,by simp [hfree,hf,hq₁,hq₂],by simpa [hf] using h₂⟩
  have hf' : p.free ≠ maxIdx := by simpa [hfree] using hf
  simp only [hf,hf',if_false]
  by_cases hend : extid.frm = frmEnd
  · simp only [hend,if_true]
    by_cases hd : dlc = 0#8
    · exact ⟨p,by simp [hd],by simpa [hd] using h⟩
    · obtain ⟨q,hq,hr⟩ := h.pushNext extid data dlc hf'
      have hne := a.pushNext_ne_msgAccepted extid data hd
      exact ⟨q,by simp [hd,hq,hne],by simpa [hd] using hr⟩
  simp only [hend,if_false]
  by_cases hstart : extid.frm = frmStart
  · simp only [hstart,if_true]
    by_cases hd : dlc = 8#8
    · obtain ⟨q,hq,hr⟩ := h.pushNew extid data 0#8 hf'
      exact ⟨q,by simp [hd,hq],by simpa [hd] using hr⟩
    · exact ⟨p,by simp [hd],by simpa [hd] using h⟩
  simp only [hstart,if_false]
  by_cases hsingle : extid.frm = frmSingle
  · simp only [hsingle,if_true]
    exact h.pushNew extid data _ hf'
  simp only [hsingle,if_false]
  by_cases hd : dlc = 8#8
  · obtain ⟨q,hq,hr⟩ := h.pushNext extid data 0#8 hf'
    exact ⟨q,by simp [hd,hq],by simpa [hd] using hr⟩
  · exact ⟨p,by simp [hd],by simpa [hd] using h⟩

theorem Pool.Refines.readTree {p : Pool} {a : Assemblies} (h : p.Refines a)
    {k : Fin sizeTrees} {s : Assembly} (hs : a k = some s) (dest : List Byte) :
    ∃ q, p.readTree k dest = some (q,s.read dest) ∧ q.Refines (update a k none) := by
  obtain ⟨chains,hr⟩ := h
  have hk := hr.holds k
  rw [hs] at hk
  obtain ⟨hne,hdata,hext,hdlc,-⟩ := hk
  have hw := p.copyChain_eq (p.trees k).dlc
    ((Writer.mk dest 0).writeT (bytes16 (p.trees k).extid.pid)) (hr.part.chain (some k)) hne
    (fun i hi => hr.part.lt hi) (hr.part.length_le _)
  rw [hdata,hdlc,hext] at hw
  obtain ⟨q,hq,hqr⟩ := Pool.Refines.removeTree ⟨chains,hr⟩ k sizeItems
    (by rw [← hr.length_eq]; exact hr.part.length_le _)
  refine ⟨q,?_,hqr⟩
  change p.copyChain s.dlc sizeItems (p.trees k).head _ = _ at hw
  simp only [Pool.readTree,hdlc,hext,hw,hq,Option.bind_eq_bind,Option.bind_some,Assembly.read]

theorem Pool.Refines.readFrom {p : Pool} {a : Assemblies} (h : p.Refines a) (dest : List Byte)
    (src : BitVec 7) (ks : List (Fin sizeTrees)) :
    ∃ q, Pool.readFrom dest src ks p = some (q,(Assemblies.readFrom dest src ks a).2) ∧
      q.Refines (Assemblies.readFrom dest src ks a).1 := by
  induction ks generalizing p a dest src with
  | nil => exact ⟨p,rfl,h⟩
  | cons k ks ih =>
    have hhead : (p.trees k).head = maxIdx ↔ a k = none := by
      obtain ⟨chains,hr⟩ := h
      exact hr.head_eq k
    unfold Pool.readFrom Assemblies.readFrom
    cases hs : a k with
    | none => simpa [hhead,hs] using ih h dest src
    | some s =>
      have hk : (p.trees k).dlc = s.dlc ∧ (p.trees k).extid = s.extid := by
        obtain ⟨chains,hr⟩ := h
        have hk := hr.holds k
        rw [hs] at hk
        exact ⟨hk.2.2.2.1,hk.2.2.1⟩
      simp only [hhead,hs,reduceCtorEq,if_false,hk.1]
      by_cases hd : s.dlc = 0#8
      · simpa [hd] using ih h dest src
      · obtain ⟨q,hq,hqr⟩ := h.readTree hs dest
        simp only [hd,if_false,hq,Option.bind_eq_bind,Option.bind_some,hk.2]
        by_cases hw : (s.read dest).pos > 0
        · exact ⟨q,by simp [hw],by simpa [hw] using hqr⟩
        · simpa only [hw,if_false] using ih hqr (s.read dest).buf s.extid.src

theorem Pool.Refines.readPacket {p : Pool} {a : Assemblies} (h : p.Refines a) (dest : List Byte)
    (src : BitVec 7) :
    ∃ q, p.readPacket dest src = some (q,(a.readPacket dest src).2) ∧
      q.Refines (a.readPacket dest src).1 :=
  h.readFrom dest src _

theorem Pool.init_refines : Pool.init.Refines Assemblies.empty := by
  refine ⟨fun x => if x = none then List.range' 0 (sizeItems-0) else [],⟨fun x => ?_,?_⟩,
    fun k => rfl⟩
  · cases x with
    | none =>
      exact linked_range sizeItems (Nat.zero_le _) (by decide) (fun j _ => rfl)
    | some k => rfl
  · simp [Fintype.sum_option,List.range_eq_range',Multiset.range]

end ApxBus.Can
