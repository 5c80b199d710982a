import ApxBus.Can.PoolRefinement
set_option autoImplicit false

/-! Runs of the pool, and the invariant of its representation. -/

namespace ApxBus.Can
open Function LinkedCells

/-- One call from outside. -/
inductive Pool.Op where
  | push (extid : Extid) (data : Vector Byte 8) (dlc : Byte)
  | readPacket (dest : List Byte) (src : BitVec 7)
  | timeout

inductive Pool.Result where
  | pushed (rv : ErrorType)
  | read (r : ReadResult)
  | aged

def Pool.step (p : Pool) : Op → Option (Pool × Result)
  | .push extid data dlc => do
    let (p,rv) ← p.push extid data dlc
    some (p,.pushed rv)
  | .readPacket dest src => do
    let (p,r) ← p.readPacket dest src
    some (p,.read r)
  | .timeout => do
    let (p,_) ← p.timeout
    some (p,.aged)

def Pool.run (p : Pool) : List Op → Option Pool
  | [] => some p
  | op :: ops => do
    let (p,_) ← p.step op
    p.run ops

namespace Assemblies

def step (a : Assemblies) : Pool.Op → Assemblies × Pool.Result
  | .push extid data dlc => let (a,rv) := a.push extid data dlc; (a,.pushed rv)
  | .readPacket dest src => let (a,r) := a.readPacket dest src; (a,.read r)
  | .timeout => (a.timeout,.aged)

def run (a : Assemblies) : List Pool.Op → Assemblies
  | [] => a
  | op :: ops => (a.step op).1.run ops

section
variable (a : Assemblies)

theorem step_push (extid : Extid) (data : Vector Byte 8) (dlc : Byte) :
    a.step (.push extid data dlc) =
      ((a.push extid data dlc).1,.pushed (a.push extid data dlc).2) := by
  simp only [step]

theorem step_readPacket (dest : List Byte) (src : BitVec 7) :
    a.step (.readPacket dest src) =
      ((a.readPacket dest src).1,.read (a.readPacket dest src).2) := by
  simp only [step]

theorem step_timeout : a.step .timeout = (a.timeout,.aged) := by
  rw [step]

end

end Assemblies

theorem Pool.Refines.step {p : Pool} {a : Assemblies} (h : p.Refines a) (op : Pool.Op) :
    ∃ q, p.step op = some (q,(a.step op).2) ∧ q.Refines (a.step op).1 := by
  cases op with
  | push extid data dlc =>
    obtain ⟨q,hq,hr⟩ := h.push extid data dlc
    rw [Assemblies.step_push]
    dsimp only
    exact ⟨q,by simp [Pool.step,hq],hr⟩
  | readPacket dest src =>
    obtain ⟨q,hq,hr⟩ := h.readPacket dest src
    rw [Assemblies.step_readPacket]
    dsimp only
    exact ⟨q,by simp [Pool.step,hq],hr⟩
  | timeout =>
    obtain ⟨q,rv,hq,hr⟩ := h.timeout
    rw [Assemblies.step_timeout]
    exact ⟨q,by simp [Pool.step,hq],hr⟩

theorem Pool.Refines.run {p : Pool} {a : Assemblies} (h : p.Refines a) (ops : List Pool.Op) :
    ∃ q, p.run ops = some q ∧ q.Refines (a.run ops) := by
  induction ops generalizing p a with
  | nil => exact ⟨p,rfl,h⟩
  | cons op ops ih =>
    obtain ⟨q,hq,hr⟩ := h.step op
    obtain ⟨q',hq',hr'⟩ := ih hr
    exact ⟨q',by simp [Pool.run,hq,hq'],hr'⟩

theorem Assembly.extend_sameId (s : Assembly) (data : Vector Byte 8) (dlc : Byte) (tFrm : Nat) :
    s.extid.sameId (s.extend data dlc tFrm).extid := by
  rw [Extid.sameId_iff]
  by_cases hd : dlc = 0#8 <;> simp [Assembly.extend,hd]

namespace Assemblies

def Distinct (a : Assemblies) : Prop :=
  ∀ k j s u, a k = some s → a j = some u → s.dlc = 0#8 → u.Awaits s.extid → k = j

theorem Distinct.mono {a b : Assemblies} (h : a.Distinct)
    (hb : ∀ k s, b k = some s → s.dlc = 0#8 →
      ∃ s', a k = some s' ∧ s'.dlc = 0#8 ∧ s'.extid.sameId s.extid) : b.Distinct := by
  intro k j s u hs hu hds hdu
  obtain ⟨s',hs',hds',hss⟩ := hb k s hs hds
  obtain ⟨u',hu',hdu',huu⟩ := hb j u hu hdu.1
  exact h k j s' u' hs' hu' hds'
    ⟨hdu',(huu.trans hdu.2).trans hss.symm⟩

theorem firstAwaiting_none {a : Assemblies} {extid : Extid} (h : a.firstAwaiting extid = none)
    {k : Fin sizeTrees} {s : Assembly} (hk : a k = some s) : ¬ s.Awaits extid := by
  intro haw
  have hn := List.findSome?_eq_none_iff.mp h k (List.mem_finRange k)
  rw [hk,Option.bind_some,if_pos haw] at hn
  cases hn

theorem firstAwaiting_eq {a : Assemblies} {extid : Extid} {k : Fin sizeTrees} {s : Assembly}
    (hd : a.Distinct) (hk : a k = some s) (hs : s.Awaits extid) :
    a.firstAwaiting extid = some (k,s) := by
  cases hf : a.firstAwaiting extid with
  | none => exact absurd hs (firstAwaiting_none hf hk)
  | some js =>
    obtain ⟨j,u⟩ := js
    obtain ⟨hj,hu⟩ := firstAwaiting_some hf
    obtain rfl : k = j := hd k j s u hk hj hs.1 ⟨hu.1,hu.2.trans hs.2.symm⟩
    rw [hk] at hj
    rw [Option.some.inj hj]

theorem remove_some {a : Assemblies} {extid : Extid} {k : Fin sizeTrees} {s : Assembly}
    (h : a.remove extid k = some s) : a k = some s ∧ ¬ s.Awaits extid := by
  cases hs : a k with
  | none => simp [remove,discard,hs] at h
  | some s' =>
    by_cases haw : s'.Awaits extid
    · simp [remove,discard,hs,haw] at h
    · simp only [remove,discard,hs,haw,if_false,Option.some.injEq] at h
      subst h
      exact ⟨rfl,haw⟩

theorem timeout_some {a : Assemblies} {k : Fin sizeTrees} {s : Assembly}
    (h : a.timeout k = some s) :
    ∃ n, a k = some {s with timeout := n} ∧ (s.dlc ≠ 0#8 → n = s.timeout) := by
  cases hs : a k with
  | none => simp [timeout,age,hs] at h
  | some s' =>
    simp only [timeout,age,hs] at h
    split_ifs at h with hd ht
    · simp only [Option.some.injEq] at h
      subst h
      exact ⟨s'.timeout,rfl,fun _ => rfl⟩
    · simp only [Option.some.injEq] at h
      subst h
      exact ⟨s'.timeout,rfl,fun hn => absurd (by simpa using hd) hn⟩

theorem Distinct.remove {a : Assemblies} (h : a.Distinct) (extid : Extid) :
    (a.remove extid).Distinct :=
  h.mono fun _ s hs hd => ⟨s,(remove_some hs).1,hd,Extid.sameId.refl _⟩

theorem Distinct.timeout {a : Assemblies} (h : a.Distinct) : a.timeout.Distinct :=
  h.mono fun _ s hs hd => by
    obtain ⟨n,hn,-⟩ := timeout_some hs
    exact ⟨_,hn,hd,Extid.sameId.refl _⟩

theorem pushNew_cases (a : Assemblies) (extid : Extid) (data : Vector Byte 8) (dlc : Byte) :
    (a.remove extid).firstFree = none ∧
      (a.pushNew extid data dlc).1 = (a.remove extid).timeout ∨
    ∃ k s, (a.remove extid).firstFree = some k ∧
      (a.pushNew extid data dlc).1 = update (a.remove extid) k (some s) ∧
      s.extid.sameId extid ∧ s.dlc = dlc ∧ s.chunks = [data] := by
  unfold Assemblies.pushNew
  dsimp only
  cases hf : (a.remove extid).firstFree with
  | none => exact Or.inl ⟨rfl,rfl⟩
  | some k =>
    dsimp only
    split_ifs
    · exact Or.inr ⟨k,_,rfl,rfl,Extid.sameId.refl _,rfl,rfl⟩
    · exact Or.inr ⟨k,_,rfl,rfl,(Extid.sameId_iff _ _).mpr ⟨rfl,rfl,rfl⟩,rfl,rfl⟩

theorem Distinct.pushNew {a : Assemblies} (h : a.Distinct) (extid : Extid)
    (data : Vector Byte 8) (dlc : Byte) : (a.pushNew extid data dlc).1.Distinct := by
  have hnew : ∀ (k : Fin sizeTrees) (s : Assembly), s.extid.sameId extid →
      Distinct (update (a.remove extid) k (some s)) := by
    intro k s hs i j u v hu hv hdu haw
    have hother : ∀ x w, x ≠ k → update (a.remove extid) k (some s) x = some w →
        a x = some w ∧ ¬ w.Awaits extid := fun x w hx hw => by
      rw [update_of_ne hx] at hw
      exact remove_some hw
    by_cases hi : i = k
    · subst hi
      rw [update_self,Option.some.injEq] at hu
      subst hu
      by_contra hj
      exact (hother j v (Ne.symm hj) hv).2 ⟨haw.1,haw.2.trans hs⟩
    · obtain ⟨hau,hnu⟩ := hother i u hi hu
      by_cases hj : j = k
      · subst hj
        rw [update_self,Option.some.injEq] at hv
        subst hv
        exact absurd ⟨hdu,haw.2.symm.trans hs⟩ hnu
      · exact h i j u v hau (hother j v hj hv).1 hdu haw
  rcases a.pushNew_cases extid data dlc with ⟨-,heq⟩ | ⟨k,s,-,heq,hid,-⟩
  · rw [heq]
    exact (h.remove extid).timeout
  · rw [heq]
    exact hnew k s hid

theorem Distinct.pushNext {a : Assemblies} (h : a.Distinct) (extid : Extid)
    (data : Vector Byte 8) (dlc : Byte) : (a.pushNext extid data dlc).1.Distinct := by
  unfold Assemblies.pushNext
  split
  · exact (h.remove extid).timeout
  · rename_i k s hk
    obtain ⟨hs,haw⟩ := firstAwaiting_some hk
    split
    · exact h
    · exact (h.remove extid).timeout
    · rename_i tFrm _
      refine h.mono fun j u hu hd => ?_
      dsimp only at hu
      by_cases hj : j = k
      · subst hj
        rw [update_self,Option.some.injEq] at hu
        subst hu
        exact ⟨s,hs,haw.1,Assembly.extend_sameId s data dlc tFrm⟩
      · rw [update_of_ne hj] at hu
        exact ⟨u,hu,hd,Extid.sameId.refl _⟩

theorem Distinct.push {a : Assemblies} (h : a.Distinct) (extid : Extid)
    (data : Vector Byte 8) (dlc : Byte) : (a.push extid data dlc).1.Distinct := by
  unfold Assemblies.push
  split_ifs
  · exact h.timeout.remove extid
  · exact h
  · exact h.pushNext extid data dlc
  · exact h
  · exact h.pushNew extid data 0#8
  · exact h.pushNew extid data _
  · exact h.pushNew extid data _
  · exact h
  · exact h.pushNext extid data 0#8

theorem readFrom_some {dest : List Byte} {src : BitVec 7} {ks : List (Fin sizeTrees)}
    {a : Assemblies} {k : Fin sizeTrees} {s : Assembly}
    (h : (readFrom dest src ks a).1 k = some s) : a k = some s := by
  induction ks generalizing a dest src with
  | nil => exact h
  | cons j ks ih =>
    have hnone : update a j none k = some s → a k = some s := by
      intro h
      by_cases hk : k = j
      · subst hk; simp at h
      · rwa [update_of_ne hk] at h
    unfold readFrom at h
    split at h
    · exact ih h
    · dsimp only at h
      split_ifs at h
      · exact ih h
      · exact hnone h
      · exact hnone (ih h)

theorem Distinct.step {a : Assemblies} (h : a.Distinct) (op : Pool.Op) :
    (a.step op).1.Distinct := by
  cases op with
  | push extid data dlc =>
    rw [step_push]
    dsimp only
    exact h.push extid data dlc
  | readPacket dest src =>
    rw [step_readPacket,readPacket]
    dsimp only
    exact h.mono fun _ s hs hd => ⟨s,readFrom_some hs,hd,Extid.sameId.refl _⟩
  | timeout =>
    rw [step_timeout]
    exact h.timeout

theorem Distinct.run {a : Assemblies} (h : a.Distinct) (ops : List Pool.Op) :
    (a.run ops).Distinct := by
  induction ops generalizing a with
  | nil => exact h
  | cons op ops ih => exact ih (h.step op)

theorem empty_distinct : Assemblies.empty.Distinct := fun _ _ _ _ h => by simp [empty] at h

theorem pushNew_ne_errorSeqIdx (a : Assemblies) (extid : Extid) (data : Vector Byte 8)
    (dlc : Byte) : (a.pushNew extid data dlc).2 ≠ .errorSeqIdx := by
  unfold pushNew
  dsimp only
  split
  · split_ifs <;> simp
  · simp

theorem pushNext_ne_errorSeqIdx (a : Assemblies) (extid : Extid) (data : Vector Byte 8)
    (dlc : Byte) : (a.pushNext extid data dlc).2 ≠ .errorSeqIdx := by
  unfold pushNext
  split
  · simp
  · split
    · simp
    · rename_i rv hne hc
      unfold Pool.checkSeq at hc
      dsimp only at hc
      split_ifs at hc <;> cases hc <;> simp
    · split_ifs <;> simp

theorem push_ne_errorSeqIdx (a : Assemblies) (extid : Extid) (data : Vector Byte 8)
    (dlc : Byte) : (a.push extid data dlc).2 ≠ .errorSeqIdx := by
  unfold push
  split_ifs <;> simp [pushNew_ne_errorSeqIdx,pushNext_ne_errorSeqIdx]

end Assemblies

theorem Pool.spaceFrom_eq {p : Pool} {l : List Nat} {fuel i : Nat}
    (hc : Linked p.next maxIdx i l) (hlt : ∀ j ∈ l, j < sizeItems) (hf : l.length ≤ fuel) :
    p.spaceFrom fuel i = some l.length := by
  induction l generalizing i fuel with
  | nil =>
    have hi : i = maxIdx := hc
    unfold spaceFrom
    simp [hi]
  | cons j l ih =>
    obtain ⟨rfl,hi,hc⟩ := hc
    cases fuel with
    | zero => simp at hf
    | succ fuel =>
      have h : p.spaceFrom fuel _ = _ :=
        ih hc (fun x hx => hlt x (by simp [hx])) (by simpa using hf)
      unfold spaceFrom
      rw [if_neg hi,p.item_of_lt (hlt i (by simp))]
      change p.spaceFrom fuel (p.items i).next = _ at h
      simp [h]

/-- The representation invariant: the chains are the free list, under `none`, and the items of
each tree. -/
structure Pool.WellFormed (p : Pool) (chains : Option (Fin sizeTrees) → List Nat) : Prop where
  /-- Following the links from the heads gives the chains, which end in `maxIdx`. -/
  free_list : Linked p.next maxIdx p.free (chains none)
  tree : ∀ k, (p.trees k).head ≠ maxIdx → Linked p.next maxIdx (p.trees k).head (chains (some k))
  no_tree : ∀ k, (p.trees k).head = maxIdx → chains (some k) = []
  disjoint : ∀ x y, x ≠ y → ∀ i ∈ chains x, i ∉ chains y
  nodup : ∀ x, (chains x).Nodup
  mem_iff : ∀ i, i < sizeItems ↔ ∃ x, i ∈ chains x
  /-- `space()` counts the free list, and with the trees it accounts for all items. -/
  space : p.space = some (chains none).length
  total : (chains none).length + ∑ k, (chains (some k)).length = sizeItems
  unfinished : ∀ k j, (p.trees k).head ≠ maxIdx → (p.trees j).head ≠ maxIdx →
    (p.trees k).dlc = 0#8 → (p.trees j).dlc = 0#8 →
    (p.trees k).extid.sameId (p.trees j).extid → k = j
  push : ∀ extid data dlc, ∃ q rv, p.push extid data dlc = some (q,rv) ∧ rv ≠ .errorSeqIdx

theorem Pool.Rep.wellFormed {p : Pool} {a : Assemblies}
    {chains : Option (Fin sizeTrees) → List Nat} (h : p.Rep a chains) (hd : a.Distinct) :
    p.WellFormed chains where
  free_list := h.part.chain none
  tree := fun k _ => h.part.chain (some k)
  no_tree := fun k hk => ((h.part.chain (some k)).eq_nil_iff).mp hk
  disjoint := fun x y hxy i hi => h.part.disjoint hxy hi
  nodup := h.part.nodup
  mem_iff := fun i => by
    refine ⟨fun hi => ?_,fun ⟨x,hx⟩ => h.part.lt hx⟩
    have hm : i ∈ ∑ x, (chains x : Multiset Nat) := by
      rw [h.part.cover]; exact Multiset.mem_range.mpr hi
    obtain ⟨x,-,hx⟩ := Multiset.mem_sum.mp hm
    exact ⟨x,by simpa using hx⟩
  space := spaceFrom_eq (h.part.chain none) (fun _ hj => h.part.lt hj) (h.part.length_le none)
  total := by
    have hl := h.part.length
    rwa [Fintype.sum_option] at hl
  unfinished := fun k j hk hj hdk hdj hid => by
    have hhold := fun x => h.holds x
    rw [ne_eq,h.head_eq] at hk hj
    obtain ⟨s,hs⟩ := Option.ne_none_iff_exists'.mp hk
    obtain ⟨u,hu⟩ := Option.ne_none_iff_exists'.mp hj
    have hhk := h.holds k
    have hhj := h.holds j
    rw [hs] at hhk
    rw [hu] at hhj
    obtain ⟨-,-,hek,hdk',-⟩ := hhk
    obtain ⟨-,-,hej,hdj',-⟩ := hhj
    rw [hek,hej] at hid
    exact hd k j s u hs hu (hdk'.symm.trans hdk) ⟨hdj'.symm.trans hdj,hid.symm⟩
  push := fun extid data dlc => by
    obtain ⟨q,hq,-⟩ := Pool.Refines.push ⟨chains,h⟩ extid data dlc
    exact ⟨q,_,hq,Assemblies.push_ne_errorSeqIdx a extid data dlc⟩

/-- Every run from `init` has a result, whose links are a partition of the items. -/
theorem Pool.run_wellFormed (ops : List Pool.Op) :
    ∃ p chains, Pool.init.run ops = some p ∧ p.WellFormed chains := by
  obtain ⟨p,hp,chains,hr⟩ := Pool.init_refines.run ops
  exact ⟨p,chains,hp,hr.wellFormed (Assemblies.empty_distinct.run ops)⟩

end ApxBus.Can
