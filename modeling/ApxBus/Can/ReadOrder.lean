import ApxBus.Can.Durability
set_option autoImplicit false

/-! In which order the completed packets are returned. -/

namespace ApxBus.Can
open Function

namespace Assemblies

/-- A read that comes to a tree has taken the finished packets of all lower trees. -/
theorem readKeys_lower {dest : List Byte} {ks : List (Fin sizeTrees)} {a : Assemblies}
    {k j : Fin sizeTrees} {s : Assembly} (hs : ks.Pairwise (· < ·))
    (hk : k ∈ readKeys dest ks a) (hj : j ∈ ks) (hjk : j < k) (ha : a j = some s)
    (hd : s.dlc ≠ 0#8) : j ∈ readKeys dest ks a := by
  induction ks generalizing dest a with
  | nil => cases hj
  | cons i ks ih =>
    obtain ⟨hi,hs⟩ := List.pairwise_cons.mp hs
    unfold readKeys at hk ⊢
    cases hu : a i with
    | none =>
      rw [hu] at hk
      have hne : j ≠ i := fun h => by rw [h,hu] at ha; cases ha
      exact ih hs hk ((List.mem_cons.mp hj).resolve_left hne) ha
    | some u =>
      rw [hu] at hk
      dsimp only at hk ⊢
      by_cases h0 : u.dlc = 0#8
      · rw [if_pos h0] at hk ⊢
        have hne : j ≠ i := by
          rintro rfl
          exact hd (Option.some.inj (ha.symm.trans hu) ▸ h0)
        exact ih hs hk ((List.mem_cons.mp hj).resolve_left hne) ha
      · rw [if_neg h0] at hk ⊢
        by_cases hji : j = i
        · exact hji ▸ List.mem_cons_self
        have hj := (List.mem_cons.mp hj).resolve_left hji
        have hki : k ≠ i := fun h => absurd (hi j hj) (not_lt.mpr (h ▸ hjk.le))
        have hk := (List.mem_cons.mp hk).resolve_left hki
        by_cases hw : (u.read dest).pos > 0
        · rw [if_pos hw] at hk
          cases hk
        · rw [if_neg hw] at hk ⊢
          exact List.mem_cons_of_mem _ (ih hs hk hj ((update_of_ne hji _ _).trans ha))

end Assemblies

namespace Pool

/-- A call, with the state before it, the state after it and its result. -/
structure Call where
  before : Pool
  op : Op
  after : Pool
  result : Result

def callAt (ops : List Op) (i : Nat) : Option Call := do
  let p ← init.run (ops.take i)
  let op ← ops[i]?
  let (q,r) ← p.step op
  some ⟨p,op,q,r⟩

def Result.cnt : Result → Nat
  | .read r => r.cnt
  | _ => 0

instance (p : Pool) (k : Fin sizeTrees) : Decidable (p.Finished k) :=
  inferInstanceAs (Decidable (_ ∧ _))

/-- In a run, call `i` pushes the last message of a packet of `id`, which is then in tree `k`, and
call `j` returns it. -/
structure Passes (ops : List Op) (id : Extid) (i j : Nat) (k : Fin sizeTrees) : Prop where
  lt : i < j
  completed : ∃ c ∈ callAt ops i, ¬ c.before.Finished k ∧ c.after.Finished k ∧
    (c.after.trees k).extid = id
  waits : ∀ m < j, ∀ c ∈ callAt ops m, i < m → k ∉ c.before.reads c.op
  returned : ∃ c ∈ callAt ops j, 0 < c.result.cnt ∧ (c.before.reads c.op).getLast? = some k

instance (ops : List Op) (id : Extid) (i j : Nat) (k : Fin sizeTrees) :
    Decidable (Passes ops id i j k) :=
  decidable_of_iff (i < j ∧ (∃ c ∈ callAt ops i, ¬ c.before.Finished k ∧ c.after.Finished k ∧
      (c.after.trees k).extid = id) ∧
      (∀ m < j, ∀ c ∈ callAt ops m, i < m → k ∉ c.before.reads c.op) ∧
      ∃ c ∈ callAt ops j, 0 < c.result.cnt ∧ (c.before.reads c.op).getLast? = some k)
    ⟨fun ⟨h0,h1,h2,h3⟩ => ⟨h0,h1,h2,h3⟩,fun h => ⟨h.lt,h.completed,h.waits,h.returned⟩⟩

variable {ops : List Op} {c : Call} {p : Pool} {i j m : Nat} {k l : Fin sizeTrees} {id id' : Extid}

theorem mem_callAt : c ∈ callAt ops i ↔ init.run (ops.take i) = some c.before ∧
    ops[i]? = some c.op ∧ c.before.step c.op = some (c.after,c.result) := by
  unfold callAt
  simp only [Option.mem_def,Option.bind_eq_bind,Option.bind_eq_some_iff]
  constructor
  · rintro ⟨p,hp,op,hop,⟨q,r⟩,hq,hc⟩
    cases hc
    exact ⟨hp,hop,hq⟩
  · rintro ⟨hp,hop,hq⟩
    exact ⟨_,hp,_,hop,_,hq,rfl⟩

theorem run_concat (p : Pool) (ops : List Op) (op : Op) :
    p.run (ops ++ [op]) = (p.run ops).bind fun q => (q.step op).map Prod.fst := by
  induction ops generalizing p with
  | nil =>
    rw [List.nil_append,run,run,Option.bind_some]
    cases p.step op <;> rfl
  | cons op' ops ih =>
    rw [List.cons_append,run,run]
    cases p.step op' with
    | none => rfl
    | some x => exact ih x.1

theorem run_after (h : c ∈ callAt ops i) : init.run (ops.take (i+1)) = some c.after := by
  obtain ⟨hp,hop,hq⟩ := mem_callAt.mp h
  rw [List.take_add_one,hop,Option.toList_some,run_concat,hp,Option.bind_some,hq]
  rfl

theorem lt_of_callAt (h : c ∈ callAt ops i) : i < ops.length :=
  (List.getElem?_eq_some_iff.mp (mem_callAt.mp h).2.1).choose

theorem callAt_of_lt (hi : i < ops.length) : ∃ c, c ∈ callAt ops i := by
  obtain ⟨p,hp,hr⟩ := init_refines.run (ops.take i)
  obtain ⟨q,hq,-⟩ := hr.step ops[i]
  exact ⟨⟨p,ops[i],q,_⟩,mem_callAt.mpr ⟨hp,List.getElem?_eq_getElem hi,hq⟩⟩

theorem callAt_refines (h : c ∈ callAt ops i) :
    ∃ a, c.before.Refines a ∧ c.after.Refines (a.step c.op).1 ∧ c.result = (a.step c.op).2 := by
  obtain ⟨hp,hop,hq⟩ := mem_callAt.mp h
  obtain ⟨p,hp',hr⟩ := init_refines.run (ops.take i)
  obtain rfl := Option.some.inj (hp.symm.trans hp')
  obtain ⟨q,hq',hqr⟩ := hr.step c.op
  rw [hq,Option.some.injEq,Prod.mk.injEq] at hq'
  exact ⟨_,hr,hq'.1 ▸ hqr,hq'.2⟩

theorem Refines.finished_iff {a : Assemblies} (h : p.Refines a) :
    p.Finished k ↔ ∃ s, a k = some s ∧ s.dlc ≠ 0#8 := by
  refine ⟨h.finished,fun ⟨s,hs,hd⟩ => ?_⟩
  obtain ⟨hhead,-,hdlc,-⟩ := h.tree hs
  exact ⟨hhead,hdlc ▸ hd⟩

theorem finished_after (h : c ∈ callAt ops i) (hf : c.before.Finished k)
    (hn : k ∉ c.before.reads c.op) : c.after.Finished k := by
  obtain ⟨a,hp,hq,-⟩ := callAt_refines h
  obtain ⟨s,hs,hd⟩ := hp.finished hf
  exact hq.finished_iff.mpr ⟨s,hp.step_finished hs hd hn,hd⟩

theorem finished_before (h : c ∈ callAt ops i) (hcnt : 0 < c.result.cnt)
    (hf : c.after.Finished k) : c.before.Finished k := by
  obtain ⟨a,hp,hq,hres⟩ := callAt_refines h
  obtain ⟨s,hs,hd⟩ := hq.finished hf
  rw [hres] at hcnt
  cases hop : c.op with
  | readPacket dest src =>
    rw [hop] at hs
    have hread : (Assemblies.readFrom dest src (List.finRange sizeTrees) a).1 k = some s := hs
    exact hp.finished_iff.mpr ⟨s,Assemblies.readFrom_some hread,hd⟩
  | push extid data dlc =>
    rw [hop] at hcnt
    exact absurd hcnt (lt_irrefl _)
  | timeout =>
    rw [hop] at hcnt
    exact absurd hcnt (lt_irrefl _)

theorem Passes.finished (h : Passes ops id i j k) (hi : i < m) (hj : m ≤ j)
    (hp : init.run (ops.take m) = some p) : p.Finished k := by
  obtain ⟨c0,hc0,-,hf,-⟩ := h.completed
  obtain ⟨c1,hc1,-⟩ := h.returned
  induction m, hi using Nat.le_induction generalizing p with
  | base =>
    obtain rfl := Option.some.inj ((run_after hc0).symm.trans hp)
    exact hf
  | succ m hm ih =>
    obtain ⟨c,hc⟩ := callAt_of_lt (Nat.lt_trans hj (lt_of_callAt hc1))
    obtain rfl := Option.some.inj ((run_after hc).symm.trans hp)
    exact finished_after hc (ih (by omega) (mem_callAt.mp hc).1) (h.waits m hj c hc hm)

theorem Passes.lower {i' j' : Nat} (h : Passes ops id i j k) (h' : Passes ops id' i' j' l)
    (hi : i' < j) (hj : j < j') : k < l := by
  obtain ⟨c,hc,-,hlast⟩ := h.returned
  obtain ⟨a,hr,-⟩ := callAt_refines hc
  have hk : k ∈ c.before.reads c.op := List.mem_of_getLast? hlast
  have hl : l ∉ c.before.reads c.op := h'.waits j hj c hc hi
  obtain ⟨s,hs,hd⟩ := hr.finished (h'.finished hi hj.le (mem_callAt.mp hc).1)
  rcases lt_trichotomy k l with hlt | rfl | hlt
  · exact hlt
  · exact absurd hk hl
  · cases hop : c.op with
    | readPacket dest src =>
      unfold reads at hk hl
      rw [hop] at hk hl
      dsimp only at hk hl
      rw [hr.readKeys] at hk hl
      exact absurd (Assemblies.readKeys_lower (List.pairwise_lt_finRange _) hk
        (List.mem_finRange l) hlt hs hd) hl
    | push extid data dlc =>
      rw [hop] at hk
      cases hk
    | timeout =>
      rw [hop] at hk
      cases hk

/-- Of two packets, the one completed first is returned first exactly when it is returned before
the other is completed, or it is in the lower tree. -/
theorem returned_first_iff {i' j' : Nat} (h : Passes ops id i j k) (h' : Passes ops id' i' j' l)
    (hlt : i < i') : j < j' ↔ j < i' ∨ k < l := by
  by_cases hbefore : j < i'
  · exact iff_of_true (hbefore.trans h'.lt) (Or.inl hbefore)
  rw [or_iff_right hbefore]
  obtain ⟨c,hc,hnot,hf,-⟩ := h'.completed
  obtain ⟨c1,hc1,hcnt,hl1⟩ := h.returned
  have hkl : k ≠ l := by
    rintro rfl
    exact hnot (h.finished hlt (not_lt.mp hbefore) (mem_callAt.mp hc).1)
  have hne : i' ≠ j := by
    rintro rfl
    obtain rfl := Option.some.inj (hc.symm.trans hc1)
    exact hnot (finished_before hc hcnt hf)
  have hi' : i' < j := by omega
  constructor
  · exact h.lower h' hi'
  · intro hk
    rcases lt_trichotomy j j' with hj | rfl | hj
    · exact hj
    · obtain ⟨c2,hc2,-,hl2⟩ := h'.returned
      obtain rfl := Option.some.inj (hc1.symm.trans hc2)
      exact absurd (Option.some.inj (hl1.symm.trans hl2)) hkl
    · exact absurd (h'.lower h (hlt.trans h'.lt) hj) (not_lt.mpr hk.le)

/-- A packet of source 6, two of source 5, and reads: the second packet of source 5 gets the tree
that the first read made free. -/
def overtaken : List Op :=
  [.push ⟨frmSingle,9#16,6#7,0#3,0#3⟩ (Vector.replicate 8 0#8) 3#8,
    .push ⟨frmSingle,9#16,5#7,0#3,0#3⟩ (Vector.replicate 8 1#8) 3#8,
    .readPacket (List.replicate 610 0#8) 0#7,
    .push ⟨frmSingle,9#16,5#7,0#3,0#3⟩ (Vector.replicate 8 2#8) 3#8,
    .readPacket (List.replicate 610 0#8) 0#7,
    .readPacket (List.replicate 610 0#8) 0#7]

theorem returned_first_iff_overtaken :
    Passes overtaken ⟨frmSingle,9#16,6#7,0#3,0#3⟩ 0 2 0 ∧
      Passes overtaken ⟨frmSingle,9#16,5#7,0#3,0#3⟩ 1 5 1 ∧
      (2 < 5 ↔ 2 < 1 ∨ (0 : Fin sizeTrees) < 1) := by
  have h : Passes overtaken ⟨frmSingle,9#16,6#7,0#3,0#3⟩ 0 2 0 := by decide +kernel
  have h' : Passes overtaken ⟨frmSingle,9#16,5#7,0#3,0#3⟩ 1 5 1 := by decide +kernel
  exact ⟨h,h',returned_first_iff h h' (by decide)⟩

/-- All packets of the run are single messages and all buffers are large enough, and of the two
packets of source 5 the one completed last is returned first. -/
theorem overtaken_reversed :
    (∀ op ∈ overtaken, (∃ extid data dlc, op = .push extid data dlc ∧ extid.frm = frmSingle) ∨
      ∃ dest src, op = .readPacket dest src ∧ 610 ≤ dest.length) ∧
    ∃ id i j k i' j' l, Passes overtaken id i j k ∧ Passes overtaken id i' j' l ∧
      i < i' ∧ ¬ j < j' := by
  refine ⟨?_,⟨frmSingle,9#16,5#7,0#3,0#3⟩,1,5,1,3,4,0,?_,?_,by decide,by decide⟩
  · intro op hop
    simp only [overtaken,List.mem_cons,List.not_mem_nil,or_false] at hop
    rcases hop with rfl | rfl | rfl | rfl | rfl | rfl
    · exact Or.inl ⟨_,_,_,rfl,rfl⟩
    · exact Or.inl ⟨_,_,_,rfl,rfl⟩
    · exact Or.inr ⟨_,_,rfl,List.length_replicate.ge⟩
    · exact Or.inl ⟨_,_,_,rfl,rfl⟩
    · exact Or.inr ⟨_,_,rfl,List.length_replicate.ge⟩
    · exact Or.inr ⟨_,_,rfl,List.length_replicate.ge⟩
  · decide +kernel
  · decide +kernel

end Pool

end ApxBus.Can
