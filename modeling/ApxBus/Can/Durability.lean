import ApxBus.Can.PoolInvariant
set_option autoImplicit false

/-! A finished packet stays as it is until it is read. -/

namespace ApxBus.Can
open Function LinkedCells

namespace Assemblies
variable {a : Assemblies} {k : Fin sizeTrees} {s : Assembly} {extid : Extid}
  {data : Vector Byte 8} {dlc : Byte}

theorem remove_finished (hk : a k = some s) (hd : s.dlc ≠ 0#8) : a.remove extid k = some s := by
  have haw : ¬ s.Awaits extid := fun h => hd h.1
  rw [remove,hk,discard,if_neg haw]

theorem timeout_finished (hk : a k = some s) (hd : s.dlc ≠ 0#8) : a.timeout k = some s := by
  rw [timeout,hk,age,if_pos hd]

theorem pushNew_finished (hk : a k = some s) (hd : s.dlc ≠ 0#8) :
    (a.pushNew extid data dlc).1 k = some s := by
  have hr : a.remove extid k = some s := remove_finished hk hd
  rcases a.pushNew_cases extid data dlc with ⟨-,heq⟩ | ⟨j,u,hf,heq,-⟩
  · rw [heq]
    exact timeout_finished hr hd
  · have hj : k ≠ j := by
      rintro rfl
      rw [firstFree_some hf] at hr
      cases hr
    rw [heq,update_of_ne hj]
    exact hr

theorem pushNext_finished (hk : a k = some s) (hd : s.dlc ≠ 0#8) :
    (a.pushNext extid data dlc).1 k = some s := by
  have hr : a.remove extid k = some s := remove_finished hk hd
  have hsweep := timeout_finished hr hd
  unfold pushNext
  cases hf : a.firstAwaiting extid with
  | none => exact hsweep
  | some ju =>
    obtain ⟨j,u⟩ := ju
    obtain ⟨hu,haw⟩ := firstAwaiting_some hf
    have hj : k ≠ j := by
      rintro rfl
      rw [hk] at hu
      exact hd (Option.some.inj hu ▸ haw.1)
    dsimp only
    split
    · exact hk
    · exact hsweep
    · exact (update_of_ne hj _ _).trans hk

theorem push_finished (hk : a k = some s) (hd : s.dlc ≠ 0#8) :
    (a.push extid data dlc).1 k = some s := by
  unfold push
  split_ifs
  · exact remove_finished (timeout_finished hk hd) hd
  · exact hk
  · exact pushNext_finished hk hd
  · exact hk
  · exact pushNew_finished hk hd
  · exact pushNew_finished hk hd
  · exact pushNew_finished hk hd
  · exact hk
  · exact pushNext_finished hk hd

/-- The packets that a call of `read_packet` takes out: all it comes to up to the first that
gives a result. -/
def readKeys (dest : List Byte) : List (Fin sizeTrees) → Assemblies → List (Fin sizeTrees)
  | [], _ => []
  | k :: ks, a =>
    match a k with
    | none => readKeys dest ks a
    | some s =>
      if s.dlc = 0#8 then readKeys dest ks a
      else
        let w := s.read dest
        k :: if w.pos > 0 then [] else readKeys w.buf ks (update a k none)

theorem readFrom_of_notMem {dest : List Byte} {src : BitVec 7} {ks : List (Fin sizeTrees)}
    (h : k ∉ readKeys dest ks a) : (readFrom dest src ks a).1 k = a k := by
  induction ks generalizing a dest src with
  | nil => rfl
  | cons j ks ih =>
    unfold readKeys at h
    unfold readFrom
    cases hj : a j with
    | none =>
      rw [hj] at h
      exact ih h
    | some u =>
      rw [hj] at h
      dsimp only at h ⊢
      by_cases hd : u.dlc = 0#8
      · rw [if_pos hd] at h ⊢
        exact ih h
      · rw [if_neg hd,List.mem_cons,not_or] at h
        rw [if_neg hd]
        by_cases hw : (u.read dest).pos > 0
        · rw [if_pos hw]
          exact update_of_ne h.1 _ _
        · rw [if_neg hw] at h ⊢
          exact (ih h.2).trans (update_of_ne h.1 _ _)

end Assemblies

namespace Pool
variable {p q : Pool} {a : Assemblies} {k : Fin sizeTrees} {s : Assembly}

/-- The data of the items from `i` on; there is no result when the chain does not end. -/
def chainFrom (p : Pool) (fuel i : Nat) : Option (List (Vector Byte 8)) :=
  if i = maxIdx then some []
  else match fuel with
    | 0 => none
    | fuel+1 => do
      let x ← p.item i
      let l ← p.chainFrom fuel x.next
      some (x.data :: l)

def chain (p : Pool) (k : Fin sizeTrees) : Option (List (Vector Byte 8)) :=
  p.chainFrom sizeItems (p.trees k).head

theorem chainFrom_eq {l : List Nat} {fuel i : Nat} (hc : Linked p.next maxIdx i l)
    (hlt : ∀ j ∈ l, j < sizeItems) (hf : l.length ≤ fuel) :
    p.chainFrom fuel i = some (l.map p.data) := by
  induction l generalizing i fuel with
  | nil =>
    have hi : i = maxIdx := hc
    unfold chainFrom
    simp [hi]
  | cons j l ih =>
    obtain ⟨rfl,hi,hc⟩ := hc
    cases fuel with
    | zero => simp at hf
    | succ fuel =>
      have h : p.chainFrom fuel (p.items i).next = some (l.map p.data) :=
        ih hc (fun x hx => hlt x (by simp [hx])) (by simpa using hf)
      unfold chainFrom
      rw [if_neg hi,p.item_of_lt (hlt i (by simp))]
      simp only [Option.bind_eq_bind,Option.bind_some,h]
      rfl

/-- The trees that a call of `read_packet` reads. -/
def readKeys (dest : List Byte) : List (Fin sizeTrees) → Pool → List (Fin sizeTrees)
  | [], _ => []
  | k :: ks, p =>
    if (p.trees k).head = maxIdx then readKeys dest ks p
    else if (p.trees k).dlc = 0#8 then readKeys dest ks p
    else k :: match p.readTree k dest with
      | none => []
      | some (p,w) => if w.pos > 0 then [] else readKeys w.buf ks p

def reads (p : Pool) : Op → List (Fin sizeTrees)
  | .readPacket dest _ => readKeys dest (List.finRange sizeTrees) p
  | _ => []

theorem Refines.tree (h : p.Refines a) (hk : a k = some s) :
    (p.trees k).head ≠ maxIdx ∧ (p.trees k).extid = s.extid ∧ (p.trees k).dlc = s.dlc ∧
      p.chain k = some s.chunks := by
  obtain ⟨chains,hr⟩ := h
  have hhead : (p.trees k).head ≠ maxIdx := by
    rw [ne_eq,hr.head_eq,hk]
    exact Option.some_ne_none s
  have hold := hr.holds k
  rw [hk] at hold
  obtain ⟨-,hdata,hext,hdlc,-⟩ := hold
  have hc := chainFrom_eq (hr.part.chain (some k)) (fun _ hj => hr.part.lt hj)
    (hr.part.length_le (some k))
  rw [hdata] at hc
  exact ⟨hhead,hext,hdlc,hc⟩

theorem Refines.readKeys (h : p.Refines a) (dest : List Byte) (ks : List (Fin sizeTrees)) :
    Pool.readKeys dest ks p = Assemblies.readKeys dest ks a := by
  induction ks generalizing p a dest with
  | nil => rfl
  | cons k ks ih =>
    unfold Pool.readKeys Assemblies.readKeys
    cases hk : a k with
    | none =>
      obtain ⟨chains,hr⟩ := h
      rw [if_pos ((hr.head_eq k).mpr hk)]
      exact ih ⟨chains,hr⟩ dest
    | some s =>
      obtain ⟨hhead,-,hdlc,-⟩ := h.tree hk
      obtain ⟨q,hq,hqr⟩ := h.readTree hk dest
      rw [if_neg hhead,hdlc,hq]
      dsimp only
      rw [ih h dest,ih hqr (s.read dest).buf]

def Finished (p : Pool) (k : Fin sizeTrees) : Prop :=
  (p.trees k).head ≠ maxIdx ∧ (p.trees k).dlc ≠ 0#8

structure Kept (p q : Pool) (k : Fin sizeTrees) : Prop where
  head : (q.trees k).head ≠ maxIdx
  extid : (q.trees k).extid = (p.trees k).extid
  dlc : (q.trees k).dlc = (p.trees k).dlc
  chain : q.chain k = p.chain k

theorem Refines.kept {b : Assemblies} (hp : p.Refines a) (hq : q.Refines b) (ha : a k = some s)
    (hb : b k = some s) : p.Kept q k := by
  obtain ⟨-,he,hd,hc⟩ := hp.tree ha
  obtain ⟨hh',he',hd',hc'⟩ := hq.tree hb
  exact ⟨hh',he'.trans he.symm,hd'.trans hd.symm,hc'.trans hc.symm⟩

theorem Refines.finished (h : p.Refines a) (hf : p.Finished k) :
    ∃ s, a k = some s ∧ s.dlc ≠ 0#8 := by
  cases hk : a k with
  | none =>
    obtain ⟨chains,hr⟩ := h
    exact absurd ((hr.head_eq k).mpr hk) hf.1
  | some s =>
    obtain ⟨-,-,hdlc,-⟩ := h.tree hk
    exact ⟨s,rfl,hdlc ▸ hf.2⟩

theorem Refines.step_finished (h : p.Refines a) (hk : a k = some s) (hd : s.dlc ≠ 0#8) {op : Op}
    (hn : k ∉ p.reads op) : (a.step op).1 k = some s := by
  cases op with
  | push extid data dlc =>
    rw [Assemblies.step_push]
    dsimp only
    exact Assemblies.push_finished hk hd
  | readPacket dest src =>
    unfold reads at hn
    dsimp only at hn
    rw [h.readKeys] at hn
    rw [Assemblies.step_readPacket,Assemblies.readPacket]
    dsimp only
    exact (Assemblies.readFrom_of_notMem hn).trans hk
  | timeout =>
    rw [Assemblies.step_timeout]
    exact Assemblies.timeout_finished hk hd

theorem run_cons_eq {op : Op} {r : Result} (ops : List Op) (h : p.step op = some (q,r)) :
    p.run (op :: ops) = q.run ops := by
  rw [run,h]
  rfl

/-- After any calls a finished packet is the same, or there was a call that read it and the packet
was the same until then. -/
theorem finished_durable (ops ops' : List Op) (hp : init.run ops = some p) (hf : p.Finished k) :
    (∃ l, p.chain k = some l) ∧
    ∃ q, p.run ops' = some q ∧ (p.Kept q k ∨
      ∃ ops1 op ops2 q1, ops' = ops1 ++ op :: ops2 ∧ p.run ops1 = some q1 ∧ p.Kept q1 k ∧
        k ∈ q1.reads op) := by
  obtain ⟨p',hp',hr⟩ := init_refines.run ops
  rw [hp,Option.some.injEq] at hp'
  subst hp'
  obtain ⟨s,hs,hd⟩ := hr.finished hf
  refine ⟨⟨_,(hr.tree hs).2.2.2⟩,?_⟩
  have hind : ∀ (ops' : List Op) (q : Pool) (b : Assemblies), q.Refines b → b k = some s →
      ∃ q', q.run ops' = some q' ∧ (p.Kept q' k ∨
        ∃ ops1 op ops2 q1, ops' = ops1 ++ op :: ops2 ∧ q.run ops1 = some q1 ∧ p.Kept q1 k ∧
          k ∈ q1.reads op) := by
    intro ops'
    induction ops' with
    | nil => exact fun q b hq hb => ⟨q,rfl,Or.inl (hr.kept hq hs hb)⟩
    | cons op ops' ih =>
      intro q b hq hb
      by_cases hm : k ∈ q.reads op
      · obtain ⟨q',hq',-⟩ := hq.run (op :: ops')
        exact ⟨q',hq',Or.inr ⟨[],op,ops',q,rfl,rfl,hr.kept hq hs hb,hm⟩⟩
      · obtain ⟨q1,hq1,hr1⟩ := hq.step op
        obtain ⟨q',hq',hcase⟩ := ih q1 _ hr1 (hq.step_finished hb hd hm)
        refine ⟨q',(run_cons_eq ops' hq1).trans hq',hcase.imp_right ?_⟩
        rintro ⟨ops1,op',ops2,q2,rfl,hq2,hkept,hmem⟩
        exact ⟨op :: ops1,op',ops2,q2,rfl,(run_cons_eq ops1 hq1).trans hq2,hkept,hmem⟩
  exact hind ops' p _ hr hs

instance : NeZero sizeTrees := ⟨by decide⟩

theorem finished_durable_single :
    ∃ p q, init.run [.push ⟨frmSingle,9#16,5#7,0#3,0#3⟩ (Vector.replicate 8 7#8) 3#8] = some p ∧
      p.run [.push ⟨frmStart,9#16,5#7,0#3,0#3⟩ (Vector.replicate 8 1#8) 8#8,
        .push ⟨0#3,8#16,5#7,0#3,0#3⟩ (Vector.replicate 8 1#8) 8#8,.timeout] = some q ∧
      p.Kept q 0 := by
  obtain ⟨p,hp,-⟩ := init_refines.run
    [.push ⟨frmSingle,9#16,5#7,0#3,0#3⟩ (Vector.replicate 8 7#8) 3#8]
  have hmap : (init.run [.push ⟨frmSingle,9#16,5#7,0#3,0#3⟩ (Vector.replicate 8 7#8) 3#8]).map
      (fun p => ((p.trees 0).head,(p.trees 0).dlc)) = some (0,3#8) := by decide +kernel
  rw [hp,Option.map_some,Option.some.injEq,Prod.mk.injEq] at hmap
  have hf : p.Finished 0 := ⟨by rw [hmap.1]; decide,by rw [hmap.2]; decide⟩
  obtain ⟨-,q,hq,hkept | ⟨ops1,op,ops2,q1,hops,-,-,hmem⟩⟩ := finished_durable _
    [.push ⟨frmStart,9#16,5#7,0#3,0#3⟩ (Vector.replicate 8 1#8) 8#8,
      .push ⟨0#3,8#16,5#7,0#3,0#3⟩ (Vector.replicate 8 1#8) 8#8,.timeout] hp hf
  · exact ⟨p,q,hp,hq,hkept⟩
  · have hop : op ∈ ops1 ++ op :: ops2 := by simp
    rw [← hops] at hop
    have hnone : q1.reads op = [] := by
      rcases List.mem_cons.mp hop with rfl | hop
      · rfl
      rcases List.mem_cons.mp hop with rfl | hop
      · rfl
      rw [List.mem_singleton.mp hop]
      rfl
    rw [hnone] at hmem
    cases hmem

end Pool

end ApxBus.Can
