import ApxBus.Can.ReadOrder
import ApxBus.Can.ReceiveBuffer
set_option autoImplicit false

/-! Messages that are repeated on the bus: the packet is assembled as if they came once. -/

namespace ApxBus.Can
open Function

namespace Assemblies
variable {a b : Assemblies} {k : Fin sizeTrees} {extid : Extid} {data : Vector Byte 8}
  {dlc : Byte}

theorem used_update (a : Assemblies) (k : Fin sizeTrees) (o : Option Assembly) :
    used (update a k o)+((a k).elim [] Assembly.chunks).length =
      a.used+(o.elim [] Assembly.chunks).length := by
  have h := LinkedCells.sum_update_add (fun j => ((a j).elim [] Assembly.chunks).length) k
    (o.elim [] Assembly.chunks).length
  have hcomp : update (fun j => ((a j).elim [] Assembly.chunks).length) k
      (o.elim [] Assembly.chunks).length =
        fun j => ((update a k o j).elim [] Assembly.chunks).length :=
    (comp_update (fun o => (Option.elim o [] Assembly.chunks).length) a k o).symm
  rw [hcomp] at h
  exact h

theorem used_timeout_le (a : Assemblies) : a.timeout.used ≤ a.used := by
  refine Finset.sum_le_sum fun k _ => ?_
  cases hk : a.timeout k with
  | none => exact Nat.zero_le _
  | some s =>
    obtain ⟨n,hn,-⟩ := timeout_some hk
    rw [hn]
    exact le_rfl

/-- A push takes one item at most. -/
theorem used_push_le (a : Assemblies) (extid : Extid) (data : Vector Byte 8) (dlc : Byte) :
    (a.push extid data dlc).1.used ≤ a.used+1 := by
  have hrem := a.used_remove_le extid
  have hsweep := (a.remove extid).used_timeout_le
  by_cases hu : a.used = sizeItems
  · rw [push,if_pos hu]
    have hage := a.used_timeout_le
    have hdrop := a.timeout.used_remove_le extid
    dsimp only
    omega
  by_cases ho : Opens extid dlc
  · obtain ⟨dlc',hpush⟩ := @push_opens a extid data dlc hu ho
    rw [hpush]
    rcases a.pushNew_cases extid data dlc' with ⟨-,heq⟩ | ⟨k,s,hf,heq,-,-,hone⟩
    · rw [heq]
      omega
    · have hup := (a.remove extid).used_update k (some s)
      rw [firstFree_some hf,Option.elim_none,Option.elim_some,hone,List.length_singleton,
        List.length_nil] at hup
      rw [heq]
      omega
  by_cases hc : Carries extid dlc
  · rw [push_carries hu hc,pushNext]
    cases hf : a.firstAwaiting extid with
    | none =>
      dsimp only
      omega
    | some ks =>
      obtain ⟨k,s⟩ := ks
      dsimp only
      cases hseq : Pool.checkSeq s.extid extid (if extid.frm = frmEnd then dlc else 0#8) with
      | error rv =>
        rcases checkSeq_error hseq with rfl | rfl
        · dsimp only
          omega
        · exact Nat.le_succ _
      | ok tFrm =>
        have hup := a.used_update k
          (some (s.extend data (if extid.frm = frmEnd then dlc else 0#8) tFrm))
        rw [(firstAwaiting_some hf).1,Option.elim_some,Option.elim_some,Assembly.extend,
          List.length_append,List.length_singleton] at hup
        dsimp only
        rw [Assembly.extend]
        omega
  · rw [push_neither hu ho hc]
    exact Nat.le_succ _

theorem firstFree_ne_none (h : a k = none) : a.firstFree ≠ none := by
  intro hn
  have hk := List.find?_eq_none.mp hn k (List.mem_finRange k)
  rw [h] at hk
  exact hk rfl

theorem remove_frm (a : Assemblies) (extid : Extid) (frm : BitVec 3) :
    a.remove {extid with frm := frm} = a.remove extid := by
  funext k
  cases hk : a k with
  | none => rw [remove_none hk,remove_none hk]
  | some s =>
    have haw : s.Awaits {extid with frm := frm} ↔ s.Awaits extid := by
      simp only [Assembly.Awaits,Extid.sameId_iff]
    simp only [remove,hk,discard,haw]

theorem pushNew_congr (h : b.remove extid = a.remove extid) :
    b.pushNew extid data dlc = a.pushNew extid data dlc := by
  rw [pushNew,pushNew,h]

theorem pushNew_room (h : (a.remove extid).firstFree ≠ none) :
    (a.pushNew extid data dlc).2 ≠ .errorTreeOverflow := by
  unfold pushNew
  dsimp only
  cases hf : (a.remove extid).firstFree with
  | none => exact absurd hf h
  | some k =>
    dsimp only
    split_ifs <;> simp

theorem push_orphan (hn : ∀ k s, a k = some s → ¬ s.Awaits extid) (he : extid.frm = frmEnd)
    (h0 : dlc ≠ 0#8) : (a.push extid data dlc).1 = a.timeout := by
  have hage : ∀ k s, a.timeout k = some s → ¬ s.Awaits extid := by
    intro k s hk haw
    obtain ⟨n,hs,-⟩ := timeout_some hk
    exact hn k _ hs haw
  have hnone : a.firstAwaiting extid = none := by
    cases hf : a.firstAwaiting extid with
    | none => rfl
    | some ks => exact absurd (firstAwaiting_some hf).2 (hn _ _ (firstAwaiting_some hf).1)
  unfold push
  by_cases hu : a.used = sizeItems
  · rw [if_pos hu]
    exact remove_eq hage
  · rw [if_neg hu,if_pos he,if_neg h0,pushNext,hnone]
    dsimp only
    rw [remove_eq hn]

def SameFinished (a b : Assemblies) (k : Fin sizeTrees) : Prop :=
  ∀ s, s.dlc ≠ 0#8 → (b k = some s ↔ a k = some s)

theorem SameFinished.trans {c : Assemblies} (h : SameFinished a b k) (h' : SameFinished b c k) :
    SameFinished a c k := fun s hs => (h' s hs).trans (h s hs)

theorem sameFinished_of_eq (h : b k = a k) : SameFinished a b k := fun s _ => by rw [h]

theorem sameFinished_remove (a : Assemblies) (extid : Extid) (k : Fin sizeTrees) :
    SameFinished a (a.remove extid) k :=
  fun _ hs => ⟨fun h => (remove_some h).1,fun h => remove_finished h hs⟩

theorem sameFinished_timeout (a : Assemblies) (k : Fin sizeTrees) :
    SameFinished a a.timeout k := by
  intro s hs
  refine ⟨fun h => ?_,fun h => timeout_finished h hs⟩
  obtain ⟨n,hn,ht⟩ := timeout_some h
  rw [hn,ht hs]

end Assemblies

def repeated (msgs : List XcanMsg) (counts : List Nat) : List XcanMsg :=
  (List.zipWith (fun m n => List.replicate n m) msgs counts).flatten

theorem repeated_cons (m : XcanMsg) (msgs : List XcanMsg) (n : Nat) (counts : List Nat) :
    repeated (m :: msgs) (n :: counts) = List.replicate n m ++ repeated msgs counts := rfl

namespace Assemblies
variable {a b : Assemblies} {k : Fin sizeTrees} {m : XcanMsg}

def pushMsg (a : Assemblies) (m : XcanMsg) : Assemblies :=
  (a.push (Extid.ofRaw m.id) m.data (m.dlc.setWidth 8)).1

def pushMsgs (a : Assemblies) (msgs : List XcanMsg) : Assemblies := msgs.foldl pushMsg a

theorem pushMsgs_append (a : Assemblies) (l l' : List XcanMsg) :
    a.pushMsgs (l ++ l') = (a.pushMsgs l).pushMsgs l' := List.foldl_append

theorem pushMsgs_replicate {P : Assemblies → Prop} (hstep : ∀ b, P b → P (b.pushMsg m))
    (ha : P a) (n : Nat) : P (a.pushMsgs (List.replicate n m)) := by
  induction n generalizing a with
  | zero => exact ha
  | succ n ih =>
    rw [List.replicate_succ,pushMsgs,List.foldl_cons]
    exact ih (hstep a ha)

theorem pushMsgs_first {P : Assemblies → Prop} (ha : P (a.pushMsg m))
    (hstep : ∀ b, P b → P (b.pushMsg m)) {n : Nat} (hn : 1 ≤ n) :
    P (a.pushMsgs (List.replicate n m)) := by
  obtain ⟨n,rfl⟩ := Nat.exists_eq_add_of_le' hn
  rw [List.replicate_succ,pushMsgs,List.foldl_cons]
  exact pushMsgs_replicate hstep ha n

theorem pushMsg_eq {rv : ErrorType}
    (h : a.push (Extid.ofRaw m.id) m.data (m.dlc.setWidth 8) = (b,rv)) : a.pushMsg m = b := by
  rw [pushMsg,h]

end Assemblies

theorem checkSeq_repeated {s extid : Extid} {frm : BitVec 3} (hle : frm.toNat ≤ frmSeqMax)
    (hs : s.frm = nextFrm frm) (he : extid.frm = frm) :
    Pool.checkSeq s extid 0#8 = .error .msgDropped := by
  have hprev : ∀ frm : BitVec 3, frm.toNat ≤ frmSeqMax → frm.toNat ≠ (nextFrm frm).toNat ∧
      frm.toNat = if (nextFrm frm).toNat > 0 then (nextFrm frm).toNat-1 else frmSeqMax := by
    decide
  obtain ⟨hne,heq⟩ := hprev frm hle
  rw [Pool.checkSeq,if_pos rfl,hs,he]
  dsimp only
  rw [if_pos hne,if_neg (not_not.mpr heq)]

namespace Sending
variable {x : Sending} {a : Assemblies} {k : Fin sizeTrees} {s : Assembly} {m : XcanMsg}
  {rest : List XcanMsg}

theorem Waiting.pushMsgs_more (hw : x.Waiting s (m :: rest)) (hd : a.Distinct) (hk : a k = some s)
    (hroom : a.used+(m :: rest).length ≤ sizeItems) (hne : rest ≠ []) {n : Nat} (hn : 1 ≤ n) :
    ∃ s', x.Waiting s' rest ∧
      a.pushMsgs (List.replicate n m) = update a k (some s') ∧
      Assemblies.Distinct (update a k (some s')) ∧
      Assemblies.used (update a k (some s'))+rest.length ≤ sizeItems := by
  rw [List.length_cons] at hroom
  have hpos := List.length_pos_iff.mpr hne
  obtain ⟨hid,hdlc,s',hw',hfrm,hpush⟩ := push_more hd hk hw (by omega) hne
  have hdist : Assemblies.Distinct (update a k (some s')) := by
    have h := hd.push (Extid.ofRaw m.id) m.data (m.dlc.setWidth 8)
    rwa [hpush] at h
  have hused : Assemblies.used (update a k (some s')) ≤ a.used+1 := by
    have h := a.used_push_le (Extid.ofRaw m.id) m.data (m.dlc.setWidth 8)
    rwa [hpush] at h
  have hdrop : Assemblies.pushMsg (update a k (some s')) m = update a k (some s') := by
    obtain ⟨h5,h6,h7⟩ := frm_le_ne _ hw.frm
    have hfirst := Assemblies.firstAwaiting_eq hdist (update_self k (some s') a)
      (hw'.awaits s.extid.frm)
    have hseq : Pool.checkSeq s'.extid {x.extid with frm := s.extid.frm} 0#8 =
        .error .msgDropped := checkSeq_repeated hw.frm hfrm rfl
    rw [Assemblies.pushMsg,hid,Extid.ofRaw_raw,hdlc,Assemblies.push,if_neg (by omega),
      if_neg h5,if_neg h6,if_neg h7,if_neg (by decide),Assemblies.pushNext,hfirst]
    dsimp only
    rw [hseq]
  refine ⟨s',hw',?_,hdist,by omega⟩
  refine @Assemblies.pushMsgs_first a m (· = update a k (some s')) ?_ ?_ n hn
  · exact Assemblies.pushMsg_eq hpush
  · rintro b rfl
    exact hdrop

theorem Waiting.pushMsgs_last (hw : x.Waiting s [m]) (hd : a.Distinct) (hk : a k = some s)
    (hused : a.used ≠ sizeItems) {n : Nat} (hn : 1 ≤ n) :
    ∃ s', x.Complete s' ∧ a.pushMsgs (List.replicate n m) k = some s' ∧
      ∀ j ≠ k, Assemblies.SameFinished a (a.pushMsgs (List.replicate n m)) j := by
  obtain ⟨hid,hdlc,s',hc,hpush⟩ := push_last hd hk hw hused
  refine ⟨s',hc,?_⟩
  have hinv : (∀ j u, a.pushMsgs (List.replicate n m) j = some u → ¬ u.Awaits x.extid) ∧
      a.pushMsgs (List.replicate n m) k = some s' ∧
      ∀ j ≠ k, Assemblies.SameFinished a (a.pushMsgs (List.replicate n m)) j := by
    refine @Assemblies.pushMsgs_first a m (fun b => (∀ j u, b j = some u → ¬ u.Awaits x.extid) ∧
      b k = some s' ∧ ∀ j ≠ k, Assemblies.SameFinished a b j) ?_ ?_ n hn
    · rw [Assemblies.pushMsg_eq hpush]
      refine ⟨fun j u hu haw => ?_,update_self .., fun j hj =>
        Assemblies.sameFinished_of_eq (update_of_ne hj _ _)⟩
      by_cases hj : j = k
      · subst hj
        rw [update_self,Option.some.injEq] at hu
        exact hc.dlc (hu ▸ haw.1)
      · rw [update_of_ne hj] at hu
        exact hj (hd j k u s hu hk haw.1 ⟨hw.dlc,hw.sameId.symm.trans haw.2.symm⟩)
    · rintro b ⟨hnone,hb,hsame⟩
      have horph : b.pushMsg m = b.timeout := by
        rw [Assemblies.pushMsg,hid,Extid.ofRaw_raw]
        refine Assemblies.push_orphan (fun j u hu haw => hnone j u hu ⟨haw.1,haw.2.trans ?_⟩)
          rfl hdlc
        exact (Extid.sameId_iff _ _).mpr ⟨rfl,rfl,rfl⟩
      rw [horph]
      refine ⟨fun j u hu haw => ?_,Assemblies.timeout_finished hb hc.dlc,
        fun j hj => (hsame j hj).trans (b.sameFinished_timeout j)⟩
      obtain ⟨t,ht,-⟩ := Assemblies.timeout_some hu
      exact hnone j _ ht haw
  exact hinv.2

theorem Waiting.pushMsgs (hw : x.Waiting s rest) (hd : a.Distinct) (hk : a k = some s)
    (hroom : a.used+rest.length ≤ sizeItems) {counts : List Nat}
    (hlen : counts.length = rest.length) (hpos : ∀ n ∈ counts, 1 ≤ n) :
    ∃ s', x.Complete s' ∧ a.pushMsgs (repeated rest counts) k = some s' ∧
      ∀ j ≠ k, Assemblies.SameFinished a (a.pushMsgs (repeated rest counts)) j := by
  induction rest generalizing a s counts with
  | nil =>
    obtain ⟨todo,-,hf⟩ := hw.frames
    cases hf
  | cons m rest ih =>
    obtain ⟨n,counts,rfl⟩ : ∃ n cs, counts = n :: cs :=
      List.exists_cons_of_length_pos (by rw [hlen]; exact Nat.succ_pos _)
    have hn := hpos n List.mem_cons_self
    rw [repeated_cons,Assemblies.pushMsgs_append]
    by_cases hr : rest = []
    · subst hr
      rw [List.length_singleton] at hroom
      exact hw.pushMsgs_last hd hk (by omega) hn
    · obtain ⟨s',hw',hrep,hd',hroom'⟩ := hw.pushMsgs_more hd hk hroom hr hn
      rw [hrep]
      obtain ⟨u,hc,hu,hsame⟩ := ih hw' hd' (update_self ..) hroom' (Nat.succ.inj hlen)
        fun n hm => hpos n (List.mem_cons_of_mem _ hm)
      refine ⟨u,hc,hu,fun j hj => ?_⟩
      exact (Assemblies.sameFinished_of_eq (update_of_ne hj _ _)).trans (hsame j hj)

/-- The first message, repeated: each time the packet begins anew, in the same tree. -/
theorem pushMsgs_start (hx : 10 < x.data.length) (hm : x.msgs = m :: rest) (hd : a.Distinct)
    {i : Fin sizeTrees} (hi : a i = none) (hroom : a.used+x.msgs.length ≤ sizeItems) {n : Nat}
    (hn : 1 ≤ n) :
    ∃ k s, a.remove x.extid k = none ∧ x.Waiting s rest ∧
      a.pushMsgs (List.replicate n m) = update (a.remove x.extid) k (some s) ∧
      Assemblies.Distinct (update (a.remove x.extid) k (some s)) ∧
      Assemblies.used (update (a.remove x.extid) k (some s))+rest.length ≤ sizeItems := by
  obtain ⟨-,-,-,hrest⟩ := msgs_start hx hm
  have hne := hrest.ne_nil
  have hpos := List.length_pos_iff.mpr hne
  rw [hm,List.length_cons] at hroom
  have hle := a.used_remove_le x.extid
  have hnone : ∀ k u, a.remove x.extid k = some u → ¬ u.Awaits x.extid :=
    fun k u hu => (Assemblies.remove_some hu).2
  have hidem := Assemblies.remove_eq hnone
  obtain ⟨k,s,hk,hprog,hfirst⟩ := push_first hm hnone (by omega) (by
    rw [push_start hx hm (by omega)]
    refine Assemblies.pushNew_room (@Assemblies.firstFree_ne_none _ i ?_)
    rw [Assemblies.remove_frm,hidem]
    exact Assemblies.remove_none hi)
  rw [Progress,if_neg hne] at hprog
  have hany : ∀ b : Assemblies, b.used ≠ sizeItems → b.remove x.extid = a.remove x.extid →
      b.push (Extid.ofRaw m.id) m.data (m.dlc.setWidth 8) =
        (update (a.remove x.extid) k (some s),code rest) := by
    intro b hb hrem
    rw [← hfirst,push_start hx hm hb,push_start hx hm (by omega)]
    refine Assemblies.pushNew_congr ?_
    rw [b.remove_frm x.extid,(a.remove x.extid).remove_frm x.extid,hrem,hidem]
  have hused : Assemblies.used (update (a.remove x.extid) k (some s)) ≤ a.used+1 := by
    have h := a.used_push_le (Extid.ofRaw m.id) m.data (m.dlc.setWidth 8)
    rwa [hany a (by omega) rfl] at h
  have hagain : Assemblies.remove (update (a.remove x.extid) k (some s)) x.extid =
      a.remove x.extid := by
    funext j
    by_cases hj : j = k
    · subst hj
      rw [hk]
      exact Assemblies.remove_same (update_self ..) hprog.dlc hprog.sameId
    · rw [Assemblies.remove,update_of_ne hj]
      exact congrFun hidem j
  refine ⟨k,s,hk,hprog,?_,?_,by omega⟩
  · refine @Assemblies.pushMsgs_first a m (· = update (a.remove x.extid) k (some s)) ?_ ?_ n hn
    · exact Assemblies.pushMsg_eq (hany a (by omega) rfl)
    · rintro b rfl
      exact Assemblies.pushMsg_eq (hany _ (by omega) hagain)
  · have h := hd.push (Extid.ofRaw m.id) m.data (m.dlc.setWidth 8)
    rwa [hany a (by omega) rfl] at h

theorem pushMsgs_repeated (hx : 10 < x.data.length) (hd : a.Distinct) {i : Fin sizeTrees}
    (hi : a i = none) (hroom : a.used+x.msgs.length ≤ sizeItems) {counts : List Nat}
    (hlen : counts.length = x.msgs.length) (hpos : ∀ n ∈ counts, 1 ≤ n) :
    ∃ k s, (∀ u, a k = some u → u.dlc = 0#8) ∧ x.Complete s ∧
      a.pushMsgs (repeated x.msgs counts) k = some s ∧
      ∀ j ≠ k, Assemblies.SameFinished a (a.pushMsgs (repeated x.msgs counts)) j := by
  obtain ⟨m,rest,hm⟩ := List.exists_cons_of_length_pos x.msgs_length_pos
  obtain ⟨n,counts,rfl⟩ : ∃ n cs, counts = n :: cs :=
    List.exists_cons_of_length_pos (by rw [hlen]; exact x.msgs_length_pos)
  obtain ⟨k,s,hk,hw,hrep,hd',hroom'⟩ :=
    pushMsgs_start hx hm hd hi hroom (hpos n List.mem_cons_self)
  rw [hm] at hlen
  rw [hm,repeated_cons,Assemblies.pushMsgs_append,hrep]
  obtain ⟨u,hc,hu,hsame⟩ := hw.pushMsgs hd' (update_self ..) hroom' (Nat.succ.inj hlen)
    fun n hmem => hpos n (List.mem_cons_of_mem _ hmem)
  refine ⟨k,u,fun v hv => ?_,hc,hu,fun j hj => ?_⟩
  · by_contra hdv
    rw [Assemblies.remove_finished hv hdv] at hk
    cases hk
  · have hold : Assemblies.SameFinished (a.remove x.extid)
        (update (a.remove x.extid) k (some s)) j :=
      Assemblies.sameFinished_of_eq (update_of_ne hj _ _)
    exact ((a.sameFinished_remove x.extid j).trans hold).trans (hsame j hj)

theorem Complete.bytes (h : x.Complete s) (hx : 10 < x.data.length) :
    s.bytes = x.data ++ checksum x.data := by
  have hp := congrArg Prod.snd h.packet
  dsimp only [Assembly.packet,received] at hp
  split_ifs at hp with h10
  · rw [hp] at h10
    omega
  · have hcrc := h.intact (by omega)
    have hlen : 2 ≤ s.bytes.length := by omega
    obtain ⟨-,hsplit⟩ := Codec.checkCrc_pos hlen (by rw [hcrc]; omega)
    rwa [hp] at hsplit

end Sending

namespace Pool
variable {p q : Pool} {a b : Assemblies} {k : Fin sizeTrees}

def Op.ofMsg (m : XcanMsg) : Op := .push (Extid.ofRaw m.id) m.data (m.dlc.setWidth 8)

theorem run_ofMsg (a : Assemblies) (msgs : List XcanMsg) :
    a.run (msgs.map Op.ofMsg) = a.pushMsgs msgs := by
  induction msgs generalizing a with
  | nil => rfl
  | cons m msgs ih =>
    rw [List.map_cons,Assemblies.run,Op.ofMsg,Assemblies.step_push,ih]
    rfl

theorem Refines.same_finished (hp : p.Refines a) (hq : q.Refines b)
    (h : Assemblies.SameFinished a b k) :
    (q.Finished k ↔ p.Finished k) ∧ (p.Finished k → p.Kept q k) := by
  rw [hp.finished_iff,hq.finished_iff]
  refine ⟨exists_congr fun s => ?_,?_⟩
  · by_cases hs : s.dlc = 0#8
    · simp [hs]
    · rw [h s hs]
  · rintro ⟨s,hk,hs⟩
    exact hp.kept hq hk ((h s hs).mpr hk)

/-- Into a pool with a free tree and items for all messages of a packet, these are pushed, each
any number of times: one more tree is finished, with the packet and its checksum, and the
finished ones are the same. -/
theorem repeated_assembled (ops : List Op) (x : Sending) (counts : List Nat) {n : Nat}
    {i : Fin sizeTrees} (hp : init.run ops = some p) (hx : 1 < x.msgs.length)
    (htree : (p.trees i).head = maxIdx) (hspace : p.space = some n) (hn : x.msgs.length ≤ n)
    (hlen : counts.length = x.msgs.length) (hpos : ∀ c ∈ counts, 1 ≤ c) :
    ∃ q k, p.run ((repeated x.msgs counts).map Op.ofMsg) = some q ∧
      ¬ p.Finished k ∧ q.Finished k ∧
      (∀ dest, x.data.length+2 ≤ dest.length →
        ∃ r w, q.readTree k dest = some (r,w) ∧ w.out = x.data ++ checksum x.data) ∧
      ∀ j ≠ k, (q.Finished j ↔ p.Finished j) ∧ (p.Finished j → p.Kept q j) := by
  obtain ⟨p',hp',hr⟩ := init_refines.run ops
  rw [hp,Option.some.injEq] at hp'
  subst hp'
  have hd := Assemblies.empty_distinct.run ops
  generalize Assemblies.run Assemblies.empty ops = a at hr hd
  have hlong : 10 < x.data.length := by
    by_contra hle
    obtain ⟨m,hm,-⟩ := x.msgs_single (Nat.not_lt.mp hle)
    rw [hm] at hx
    exact absurd hx (by simp)
  obtain ⟨hi,hroom⟩ : a i = none ∧ a.used+x.msgs.length ≤ sizeItems := by
    obtain ⟨chains,hrep⟩ := hr
    refine ⟨(hrep.head_eq i).mp htree,?_⟩
    have hfree := (hrep.wellFormed hd).space
    rw [hspace,Option.some.injEq] at hfree
    have hused := hrep.used_eq
    omega
  obtain ⟨k,s,hold,hc,hk,hsame⟩ := Sending.pushMsgs_repeated hlong hd hi hroom hlen hpos
  obtain ⟨q,hq,hqr⟩ := hr.run ((repeated x.msgs counts).map Op.ofMsg)
  rw [run_ofMsg] at hqr
  refine ⟨q,k,hq,?_,hqr.finished_iff.mpr ⟨s,hk,hc.dlc⟩,?_,
    fun j hj => hr.same_finished hqr (hsame j hj)⟩
  · rw [hr.finished_iff]
    rintro ⟨u,hu,hdu⟩
    exact hdu (hold u hu)
  · intro dest hdest
    have hb := hc.bytes hlong
    have hfit : s.bytes.length ≤ dest.length := by
      rw [hb,List.length_append]
      exact hdest
    obtain ⟨r,hread,-⟩ := hqr.readTree hk dest
    obtain ⟨hout,hlast,-⟩ := s.read_out dest hfit
    exact ⟨r,_,hread,by rw [Writer.out,hlast,hout,hb]⟩

def longSending : Sending where
  defaults := ⟨0#3,0#16,6#7,0#3,0#3⟩
  txmsg := ⟨0#32,0#4,false,Vector.replicate 8 0#8⟩
  data := (List.range 20).map (BitVec.ofNat 8)
  size := by decide

/-- The first message three times, the one in the middle twice, the last once. -/
theorem repeated_assembled_three : ∃ q k,
    init.run ((repeated longSending.msgs [3,2,1]).map Op.ofMsg) = some q ∧
    ¬ init.Finished k ∧ q.Finished k ∧
    (∀ dest, 22 ≤ dest.length → ∃ r w, q.readTree k dest = some (r,w) ∧
      w.out = longSending.data ++ checksum longSending.data) ∧
    ∀ j ≠ k, (q.Finished j ↔ init.Finished j) ∧ (init.Finished j → init.Kept q j) :=
  @repeated_assembled init [] longSending [3,2,1] 76 0 rfl (by decide +kernel) rfl
    (by decide +kernel) (by decide +kernel) (by decide +kernel) (by decide)

end Pool

end ApxBus.Can
