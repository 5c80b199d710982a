import ApxBus.Can.Integrity
set_option autoImplicit false

/-! How large a buffer must be for a packet to be received in it. -/

namespace ApxBus.Can
open Function

theorem Assembly.copy_le (dlc : Byte) (cs : List (Vector Byte 8)) (w : Writer)
    (h : w.pos ≤ w.size) : w.pos ≤ (copy dlc cs w).pos ∧ (copy dlc cs w).pos ≤ w.size ∧
      (copy dlc cs w).size = w.size := by
  induction cs generalizing w with
  | nil => exact ⟨Nat.le_refl _,h,rfl⟩
  | cons c cs ih =>
    cases cs with
    | nil =>
      unfold copy
      split_ifs with h8 hs
      · exact ⟨Nat.le_refl _,h,rfl⟩
      · have hf : w.pos+(c.toList.take dlc.toNat).length ≤ w.size := by simp; omega
        refine ⟨?_,?_,Writer.size_write _ _ h⟩
        · rw [Writer.write_fits hf]
          exact Nat.le_add_right _ _
        · rw [Writer.write_fits hf]
          exact hf
      · exact ⟨Nat.le_refl _,h,rfl⟩
    | cons c' cs =>
      unfold copy
      split_ifs with hs
      · exact ⟨Nat.le_refl _,h,rfl⟩
      · have hf : w.pos+c.toList.length ≤ w.size := by simp; omega
        have hpos : (w.write c.toList).pos = w.pos+c.toList.length := by rw [Writer.write_fits hf]
        have hsize := Writer.size_write w c.toList h
        obtain ⟨h1,h2,h3⟩ := ih (w.write c.toList) (by rw [hpos,hsize]; exact hf)
        rw [hsize] at h2 h3
        exact ⟨by omega,h2,h3⟩

theorem Assembly.read_le (s : Assembly) {dest : List Byte} (h : 2 ≤ dest.length) :
    2 ≤ (s.read dest).pos ∧ (s.read dest).pos ≤ dest.length ∧
      (s.read dest).buf.length = dest.length := by
  have hf : (Writer.mk dest 0).pos+(bytes16 s.extid.pid).length ≤ (Writer.mk dest 0).size := by
    simp only [Writer.size,bytes16_length]
    omega
  have hpos := Writer.pos_writeT hf
  have hsize := Writer.size_writeT ⟨dest,0⟩ (bytes16 s.extid.pid)
  rw [bytes16_length] at hpos
  obtain ⟨h1,h2,h3⟩ := copy_le s.dlc s.chunks ((Writer.mk dest 0).writeT (bytes16 s.extid.pid))
    (by rw [hpos,hsize]; exact hf)
  rw [hpos] at h1
  rw [hsize] at h2 h3
  exact ⟨h1,h2,h3⟩

namespace Assemblies

def single (k : Fin sizeTrees) (s : Assembly) : Assemblies := update empty k (some s)

variable {k : Fin sizeTrees} {s : Assembly}

theorem single_self : single k s k = some s := update_self _ _ _

theorem single_some {j : Fin sizeTrees} {u : Assembly} (h : single k s j = some u) :
    j = k ∧ u = s := by
  by_cases hj : j = k
  · subst hj
    rw [single_self,Option.some.injEq] at h
    exact ⟨rfl,h.symm⟩
  · rw [single,update_of_ne hj] at h
    cases h

theorem single_distinct : (single k s).Distinct := by
  intro i j u v hu hv _ _
  rw [(single_some hu).1,(single_some hv).1]

theorem single_used : (single k s).used = s.chunks.length := by
  rw [used,Finset.sum_eq_single k]
  · rw [single_self]
    rfl
  · intro j _ hj
    rw [single,update_of_ne hj]
    rfl
  · exact fun h => absurd (Finset.mem_univ k) h

theorem used_empty : empty.used ≠ sizeItems := by
  have h : empty.used = 0 := Finset.sum_eq_zero fun _ _ => rfl
  rw [h]
  decide

theorem update_single (u : Assembly) : update (single k s) k (some u) = single k u :=
  update_idem _ _ _

theorem readFrom_empty (dest : List Byte) (src : BitVec 7) (ks : List (Fin sizeTrees)) :
    readFrom dest src ks empty = (empty,⟨0,dest,src⟩) := by
  induction ks with
  | nil => rfl
  | cons j ks ih => exact ih

theorem readFrom_single {dest : List Byte} (src : BitVec 7) (hd : s.dlc ≠ 0#8)
    (h : 2 ≤ dest.length) {ks : List (Fin sizeTrees)} (hk : k ∈ ks) :
    readFrom dest src ks (single k s) =
      (empty,⟨(s.read dest).pos,(s.read dest).buf,s.extid.src⟩) := by
  induction ks with
  | nil => cases hk
  | cons j ks ih =>
    by_cases hj : j = k
    · subst hj
      have hpos := (s.read_le h).1
      unfold readFrom
      simp only [single_self,hd,if_false]
      rw [if_pos (by omega)]
      refine congrArg (·,_) ?_
      rw [single,update_idem]
      exact update_eq_self j empty
    · unfold readFrom
      simp only [single,update_of_ne hj]
      exact ih ((List.mem_cons.mp hk).resolve_left fun h => hj h.symm)

theorem push_empty_ne (extid : Extid) (data : Vector Byte 8) (dlc : Byte) :
    (empty.push extid data dlc).2 ≠ .errorTreeOverflow := by
  have hnew : ∀ dlc, (empty.pushNew extid data dlc).2 ≠ .errorTreeOverflow := by
    intro dlc
    have hrem : empty.remove extid = empty := rfl
    have hfree : empty.firstFree = some 0 := by decide
    unfold pushNew
    rw [hrem]
    dsimp only
    rw [hfree]
    dsimp only
    split_ifs
    · exact ErrorType.noConfusion
    · exact ErrorType.noConfusion
  have hnext : ∀ dlc, empty.pushNext extid data dlc =
      ((empty.remove extid).timeout,.errorOrphan) := fun _ => rfl
  unfold push
  split_ifs
  · exact ErrorType.noConfusion
  · exact ErrorType.noConfusion
  · rw [hnext]
    exact ErrorType.noConfusion
  · exact ErrorType.noConfusion
  · exact hnew _
  · exact hnew _
  · exact hnew _
  · exact ErrorType.noConfusion
  · rw [hnext]
    exact ErrorType.noConfusion

end Assemblies

section
variable {x : Sending} {c : Codec} {k : Fin sizeTrees} {v : Assembly}

theorem Codec.checkCrc_le (dest : List Byte) (sz : Nat) : checkCrc dest sz ≤ sz-2 := by
  unfold checkCrc
  dsimp only
  split_ifs
  · exact Nat.zero_le _
  · exact Nat.le_refl _

theorem Codec.step_push {a : Assemblies} {m : XcanMsg} (hr : c.pool.Refines a)
    (hsrc : (Extid.ofRaw m.id).src ≠ c.extidDefaults.src)
    (hacc : c.acceptFilter (Extid.ofRaw m.id) = true) :
    ∃ p, c.step (.pushMessage m) = some {c with pool := p} ∧
      p.Refines (a.push (Extid.ofRaw m.id) m.data (m.dlc.setWidth 8)).1 := by
  obtain ⟨p,hp,hq⟩ := hr.push (Extid.ofRaw m.id) m.data (m.dlc.setWidth 8)
  refine ⟨p,?_,hq⟩
  unfold step pushMessage
  dsimp only
  rw [if_neg hsrc,if_neg (not_not.mpr hacc),hp]
  rfl

theorem Sending.Waiting.used_ne {u : Assembly} {rest : List XcanMsg} (h : x.Waiting u rest)
    (hsize : x.data.length ≤ 512) : (Assemblies.single k u).used ≠ sizeItems := by
  obtain ⟨todo,hbody,-⟩ := h.frames
  have hlen := congrArg List.length hbody
  have hflat : (u.chunks.flatMap Vector.toList).length = 8*u.chunks.length := by
    rw [List.length_flatMap]
    simp [Nat.mul_comm]
  rw [List.length_append,hflat,Sending.body,List.length_append,List.length_drop,
    bytes16_length] at hlen
  rw [Assemblies.single_used,sizeItems]
  omega

theorem Sending.Waiting.run {u : Assembly} {rest : List XcanMsg} (h : x.Waiting u rest)
    (hr : c.pool.Refines (Assemblies.single k u)) (hsize : x.data.length ≤ 512)
    (hsrc : ∀ m ∈ rest, (Extid.ofRaw m.id).src ≠ c.extidDefaults.src)
    (hacc : ∀ m ∈ rest, c.acceptFilter (Extid.ofRaw m.id) = true) :
    ∃ p v, c.run (rest.map .pushMessage) = some {c with pool := p} ∧
      p.Refines (Assemblies.single k v) ∧ x.Complete v := by
  induction rest generalizing c u with
  | nil =>
    obtain ⟨todo,-,hf⟩ := h.frames
    cases hf
  | cons m ms ih =>
    obtain ⟨u',hprog,hpush⟩ := Sending.push_next Assemblies.single_distinct
      Assemblies.single_self h (h.used_ne hsize)
    obtain ⟨p,hp,hq⟩ := Codec.step_push hr (hsrc m List.mem_cons_self)
      (hacc m List.mem_cons_self)
    rw [hpush,Assemblies.update_single] at hq
    have hrun : c.run ((m :: ms).map .pushMessage) =
        ({c with pool := p} : Codec).run (ms.map .pushMessage) := by
      rw [Codec.run,List.map_cons,List.foldlM_cons,hp]
      rfl
    rw [hrun]
    unfold Sending.Progress at hprog
    split_ifs at hprog with hms
    · subst hms
      exact ⟨p,u',rfl,hq,hprog⟩
    · exact @ih {c with pool := p} u' hprog hq (fun m hm => hsrc m (List.mem_cons_of_mem _ hm))
        fun m hm => hacc m (List.mem_cons_of_mem _ hm)

/-- A packet pushed into a fresh pool is assembled in one tree of it. -/
theorem Sending.run_msgs (x : Sending) (c : Codec) (hsize : x.data.length ≤ 512)
    (hsrc : x.defaults.src ≠ c.extidDefaults.src)
    (hacc : ∀ m ∈ x.msgs, c.acceptFilter (Extid.ofRaw m.id) = true) :
    ∃ p k v, ({c with pool := Pool.init} : Codec).run (x.msgs.map .pushMessage) =
        some {c with pool := p} ∧ p.Refines (Assemblies.single k v) ∧ x.Complete v ∧
      (x.data.length ≤ 10 → v.bytes.length ≤ 10) := by
  have hpos := x.msgs_length_pos
  obtain ⟨m,rest,hms⟩ := List.exists_cons_of_length_pos hpos
  have hmem : ∀ m' ∈ m :: rest, (Extid.ofRaw m'.id).src ≠ c.extidDefaults.src ∧
      c.acceptFilter (Extid.ofRaw m'.id) = true := by
    intro m' hm'
    rw [← hms] at hm'
    rw [x.msgs_src hm']
    exact ⟨hsrc,hacc m' hm'⟩
  obtain ⟨hsrc0,hacc0⟩ := hmem m List.mem_cons_self
  obtain ⟨k,u,-,hprog,hpush⟩ := Sending.push_first hms (fun _ _ h => by cases h)
    Assemblies.used_empty (Assemblies.push_empty_ne _ _ _)
  obtain ⟨p,hp,hq⟩ := @Codec.step_push {c with pool := Pool.init} _ m Pool.init_refines hsrc0 hacc0
  have hone : u.bytes.length ≤ 10 := by
    have hk : (Assemblies.empty.push (Extid.ofRaw m.id) m.data (m.dlc.setWidth 8)).1 k =
      some u := by
      rw [hpush]
      exact Assemblies.single_self
    rcases Assemblies.push_some hk with ⟨n,h⟩ | h | ⟨w,h,-⟩
    · cases h
    · have hb := u.bytes_length_le
      rw [h] at hb
      exact hb
    · cases h
  rw [hpush] at hq
  have hrun : ({c with pool := Pool.init} : Codec).run (x.msgs.map .pushMessage) =
      ({c with pool := p} : Codec).run (rest.map .pushMessage) := by
    rw [hms,Codec.run,List.map_cons,List.foldlM_cons,hp]
    rfl
  rw [hrun]
  unfold Sending.Progress at hprog
  split_ifs at hprog with hrest
  · subst hrest
    exact ⟨p,k,u,rfl,hq,hprog,fun _ => hone⟩
  · obtain ⟨p',v,hrun,hv,hc⟩ := @Sending.Waiting.run x {c with pool := p} k u rest hprog hq hsize
      (fun m' hm' => (hmem m' (List.mem_cons_of_mem _ hm')).1)
      fun m' hm' => (hmem m' (List.mem_cons_of_mem _ hm')).2
    have hlong := hprog.long
    exact ⟨p',k,v,hrun,hv,hc,fun h => by omega⟩

theorem Codec.readPacket_empty (hr : c.pool.Refines Assemblies.empty) (dest : List Byte)
    (src : BitVec 7) :
    ∃ p, c.pool.readPacket dest src = some (p,⟨0,dest,src⟩) ∧ p.Refines Assemblies.empty := by
  obtain ⟨p,hp,hq⟩ := hr.readPacket dest src
  rw [Assemblies.readPacket,Assemblies.readFrom_empty] at hp hq
  exact ⟨p,hp,hq⟩

theorem Codec.readPacket_single (hr : c.pool.Refines (Assemblies.single k v)) (hd : v.dlc ≠ 0#8)
    {dest : List Byte} (h : 2 ≤ dest.length) (src : BitVec 7) :
    ∃ p r, c.readPacket dest src = some ({c with pool := p},r) ∧ p.Refines Assemblies.empty ∧
      (r.cnt = (v.read dest).pos ∧ (v.read dest).pos ≤ 10 ∨
        10 < (v.read dest).pos ∧ r.cnt ≤ (v.read dest).pos-2) := by
  obtain ⟨p,hp,hq⟩ := hr.readPacket dest src
  rw [Assemblies.readPacket,Assemblies.readFrom_single src hd h (List.mem_finRange k)] at hp hq
  unfold readPacket readLoop
  rw [hp]
  simp only [Option.bind_eq_bind,Option.bind_some]
  by_cases h10 : (v.read dest).pos ≤ 2+8
  · rw [if_pos h10]
    exact ⟨p,_,rfl,hq,Or.inl ⟨rfl,h10⟩⟩
  rw [if_neg h10]
  by_cases hcrc : checkCrc (v.read dest).buf (v.read dest).pos > 0
  · rw [if_pos hcrc]
    exact ⟨p,_,rfl,hq,Or.inr ⟨by omega,checkCrc_le _ _⟩⟩
  · rw [if_neg hcrc]
    obtain ⟨p',hp',hq'⟩ := @readPacket_empty {c with pool := p} hq (v.read dest).buf v.extid.src
    refine ⟨p',⟨0,(v.read dest).buf,v.extid.src⟩,?_,hq',Or.inr ⟨by omega,Nat.zero_le _⟩⟩
    unfold sizeTrees readLoop
    rw [hp']
    rfl

theorem Sending.Complete.bytes_length (h : x.Complete v)
    (h10 : x.data.length ≤ 10 → v.bytes.length ≤ 10) :
    v.bytes.length = if x.data.length ≤ 10 then x.data.length else x.data.length+2 := by
  have hlen := congrArg (fun r => r.2.length) h.packet
  dsimp only [Assembly.packet,Sending.received] at hlen
  split_ifs at hlen with hb
  · rw [if_pos (hlen ▸ hb),hlen]
  · rw [List.length_take] at hlen
    rw [if_neg fun hx => hb (h10 hx)]
    omega

/-- The only packet is read whole when its checksum has room as well. -/
theorem Sending.Complete.read_iff (h : x.Complete v)
    (h10 : x.data.length ≤ 10 → v.bytes.length ≤ 10)
    (hr : c.pool.Refines (Assemblies.single k v)) {dest : List Byte}
    (hd : x.data.length ≤ dest.length) (src : BitVec 7) :
    ∃ p r, c.readPacket dest src = some ({c with pool := p},r) ∧ p.Refines Assemblies.empty ∧
      ((r.srcId,r.dest.take r.cnt) = x.received ↔
        x.data.length ≤ 10 ∨ x.data.length+2 ≤ dest.length) := by
  have hlen := h.bytes_length h10
  have h2 := x.size
  by_cases hfit : v.bytes.length ≤ dest.length
  · have hintact : (Assemblies.single k v).Intact := by
      intro j u hu _
      rw [(Assemblies.single_some hu).2]
      exact h.intact
    have hroom : ∀ j u, Assemblies.single k v j = some u → u.bytes.length ≤ dest.length := by
      intro j u hu
      rw [(Assemblies.single_some hu).2]
      exact hfit
    obtain ⟨p,r,b,hread,hp,-,⟨-,-,hz⟩ | ⟨-,j,u,hu,-,rfl,hpkt⟩⟩ :=
      Codec.readPacket_spec hr hintact src hroom
    · have hcont := Assemblies.contents_update Assemblies.empty k (some v)
      rw [show Assemblies.contents (update Assemblies.empty k (some v)) = 0 from hz,
        Assemblies.offered,if_neg h.dlc] at hcont
      have hcard := congrArg Multiset.card hcont
      simp [Assemblies.offered,Assemblies.empty] at hcard
    · obtain ⟨rfl,rfl⟩ := Assemblies.single_some hu
      refine ⟨p,r,hread,?_,iff_of_true (hpkt.trans h.packet) ?_⟩
      · rw [Assemblies.single,update_idem] at hp
        exact update_eq_self j Assemblies.empty ▸ hp
      · split_ifs at hlen with hx
        · exact Or.inl hx
        · exact Or.inr (hlen ▸ hfit)
  · obtain ⟨-,hle,-⟩ := v.read_le (h2.trans hd)
    obtain ⟨p,r,hread,hp,hcnt⟩ := Codec.readPacket_single hr h.dlc (h2.trans hd) src
    have hlong : ¬ x.data.length ≤ 10 := by
      intro hx
      rw [if_pos hx] at hlen
      omega
    rw [if_neg hlong] at hlen
    refine ⟨p,r,hread,hp,iff_of_false (fun heq => ?_) (by omega)⟩
    have hshort : x.data.length ≤ r.cnt := by
      have hl : (r.dest.take r.cnt).length = x.data.length := congrArg (fun r => r.2.length) heq
      rw [← hl]
      exact List.length_take_le _ _
    omega

/-- A packet whose messages arrive in a fresh pool is received whole in a buffer of its size if it
has no checksum, and otherwise if the buffer is longer by the two bytes of it. -/
theorem Codec.received_whole_iff (x : Sending) (c : Codec) (hsize : x.data.length ≤ 512)
    (hsrc : x.defaults.src ≠ c.extidDefaults.src)
    (hfilter : ∀ m ∈ x.msgs, c.acceptFilter (Extid.ofRaw m.id) = true)
    (dest : List Byte) (src : BitVec 7) (hd : x.data.length ≤ dest.length) :
    ∃ d d' r, ({c with pool := Pool.init} : Codec).run (x.msgs.map .pushMessage) = some d ∧
      d.readPacket dest src = some (d',r) ∧
      ((r.srcId,r.dest.take r.cnt) = x.received ↔
        x.data.length ≤ 10 ∨ x.data.length+2 ≤ dest.length) := by
  obtain ⟨p,k,v,hrun,hr,hc,h10⟩ := x.run_msgs c hsize hsrc hfilter
  obtain ⟨p',r,hread,-,hiff⟩ := @Sending.Complete.read_iff x {c with pool := p} k v hc h10 hr dest
    hd src
  exact ⟨_,_,r,hrun,hread,hiff⟩

end

theorem Codec.received_whole_iff_two :
    ∃ d d' r, ({Bus.openCodec with pool := Pool.init} : Codec).run
        ((Bus.twoSendings 1).msgs.map .pushMessage) = some d ∧
      d.readPacket (List.replicate 13 0#8) 0#7 = some (d',r) ∧
      (r.srcId,r.dest.take r.cnt) = (Bus.twoSendings 1).received := by
  obtain ⟨d,d',r,hrun,hread,hiff⟩ := received_whole_iff (Bus.twoSendings 1) Bus.openCodec
    (by decide) (by decide) (fun _ _ => rfl) (List.replicate 13 0#8) 0#7 (by decide)
  exact ⟨d,d',r,hrun,hread,hiff.mpr (Or.inr (by decide))⟩

def fullSize : Sending where
  defaults := ⟨0#3,0#16,5#7,0#3,0#3⟩
  txmsg := ⟨0#32,0#4,false,Vector.replicate 8 0#8⟩
  data := List.replicate 512 0#8
  size := by rw [List.length_replicate]; decide

/-- In a buffer of `size_packet_max` bytes it is not received, and afterwards it is gone. -/
theorem Codec.fullSize_lost :
    fullSize.data.length ≤ 512 ∧ fullSize.defaults.src ≠ Bus.openCodec.extidDefaults.src ∧
    (∀ m ∈ fullSize.msgs, Bus.openCodec.acceptFilter (Extid.ofRaw m.id) = true) ∧
    ∃ d d' r, ({Bus.openCodec with pool := Pool.init} : Codec).run
        (fullSize.msgs.map .pushMessage) = some d ∧
      d.readPacket (List.replicate 512 0#8) 0#7 = some (d',r) ∧
      (r.srcId,r.dest.take r.cnt) ≠ fullSize.received ∧ d'.pool.Refines Assemblies.empty := by
  have hlen : fullSize.data.length = 512 := List.length_replicate
  have hsrc : fullSize.defaults.src ≠ Bus.openCodec.extidDefaults.src := by decide
  refine ⟨hlen.le,hsrc,fun _ _ => rfl,?_⟩
  obtain ⟨p,k,v,hrun,hr,hc,h10⟩ := fullSize.run_msgs Bus.openCodec hlen.le hsrc fun _ _ => rfl
  obtain ⟨p',r,hread,hp',hiff⟩ := @Sending.Complete.read_iff fullSize
    {Bus.openCodec with pool := p} k v hc h10 hr (List.replicate 512 0#8)
    (by rw [hlen,List.length_replicate]) 0#7
  refine ⟨_,_,r,hrun,hread,fun heq => ?_,hp'⟩
  have hcond := hiff.mp heq
  rw [hlen,List.length_replicate] at hcond
  omega

end ApxBus.Can
