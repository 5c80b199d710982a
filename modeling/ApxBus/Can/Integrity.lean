import ApxBus.Can.Delivery
import ApxBus.Can.Eviction
import ApxBus.CrcChanges
set_option autoImplicit false

/-! Which packets are delivered with their checksum checked. -/

namespace ApxBus.Can
open Function

/-- The checksum that follows the bytes of a packet of several messages. -/
def checksum (data : List Byte) : List Byte :=
  bytes16 ((crc32 data data.length crcInit).setWidth 16)

theorem Codec.checkCrc_pos {l : List Byte} (h2 : 2 ≤ l.length) (h : 0 < checkCrc l l.length) :
    checkCrc l l.length = l.length-2 ∧ l = l.take (l.length-2) ++
      checksum (l.take (l.length-2)) := by
  obtain ⟨b0,b1,htail⟩ := List.length_eq_two.mp
    (show (l.drop (l.length-2)).length = 2 by rw [List.length_drop]; omega)
  have hl := List.take_append_drop (l.length-2) l
  rw [htail] at hl
  have hlen : (l.take (l.length-2)).length = l.length-2 := List.length_take_of_le (by omega)
  have h0 : l.getD (l.length-2) 0#8 = b0 := by
    rw [List.getD_eq_getElem?_getD,← Nat.add_zero (l.length-2),← List.getElem?_drop,htail]
    rfl
  have h1 : l.getD (l.length-2+1) 0#8 = b1 := by
    rw [List.getD_eq_getElem?_getD,← List.getElem?_drop,htail]
    rfl
  unfold checkCrc at h ⊢
  dsimp only at h ⊢
  rw [h0,h1] at h ⊢
  by_cases hne : le16 b0 b1 ≠ (crc32 l (l.length-2) crcInit).setWidth 16
  · rw [if_pos hne] at h
    exact absurd h (Nat.lt_irrefl 0)
  · rw [if_neg hne]
    refine ⟨rfl,?_⟩
    rw [checksum,hlen,crc32_take,← not_not.mp hne,bytes16_le16,hl]

theorem Assembly.cut_length {s : Assembly} (h : s.chunks ≠ []) :
    (cut s.dlc s.chunks).length =
      8*(s.chunks.length-1)+if s.dlc.toNat ≤ 8 then s.dlc.toNat else 0 := by
  obtain ⟨cs,c,hcs⟩ : ∃ cs c, s.chunks = cs ++ [c] :=
    ⟨_,_,(List.dropLast_append_getLast h).symm⟩
  have hflat : (cs.flatMap Vector.toList).length = 8*cs.length := by
    rw [List.length_flatMap]
    simp [Nat.mul_comm]
  rw [hcs,cut_append,List.length_append,hflat,List.length_append,List.length_singleton,
    Nat.add_sub_cancel,cut]
  split_ifs with h8
  · rw [List.length_take,Vector.length_toList,Nat.min_eq_left h8]
  · rfl

namespace Assemblies

/-- The packets of `b` are packets of `a`. -/
def Below (b a : Assemblies) : Prop := ∀ k s, b k = some s → a k = some s

theorem below_update (a : Assemblies) (k : Fin sizeTrees) : Below (update a k none) a :=
  fun _ _ => of_update_none

end Assemblies

/-- `r` is the packet of `s`: what was assembled, unchecked when there are at most ten bytes, or
what is left of it when the checksum is right and taken off. -/
def Assembly.ReadAs (s : Assembly) (r : Pool.ReadResult) : Prop :=
  r.srcId = s.extid.src ∧
    (s.bytes.length ≤ 10 ∧ r.dest.take r.cnt = s.bytes ∨
      10 < s.bytes.length ∧ s.bytes = r.dest.take r.cnt ++ checksum (r.dest.take r.cnt))

/-- Whatever the pool holds, `read_packet` of the codec has a result. -/
theorem Codec.readLoop_spec {c : Codec} {a : Assemblies} (hr : c.pool.Refines a)
    {dest : List Byte} (src : BitVec 7) (hd : 2+8*sizeItems ≤ dest.length) {fuel : Nat}
    (hf : a.contents.card < fuel) :
    ∃ p r b, readLoop fuel c dest src = some ({c with pool := p},r) ∧ p.Refines b ∧
      b.Below a ∧ (r.cnt = 0 ∨ ∃ k s, a k = some s ∧ s.dlc ≠ 0#8 ∧ s.ReadAs r) := by
  induction fuel generalizing c a dest src with
  | zero => omega
  | succ fuel ih =>
    have hroom : ∀ k s, a k = some s → s.bytes.length ≤ dest.length := fun k s hk => hr.room hd hk
    obtain ⟨p,hp,hq⟩ := hr.readPacket dest src
    rw [readLoop,hp]
    simp only [Option.bind_eq_bind,Option.bind_some]
    rcases a.readFrom_spec dest src (List.finRange sizeTrees) hroom with
      ⟨hall,hnone⟩ | ⟨k,s,buf,hk,hdlc,hlen,hbuf,hsome⟩
    · rw [Assemblies.readPacket,hnone] at hq ⊢
      rw [if_pos (Nat.zero_le _)]
      exact ⟨p,_,a,rfl,hq,fun _ _ h => h,Or.inl rfl⟩
    · rw [Assemblies.readPacket,hsome] at hq ⊢
      dsimp only
      have hpos := s.bytes_length
      by_cases h10 : s.bytes.length ≤ 2+8
      · rw [if_pos h10]
        exact ⟨p,_,_,rfl,hq,a.below_update k,Or.inr ⟨k,s,hk,hdlc,rfl,Or.inl ⟨h10,hbuf⟩⟩⟩
      rw [if_neg h10,← @checkCrc_take buf _ (by omega),hbuf]
      by_cases hcrc : checkCrc s.bytes s.bytes.length > 0
      · rw [if_pos hcrc]
        obtain ⟨hcnt,hsum⟩ := checkCrc_pos (by omega) hcrc
        refine ⟨p,_,_,rfl,hq,a.below_update k,Or.inr ⟨k,s,hk,hdlc,rfl,Or.inr ⟨by omega,?_⟩⟩⟩
        dsimp only
        rw [hcnt]
        have htake : buf.take (s.bytes.length-2) = s.bytes.take (s.bytes.length-2) := by
          rw [← hbuf,List.take_take,hbuf,Nat.min_eq_left (Nat.sub_le _ _)]
        rw [htake]
        exact hsum
      · rw [if_neg hcrc]
        have hcard := congrArg Multiset.card (Assemblies.contents_read hk hdlc)
        rw [Multiset.card_add,Multiset.card_singleton] at hcard
        obtain ⟨p',r,b,hread,hb,hbelow,hres⟩ := @ih {c with pool := p} _ hq buf s.extid.src
          (hlen ▸ hd) (by dsimp only; omega)
        refine ⟨p',r,b,hread,hb,fun j u hu => a.below_update k j u (hbelow j u hu),?_⟩
        refine hres.imp_right ?_
        rintro ⟨j,u,hu,hdu,hread⟩
        exact ⟨j,u,a.below_update k j u hu,hdu,hread⟩

namespace Assemblies
variable {a : Assemblies} {k : Fin sizeTrees} {s : Assembly} {extid : Extid}
  {data : Vector Byte 8} {dlc : Byte}

/-- Where an assembly comes from: it was there, or its first message came, or one more. -/
theorem push_some (h : (a.push extid data dlc).1 k = some s) :
    (∃ n, a k = some {s with timeout := n}) ∨ s.chunks = [data] ∨
      ∃ u, a k = some u ∧ u.Awaits extid ∧ s.chunks = u.chunks ++ [data] ∧
        (s.dlc ≠ 0#8 → a.used ≠ sizeItems ∧ extid.frm = frmEnd ∧ s.dlc = dlc) := by
  have hrem : a.remove extid k = some s → ∃ n, a k = some {s with timeout := n} := fun h =>
    ⟨s.timeout,(remove_some h).1⟩
  have hsweep : (a.remove extid).timeout k = some s → ∃ n, a k = some {s with timeout := n} := by
    intro h
    obtain ⟨n,hn,-⟩ := timeout_some h
    exact ⟨n,(remove_some hn).1⟩
  by_cases hu : a.used = sizeItems
  · rw [push,if_pos hu] at h
    obtain ⟨n,hn,-⟩ := timeout_some (remove_some h).1
    exact Or.inl ⟨n,hn⟩
  by_cases ho : Opens extid dlc
  · obtain ⟨dlc',hpush⟩ := @push_opens _ _ data _ hu ho
    rw [hpush] at h
    rcases a.pushNew_cases extid data dlc' with ⟨-,heq⟩ | ⟨j,u,-,heq,-,-,hone⟩
    · rw [heq] at h
      exact Or.inl (hsweep h)
    · rw [heq] at h
      by_cases hj : k = j
      · subst hj
        rw [update_self,Option.some.injEq] at h
        exact Or.inr (Or.inl (h ▸ hone))
      · rw [update_of_ne hj] at h
        exact Or.inl (hrem h)
  by_cases hc : Carries extid dlc
  · rw [push_carries hu hc,pushNext] at h
    cases hf : a.firstAwaiting extid with
    | none =>
      rw [hf] at h
      exact Or.inl (hsweep h)
    | some ju =>
      obtain ⟨j,u⟩ := ju
      obtain ⟨hj,haw⟩ := firstAwaiting_some hf
      rw [hf] at h
      dsimp only at h
      cases hseq : Pool.checkSeq u.extid extid (if extid.frm = frmEnd then dlc else 0#8) with
      | error rv =>
        rw [hseq] at h
        rcases checkSeq_error hseq with rfl | rfl
        · exact Or.inl (hsweep h)
        · exact Or.inl ⟨s.timeout,h⟩
      | ok tFrm =>
        rw [hseq] at h
        dsimp only at h
        by_cases hk : k = j
        · subst hk
          rw [update_self,Option.some.injEq] at h
          subst h
          refine Or.inr (Or.inr ⟨u,hj,haw,rfl,fun hd => ?_⟩)
          by_cases he : extid.frm = frmEnd
          · exact ⟨hu,he,if_pos he⟩
          · exact absurd (if_neg he) hd
        · rw [update_of_ne hk] at h
          exact Or.inl ⟨s.timeout,h⟩
  · rw [push_neither hu ho hc] at h
    exact Or.inl ⟨s.timeout,h⟩

/-- No packet was finished by a second message of a size over eight. -/
def Sound (a : Assemblies) : Prop :=
  ∀ k s, a k = some s → s.dlc ≠ 0#8 → ¬ (s.chunks.length = 2 ∧ 8 < s.dlc.toNat)

theorem Sound.push (h : a.Sound)
    (hok : ¬ (a.used ≠ sizeItems ∧ extid.frm = frmEnd ∧ 8 < dlc.toNat ∧
      ∃ k u, a k = some u ∧ u.Awaits extid ∧ u.chunks.length = 1)) :
    (a.push extid data dlc).1.Sound := by
  intro k s hk hd
  rcases push_some hk with ⟨n,hn⟩ | hone | ⟨u,hu,haw,hmore,hend⟩
  · have hold := h k {s with timeout := n} hn
    exact hold hd
  · rw [hone]
    exact fun h => absurd h.1 (by simp)
  · rintro ⟨h2,h8⟩
    obtain ⟨hused,he,hdlc⟩ := hend hd
    rw [hmore,List.length_append,List.length_singleton] at h2
    exact hok ⟨hused,he,hdlc ▸ h8,k,u,hu,haw,by omega⟩

end Assemblies

theorem Pool.Refines.chunks_ne {p : Pool} {a : Assemblies} (h : p.Refines a) {k : Fin sizeTrees}
    {s : Assembly} (hk : a k = some s) : s.chunks ≠ [] := by
  obtain ⟨chains,hr⟩ := h
  have hold := hr.holds k
  rw [hk] at hold
  rw [← hold.2.1,ne_eq,List.map_eq_nil_iff]
  exact hold.1

def Pool.assembled (p : Pool) (k : Fin sizeTrees) : Option (List Byte) :=
  (p.chain k).map fun l =>
    bytes16 (p.trees k).extid.pid ++ Assembly.cut (p.trees k).dlc l

theorem Pool.Refines.assembled {p : Pool} {a : Assemblies} (h : p.Refines a) {k : Fin sizeTrees}
    {s : Assembly} (hk : a k = some s) : p.assembled k = some s.bytes := by
  obtain ⟨-,hext,hdlc,hchain⟩ := h.tree hk
  rw [Pool.assembled,hchain,hext,hdlc]
  rfl

namespace Codec

/-- A call from outside. -/
inductive Op where
  | pushMessage (msg : XcanMsg)
  | readPacket (dest : List Byte) (src : BitVec 7)

def step (c : Codec) : Op → Option Codec
  | .pushMessage msg => (c.pushMessage msg).map Prod.fst
  | .readPacket dest src => (c.readPacket dest src).map Prod.fst

def run (c : Codec) (ops : List Op) : Option Codec := ops.foldlM step c

def Oversized (c : Codec) (msg : XcanMsg) : Prop :=
  (Extid.ofRaw msg.id).src ≠ c.extidDefaults.src ∧ c.acceptFilter (Extid.ofRaw msg.id) = true ∧
  c.pool.free ≠ maxIdx ∧ (Extid.ofRaw msg.id).frm = frmEnd ∧ 8 < msg.dlc.toNat ∧
  ∃ k d, c.pool.Unfinished k ∧ (c.pool.trees k).extid.sameId (Extid.ofRaw msg.id) ∧
    c.pool.chain k = some [d]

def Regular (c : Codec) (ops : List Op) : Prop :=
  ∀ ops1 msg ops2 d, ops = ops1 ++ .pushMessage msg :: ops2 → c.run ops1 = some d →
    ¬ d.Oversized msg

variable {c d : Codec} {a : Assemblies}

theorem readLoop_below {fuel : Nat} {dest : List Byte} {src : BitVec 7} {r : Pool.ReadResult}
    (hr : c.pool.Refines a) (h : c.readLoop fuel dest src = some (d,r)) :
    ∃ b, d.pool.Refines b ∧ b.Below a := by
  induction fuel generalizing c a dest src with
  | zero => cases h
  | succ fuel ih =>
    obtain ⟨q,hq,hqr⟩ := hr.readPacket dest src
    have hbelow : (a.readPacket dest src).1.Below a := fun _ _ hk =>
      Assemblies.readFrom_some hk
    rw [readLoop,hq] at h
    simp only [Option.bind_eq_bind,Option.bind_some] at h
    split_ifs at h
    · cases h
      exact ⟨_,hqr,hbelow⟩
    · cases h
      exact ⟨_,hqr,hbelow⟩
    · obtain ⟨b,hb,hbb⟩ := @ih {c with pool := q} _ _ _ hqr h
      exact ⟨b,hb,fun k s hk => hbelow k s (hbb k s hk)⟩

theorem step_refines {op : Op} (hr : c.pool.Refines a) (h : c.step op = some d) :
    ∃ b, d.pool.Refines b ∧
      (a.Sound → (∀ msg, op = .pushMessage msg → ¬ c.Oversized msg) → b.Sound) := by
  cases op with
  | pushMessage msg =>
    obtain ⟨⟨c',rv,sent⟩,hpush,rfl⟩ := Option.map_eq_some_iff.mp h
    unfold pushMessage at hpush
    dsimp only at hpush
    by_cases hsrc : (Extid.ofRaw msg.id).src = c.extidDefaults.src
    · rw [if_pos hsrc] at hpush
      cases hpush
      exact ⟨a,hr,fun hs _ => hs⟩
    rw [if_neg hsrc] at hpush
    by_cases hacc : ¬ c.acceptFilter (Extid.ofRaw msg.id)
    · rw [if_pos hacc] at hpush
      cases hpush
      exact ⟨a,hr,fun hs _ => hs⟩
    rw [if_neg hacc] at hpush
    obtain ⟨q,hq,hqr⟩ := hr.push (Extid.ofRaw msg.id) msg.data (msg.dlc.setWidth 8)
    rw [hq] at hpush
    cases hpush
    refine ⟨_,hqr,fun hs hok => hs.push fun ⟨hused,he,h8,k,u,hu,haw,h1⟩ => hok msg rfl ?_⟩
    obtain ⟨hhead,hext,hdlc,hchain⟩ := hr.tree hu
    have hfree : c.pool.free ≠ maxIdx := by
      obtain ⟨chains,hrep⟩ := hr
      rw [ne_eq,hrep.free_eq]
      exact hused
    rw [BitVec.toNat_setWidth_of_le (by decide)] at h8
    obtain ⟨x,hx⟩ := List.length_eq_one_iff.mp h1
    exact ⟨hsrc,not_not.mp hacc,hfree,he,h8,k,x,⟨hhead,hdlc.trans haw.1⟩,hext ▸ haw.2,
      hchain.trans (congrArg some hx)⟩
  | readPacket dest src =>
    obtain ⟨⟨c',r⟩,hread,rfl⟩ := Option.map_eq_some_iff.mp h
    obtain ⟨b,hb,hbelow⟩ := readLoop_below hr hread
    exact ⟨b,hb,fun hs _ k s hk => hs k s (hbelow k s hk)⟩

theorem run_cons {op : Op} {ops : List Op} (h : c.run (op :: ops) = some d) :
    ∃ c1, c.step op = some c1 ∧ c1.run ops = some d := Option.bind_eq_some_iff.mp h

theorem run_sound {ops : List Op} (hr : c.pool.Refines a) (h : c.run ops = some d) :
    ∃ b, d.pool.Refines b ∧ (a.Sound → c.Regular ops → b.Sound) := by
  induction ops generalizing c a with
  | nil =>
    cases h
    exact ⟨a,hr,fun hs _ => hs⟩
  | cons op ops ih =>
    obtain ⟨c1,h1,h⟩ := run_cons h
    obtain ⟨b1,hr1,hs1⟩ := step_refines hr h1
    obtain ⟨b,hb,hs⟩ := ih hr1 h
    refine ⟨b,hb,fun ha hreg => hs (hs1 ha fun msg hop => ?_) fun ops1 msg ops2 d hops hd => ?_⟩
    · exact hreg [] msg ops c (by rw [hop]; rfl) rfl
    · refine hreg (op :: ops1) msg ops2 d (by rw [hops]; rfl) ?_
      rw [run,List.foldlM_cons,h1]
      exact hd

/-- What a read returns is the packet of a tree. Of several messages, its checksum was checked
unless there were two and the size of the last is over eight. -/
theorem readPacket_checked (hr : c.pool.Refines a) {dest : List Byte} (src : BitVec 7)
    (hd : 610 ≤ dest.length) :
    ∃ d r, c.readPacket dest src = some (d,r) ∧ (r.cnt = 0 ∨
      ∃ k l bytes, c.pool.Finished k ∧ c.pool.chain k = some l ∧
        c.pool.assembled k = some bytes ∧ r.srcId = (c.pool.trees k).extid.src ∧
        r.dest.take r.cnt <+: bytes ∧
        (1 < l.length → (bytes = r.dest.take r.cnt ++ checksum (r.dest.take r.cnt) ↔
          ¬ (l.length = 2 ∧ 8 < (c.pool.trees k).dlc.toNat)))) := by
  obtain ⟨p,r,b,hread,-,-,hres⟩ := readLoop_spec hr src hd (Nat.lt_succ_of_le a.contents_card)
  refine ⟨_,r,hread,hres.imp_right ?_⟩
  rintro ⟨k,s,hk,hdlc,hsrc,hcase⟩
  obtain ⟨hhead,hext,htd,hchain⟩ := hr.tree hk
  refine ⟨k,s.chunks,s.bytes,⟨hhead,htd ▸ hdlc⟩,hchain,hr.assembled hk,by rw [hsrc,hext],?_,
    fun hmany => ?_⟩
  · rcases hcase with ⟨-,heq⟩ | ⟨-,heq⟩
    · rw [heq]
    · rw [heq]
      exact List.prefix_append _ _
  · have hpos : 0 < s.dlc.toNat := by
      rw [Nat.pos_iff_ne_zero]
      exact fun h0 => hdlc (BitVec.eq_of_toNat_eq h0)
    have hlen := s.bytes_length
    rw [Assembly.cut_length (hr.chunks_ne hk)] at hlen
    rw [htd]
    rcases hcase with ⟨h10,heq⟩ | ⟨h10,heq⟩
    · refine iff_of_false (fun hsum => ?_) (not_not.mpr ?_)
      · have hl := congrArg List.length hsum
        rw [heq,List.length_append,checksum,bytes16_length] at hl
        omega
      · split_ifs at hlen <;> omega
    · refine iff_of_true heq ?_
      rintro ⟨h2,h8⟩
      rw [if_neg (Nat.not_le.mpr h8)] at hlen
      omega

/-- In a run without an oversized second and last message, the checksum of every packet of several
messages that a read returns was right. -/
theorem multi_checked (c d : Codec) (ops : List Op)
    (hrun : {c with pool := Pool.init}.run ops = some d)
    (hreg : {c with pool := Pool.init}.Regular ops) (dest : List Byte) (src : BitVec 7)
    (hd : 610 ≤ dest.length) :
    ∃ d' r, d.readPacket dest src = some (d',r) ∧ (r.cnt = 0 ∨
      ∃ k l bytes, d.pool.Finished k ∧ d.pool.chain k = some l ∧
        d.pool.assembled k = some bytes ∧ r.srcId = (d.pool.trees k).extid.src ∧
        r.dest.take r.cnt <+: bytes ∧
        (1 < l.length → bytes = r.dest.take r.cnt ++ checksum (r.dest.take r.cnt))) := by
  obtain ⟨b,hb,hsound⟩ := @run_sound {c with pool := Pool.init} d _ ops Pool.init_refines hrun
  have hs : b.Sound := hsound (fun _ _ h => by cases h) hreg
  obtain ⟨d',r,hread,hres⟩ := readPacket_checked hb src hd
  refine ⟨d',r,hread,hres.imp_right ?_⟩
  rintro ⟨k,l,bytes,hfin,hchain,hbytes,hsrc,hpre,hiff⟩
  refine ⟨k,l,bytes,hfin,hchain,hbytes,hsrc,hpre,fun hmany => (hiff hmany).mpr ?_⟩
  obtain ⟨s,hk,hdlc⟩ := hb.finished hfin
  obtain ⟨-,-,htd,hch⟩ := hb.tree hk
  rw [hchain,Option.some.injEq] at hch
  rw [hch,htd]
  exact hs k s hk hdlc

theorem multi_checked_two :
    ∃ d d' r, ({Bus.openCodec with pool := Pool.init} : Codec).run
        ((Bus.twoSendings 1).msgs.map .pushMessage) = some d ∧
      d.readPacket (List.replicate 610 0#8) 0#7 = some (d',r) ∧ r.cnt = 11 ∧
      ∃ k l bytes, d.pool.chain k = some l ∧ d.pool.assembled k = some bytes ∧
        (1 < l.length → bytes = r.dest.take r.cnt ++ checksum (r.dest.take r.cnt)) := by
  have hcnt : (({Bus.openCodec with pool := Pool.init} : Codec).run
      ((Bus.twoSendings 1).msgs.map .pushMessage)).bind (fun d =>
        (d.readPacket (List.replicate 610 0#8) 0#7).map fun x => x.2.cnt) = some 11 := by
    decide +kernel
  obtain ⟨d,hd,hread⟩ := Option.bind_eq_some_iff.mp hcnt
  have hreg : ({Bus.openCodec with pool := Pool.init} : Codec).Regular
      ((Bus.twoSendings 1).msgs.map .pushMessage) := by
    have hsize : ∀ m ∈ (Bus.twoSendings 1).msgs, m.dlc.toNat ≤ 8 := by decide
    intro ops1 msg ops2 d' hops _ hover
    have hm : Op.pushMessage msg ∈ (Bus.twoSendings 1).msgs.map .pushMessage := by
      rw [hops]
      simp
    obtain ⟨m,hm,heq⟩ := List.mem_map.mp hm
    cases heq
    exact absurd hover.2.2.2.2.1 (Nat.not_lt.mpr (hsize msg hm))
  obtain ⟨d',r,hr,hres⟩ := multi_checked Bus.openCodec d _ hd hreg (List.replicate 610 0#8) 0#7
    List.length_replicate.ge
  rw [hr,Option.map_some,Option.some.injEq] at hread
  rcases hres with h0 | ⟨k,l,bytes,-,hl,hb,-,-,hsum⟩
  · rw [h0] at hread
    cases hread
  · exact ⟨d,d',r,hd,hr,hread,k,l,bytes,hl,hb,hsum⟩

/-- A first message, and a last one that says nine: the eight bytes of the first are returned with
the identifier, and no checksum was looked at. -/
def oversized : List Op :=
  [.pushMessage ⟨(⟨frmStart,9#16,5#7,0#3,0#3⟩ : Extid).raw,8#4,true,Vector.replicate 8 7#8⟩,
    .pushMessage ⟨(⟨frmEnd,9#16,5#7,0#3,0#3⟩ : Extid).raw,9#4,true,Vector.replicate 8 1#8⟩]

theorem oversized_unchecked :
    ∃ d d' r l, ({Bus.openCodec with pool := Pool.init} : Codec).run oversized = some d ∧
      d.readPacket (List.replicate 610 0#8) 0#7 = some (d',r) ∧ r.cnt = 10 ∧
      d.pool.Finished 0 ∧ d.pool.chain 0 = some l ∧ l.length = 2 ∧
      ¬ ∃ k l bytes, d.pool.Finished k ∧ d.pool.chain k = some l ∧
        d.pool.assembled k = some bytes ∧
        (1 < l.length → bytes = r.dest.take r.cnt ++ checksum (r.dest.take r.cnt)) := by
  have hmap : (({Bus.openCodec with pool := Pool.init} : Codec).run oversized).bind (fun d =>
      (d.readPacket (List.replicate 610 0#8) 0#7).map fun x =>
        (x.2.cnt,x.2.dest.length,(d.pool.chain 0).map List.length,
          (d.pool.assembled 0).map List.length,(d.pool.trees 0).dlc)) =
      some (10,610,some 2,some 10,9#8) := by
    decide +kernel
  have htrees : (({Bus.openCodec with pool := Pool.init} : Codec).run oversized).map (fun d =>
      (List.finRange sizeTrees).filter fun k => (d.pool.trees k).head ≠ maxIdx) = some [0] := by
    decide +kernel
  obtain ⟨d,hd,hread⟩ := Option.bind_eq_some_iff.mp hmap
  obtain ⟨⟨d',r⟩,hr,hv⟩ := Option.map_eq_some_iff.mp hread
  simp only [Prod.mk.injEq] at hv
  obtain ⟨hcnt,hlen,hchain,hbytes,hdlc⟩ := hv
  obtain ⟨l0,hl0,hlen0⟩ := Option.map_eq_some_iff.mp hchain
  rw [hd,Option.map_some,Option.some.injEq] at htrees
  have hhead : ∀ k, (d.pool.trees k).head ≠ maxIdx ↔ k = 0 := by
    intro k
    rw [← List.mem_singleton,← htrees,List.mem_filter]
    simp
  refine ⟨d,d',r,l0,hd,hr,hcnt,⟨(hhead 0).mpr rfl,by rw [hdlc]; decide⟩,hl0,hlen0,?_⟩
  rintro ⟨k,l,bytes,hfin,hl,hb,hsum⟩
  obtain rfl := (hhead k).mp hfin.1
  rw [hl0,Option.some.injEq] at hl
  rw [hb,Option.map_some,Option.some.injEq] at hbytes
  have hlong := congrArg List.length (hsum (by rw [← hl,hlen0]; decide))
  rw [hbytes,List.length_append,List.length_take,hlen,hcnt,checksum,bytes16_length] at hlong
  omega

/-- One changed bit in a packet of up to 512 bytes or in its checksum is noticed. -/
theorem checkCrc_flipBit {p : List Byte} (h512 : p.length ≤ 512) {i : Nat}
    (hi : i < 8*(p.length+2)) (after : List Byte) :
    checkCrc (flipBit (p ++ checksum p) i ++ after) (p.length+2) = 0 := by
  have hsum : (checksum p).length = 2 := bytes16_length _
  have hlen : (flipBit (p ++ checksum p) i).length = p.length+2 := by
    rw [flipBit_length,List.length_append,hsum]
  rw [← checkCrc_take (by omega),List.take_left' hlen,← hlen]
  refine Nat.eq_zero_of_not_pos fun hpos => ?_
  obtain ⟨-,heq⟩ := checkCrc_pos (by omega) hpos
  rw [hlen,Nat.add_sub_cancel] at heq
  by_cases hin : i < 8*p.length
  · rw [flipBit_append hin,List.take_left' (flipBit_length p i),List.append_cancel_left_eq] at heq
    refine crc32_flipBit h512 hin crcInit ?_
    have hcrc := bytes16_injective heq
    rw [flipBit_length] at hcrc
    exact hcrc.symm
  · rw [flipBit_append_of_le (by omega),List.take_left' rfl,List.append_cancel_left_eq] at heq
    exact flipBit_ne (by omega) heq

theorem checkCrc_flipBit_middle :
    let p := (List.range 512).map (BitVec.ofNat 8)
    checkCrc (flipBit (p ++ checksum p) 2021 ++ [7#8]) 514 = 0 := by
  intro p
  have hp : p.length = 512 := by rw [List.length_map,List.length_range]
  have hzero := checkCrc_flipBit (p := p) hp.le (i := 2021) (by omega) [7#8]
  rwa [hp] at hzero

end Codec

end ApxBus.Can
