import ApxBus.Callsigns
import ApxBus.Can.Delivery
set_option autoImplicit false

/-!
Nodes on one CAN bus, each with a codec that sends and receives. A node that hears its own
address takes another and announces it, `push_message` and `sendAddressing` of
`xbus/can/CanCodec.cpp`.
-/

namespace ApxBus.Can
open Function Callsigns

def XcanMsg.src (m : XcanMsg) : BitVec 7 := (Extid.ofRaw m.id).src

def emptyMsg : XcanMsg := ⟨0#32,0#4,false,Vector.replicate 8 0#8⟩

/-- The messages that `send_message` took. A packet ends with the first message refused. -/
def queued (out : Bool × List XcanMsg × XcanMsg) : List XcanMsg :=
  if out.1 then out.2.1 else out.2.1.dropLast

theorem sendFrames_src (extid : Extid) (crc16 : BitVec 16) (send : Nat → Bool) (fuel cnt : Nat)
    (src : List Byte) (frm : BitVec 3) (tx : XcanMsg) (n : Nat) :
    ∀ m ∈ (sendFrames extid crc16 send fuel cnt src frm tx n).2.1, m.src = extid.src := by
  induction fuel generalizing cnt src frm tx n with
  | zero => simp [sendFrames]
  | succ fuel ih =>
    intro m hm
    unfold sendFrames at hm
    by_cases h0 : cnt = 0
    · simp [h0] at hm
    have hsrc : ∀ f, (Extid.ofRaw {extid with frm := f}.raw).src = extid.src := fun f => by
      rw [Extid.ofRaw_raw]
    simp only [if_neg h0] at hm
    split at hm
    · rcases List.mem_cons.mp hm with rfl | hm
      · by_cases h8 : cnt > 8 <;> simp only [XcanMsg.src,h8,if_true,if_false,hsrc]
      · exact ih _ _ _ _ _ m hm
    · rw [List.mem_singleton.mp hm]
      by_cases h8 : cnt > 8 <;> simp only [XcanMsg.src,h8,if_true,if_false,hsrc]

theorem sendPacket_src (e : Extid) (tx : XcanMsg) (send : Nat → Bool) (data : List Byte) :
    ∀ m ∈ queued (sendPacket e tx send data), m.src = e.src := by
  have hall : ∀ m ∈ (sendPacket e tx send data).2.1, m.src = e.src := by
    unfold sendPacket
    split_ifs with h2
    · simp
    · dsimp only
      by_cases h8 : (Reader.mk data 0).read16.2.available ≤ 8
      · rw [if_pos h8]
        intro m hm
        rw [List.mem_singleton.mp hm,XcanMsg.src,Extid.ofRaw_raw]
      · rw [if_neg h8]
        exact sendFrames_src _ _ _ _ _ _ _ _ _
  intro m hm
  unfold queued at hm
  split_ifs at hm
  · exact hall m hm
  · exact hall m (List.dropLast_subset _ hm)

namespace Codec
variable {c d : Codec}

theorem pushMessage_own {m : XcanMsg} {rv : ErrorType} {out : List XcanMsg}
    (hm : m.src = c.extidDefaults.src) (h : c.pushMessage m = some (d,rv,out)) :
    d.acceptFilter = c.acceptFilter ∧ ∃ tx, out = [tx] ∧ tx.src = d.extidDefaults.src := by
  unfold pushMessage at h
  unfold XcanMsg.src at hm
  dsimp only at h
  rw [if_pos hm] at h
  simp only [Option.some.injEq,Prod.mk.injEq] at h
  obtain ⟨rfl,-,rfl⟩ := h
  exact ⟨rfl,_,rfl,by rw [XcanMsg.src,sendAddressing,Extid.ofRaw_raw]⟩

theorem pushMessage_other {m : XcanMsg} {rv : ErrorType} {out : List XcanMsg}
    (hm : m.src ≠ c.extidDefaults.src) (h : c.pushMessage m = some (d,rv,out)) :
    out = [] ∧ d = {c with pool := d.pool} ∧
      ∀ b : Codec, b.pool = c.pool → b.extidDefaults.src = c.extidDefaults.src →
        b.acceptFilter = c.acceptFilter →
        b.pushMessage m = some ({b with pool := d.pool},rv,[]) := by
  unfold pushMessage at h
  unfold XcanMsg.src at hm
  dsimp only at h
  rw [if_neg hm] at h
  by_cases ha : c.acceptFilter (Extid.ofRaw m.id)
  · rw [if_neg (by simp [ha])] at h
    cases hp : c.pool.push (Extid.ofRaw m.id) m.data (m.dlc.setWidth 8) with
    | none => simp [hp] at h
    | some q =>
      simp only [hp,Option.bind_eq_bind,Option.bind_some,Option.some.injEq,Prod.mk.injEq] at h
      obtain ⟨rfl,rfl,rfl⟩ := h
      refine ⟨rfl,rfl,fun b hb hsrc hf => ?_⟩
      unfold pushMessage
      dsimp only
      rw [if_neg (by rwa [hsrc]),if_neg (by simp [hf,ha]),hb,hp]
      rfl
  · rw [if_pos (by simp [ha])] at h
    simp only [Option.some.injEq,Prod.mk.injEq] at h
    obtain ⟨rfl,rfl,rfl⟩ := h
    refine ⟨rfl,rfl,fun b hb hsrc hf => ?_⟩
    unfold pushMessage
    dsimp only
    rw [if_neg (by rwa [hsrc]),if_pos (by simp [hf,ha]),← hb]

theorem readLoop_congr (b : Codec) {fuel : Nat} {dest : List Byte} {src : BitVec 7}
    {r : Pool.ReadResult} (hb : b.pool = c.pool) (h : c.readLoop fuel dest src = some (d,r)) :
    b.readLoop fuel dest src = some ({b with pool := d.pool},r) := by
  induction fuel generalizing b c dest src with
  | zero => simp [readLoop] at h
  | succ fuel ih =>
    unfold readLoop at h ⊢
    rw [hb]
    cases hp : c.pool.readPacket dest src with
    | none => simp [hp] at h
    | some q =>
      simp only [hp,Option.bind_eq_bind,Option.bind_some] at h ⊢
      split_ifs at h ⊢
      · simp only [Option.some.injEq,Prod.mk.injEq] at h ⊢
        obtain ⟨rfl,rfl⟩ := h
        exact ⟨rfl,rfl⟩
      · simp only [Option.some.injEq,Prod.mk.injEq] at h ⊢
        obtain ⟨rfl,rfl⟩ := h
        exact ⟨rfl,rfl⟩
      · refine ih _ ?_ h
        rfl

theorem readPacket_congr (b : Codec) {dest : List Byte} {src : BitVec 7} {r : Pool.ReadResult}
    (hb : b.pool = c.pool) (h : c.readPacket dest src = some (d,r)) :
    b.readPacket dest src = some ({b with pool := d.pool},r) := by
  rw [readPacket] at h ⊢
  exact readLoop_congr b hb h

theorem readPacket_pool {dest : List Byte} {src : BitVec 7} {r : Pool.ReadResult}
    (h : c.readPacket dest src = some (d,r)) : d = {c with pool := d.pool} := by
  have hc := readPacket_congr c rfl h
  rw [h] at hc
  simpa using hc

end Codec

/-- What each node holds: its codec, its messages that wait for the bus and those of the others
that it has not handled, and what happened at it so far. -/
structure Network (ι : Type) where
  codec : ι → Codec
  tx : ι → List XcanMsg
  rx : ι → List XcanMsg
  /-- It has sent a message since it took its address. -/
  used : ι → Bool
  /-- The packets it has sent, and those it has read. -/
  sent : ι → List Sending
  returned : ι → List (BitVec 7 × List Byte)
  /-- A packet of its own broke off, or one that arrived found no room. -/
  aborted : ι → Bool
  lost : ι → Bool

namespace Network
variable {ι : Type} [DecidableEq ι]

def start (c : ι → Codec) : Network ι where
  codec := c
  tx := fun _ => []
  rx := fun _ => []
  used := fun _ => false
  sent := fun _ => []
  returned := fun _ => []
  aborted := fun _ => false
  lost := fun _ => false

def send (s : Network ι) (i : ι) (data : List Byte) (h : 2 ≤ data.length) (take : Nat → Bool) :
    Network ι :=
  let c := s.codec i
  let out := sendPacket c.extidDefaults c.txmsg take data
  {s with
    codec := update s.codec i {c with txmsg := out.2.2}
    tx := update s.tx i (s.tx i ++ queued out)
    used := update s.used i (s.used i || !(queued out).isEmpty)
    sent := if out.1 then
        update s.sent i (s.sent i ++ [⟨c.extidDefaults,c.txmsg,data,h⟩]) else s.sent
    aborted := update s.aborted i (s.aborted i || !out.1)}

def carry (s : Network ι) (i : ι) (m : XcanMsg) (rest : List XcanMsg) : Network ι :=
  {s with
    tx := update s.tx i rest
    rx := fun j => if j = i then s.rx j else s.rx j ++ [m]}

/-- The node has handled a message: whether it was under its own address, its codec then, the
return code, and what `send_message` took of it. -/
def handle (s : Network ι) (i : ι) (rest : List XcanMsg) (own : Bool) (c : Codec) (rv : ErrorType)
    (out : List XcanMsg) : Network ι :=
  {s with
    codec := update s.codec i c
    rx := update s.rx i rest
    tx := update s.tx i (s.tx i ++ out)
    used := update s.used i (if own then !out.isEmpty else s.used i)
    lost := update s.lost i
      (s.lost i || decide (rv = .errorSlotsOverflow ∨ rv = .errorTreeOverflow))}

/-- The node has read, into a buffer of `n` bytes. -/
def read (s : Network ι) (i : ι) (n : Nat) (c : Codec) (r : Pool.ReadResult) : Network ι :=
  {s with
    codec := update s.codec i c
    returned := if r.cnt = 0 then s.returned
      else update s.returned i (s.returned i ++ [(r.srcId,r.dest.take r.cnt)])
    lost := update s.lost i (s.lost i || decide (n < 610))}

/-- One step of the bus, with the node that hears its own address in it. What `updateNodeId`
would answer is up to the node at any time, and whether `send_message` takes the announcement. -/
inductive Step : Network ι → Option ι → Network ι → Prop where
  | choose {s : Network ι} (i : ι) (f : Extid → Extid) :
      Step s none {s with codec := update s.codec i {s.codec i with updateNodeId := f}}
  | send {s : Network ι} (i : ι) (data : List Byte) (h : 2 ≤ data.length) (take : Nat → Bool) :
      Step s none (s.send i data h take)
  | carry {s : Network ι} {i : ι} {m : XcanMsg} {rest : List XcanMsg} (h : s.tx i = m :: rest) :
      Step s none (s.carry i m rest)
  | handle {s : Network ι} {i : ι} {m : XcanMsg} {rest : List XcanMsg} {c : Codec}
      {rv : ErrorType} {out : List XcanMsg} (h : s.rx i = m :: rest)
      (hp : (s.codec i).pushMessage m = some (c,rv,out)) (take : Bool) :
      Step s (if m.src = (s.codec i).extidDefaults.src then some i else none)
        (s.handle i rest (decide (m.src = (s.codec i).extidDefaults.src)) c rv
          (if take then out else []))
  | read {s : Network ι} {i : ι} {dest : List Byte} {src : BitVec 7} {c : Codec}
      {r : Pool.ReadResult} (h : (s.codec i).readPacket dest src = some (c,r)) :
      Step s none (s.read i dest.length c r)

def signs (s : Network ι) : Callsigns.State ι (BitVec 7) where
  sign := fun i => (s.codec i).extidDefaults.src
  used := fun i => s.used i = true
  sending := fun i => (s.tx i).map XcanMsg.src
  inbox := fun i => (s.rx i).map XcanMsg.src

omit [DecidableEq ι] in
theorem signs_start (c : ι → Codec) :
    (start c).signs = State.start fun i => (c i).extidDefaults.src := by
  simp [signs,start,State.start]

variable {s s' : Network ι} {o : Option ι}

theorem src_update (f : ι → Codec) (i : ι) (c : Codec) :
    (fun j => (update f i c j).extidDefaults.src) =
      update (fun j => (f j).extidDefaults.src) i c.extidDefaults.src :=
  comp_update (fun c : Codec => c.extidDefaults.src) f i c

theorem src_keep (f : ι → Codec) {i : ι} {c : Codec}
    (hc : c.extidDefaults = (f i).extidDefaults) :
    (fun j => (update f i c j).extidDefaults.src) = fun j => (f j).extidDefaults.src := by
  rw [src_update,hc]
  exact update_eq_self i _

theorem map_update (f : ι → List XcanMsg) (i : ι) (l : List XcanMsg) :
    (fun j => (update f i l j).map XcanMsg.src) =
      update (fun j => (f j).map XcanMsg.src) i (l.map XcanMsg.src) :=
  comp_update (List.map XcanMsg.src) f i l

theorem used_update (f : ι → Bool) (i : ι) (b : Bool) :
    (fun j => update f i b j = true) = update (fun j => f j = true) i (b = true) :=
  comp_update (· = true) f i b

/-- Each step of the bus is a step of the stations, or does not concern the addresses. -/
theorem Step.signs (hs : s.Step o s') :
    s.signs.Step o s'.signs ∨ o = none ∧ s.signs = s'.signs := by
  cases hs with
  | choose i f =>
    refine Or.inr ⟨rfl,?_⟩
    rw [Network.signs,Network.signs]
    congr 1
    exact Eq.symm (src_keep s.codec rfl)
  | send i data h take =>
    refine Or.inl ?_
    have hq := sendPacket_src (s.codec i).extidDefaults (s.codec i).txmsg take data
    have hmap : (queued (sendPacket (s.codec i).extidDefaults (s.codec i).txmsg take data)).map
        XcanMsg.src = List.replicate (queued (sendPacket (s.codec i).extidDefaults
          (s.codec i).txmsg take data)).length (s.codec i).extidDefaults.src := by
      rw [List.eq_replicate_iff]
      refine ⟨List.length_map _,fun b hb => ?_⟩
      obtain ⟨m,hm,rfl⟩ := List.mem_map.mp hb
      exact hq m hm
    have hstep := @State.Step.call _ _ _ s.signs i (queued (sendPacket
      (s.codec i).extidDefaults (s.codec i).txmsg take data)).length
    convert hstep using 1
    simp only [Network.signs,Network.send,State.mk.injEq,map_update,used_update,List.map_append,
      hmap,and_true]
    refine ⟨src_keep _ rfl,?_⟩
    congr 1
    simp [List.length_pos_iff]
  | @carry i m rest h =>
    have hstep := @State.Step.carry _ _ _ s.signs i m.src (rest.map XcanMsg.src)
      (by simp [Network.signs,h])
    refine Or.inl ?_
    convert hstep using 1
    simp only [Network.signs,Network.carry,State.mk.injEq,map_update,true_and]
    funext j
    split_ifs <;> simp
  | @handle i m rest c rv out h hp take =>
    refine Or.inl ?_
    have hin : s.signs.inbox i = m.src :: rest.map XcanMsg.src := by simp [Network.signs,h]
    by_cases hm : m.src = (s.codec i).extidDefaults.src
    · obtain ⟨-,tx,rfl,htx⟩ := Codec.pushMessage_own hm hp
      rw [if_pos hm]
      have hstep := State.Step.clash (s := s.signs) (i := i) c.extidDefaults.src
        (if take then 1 else 0) (hin.trans (by rw [hm]; rfl))
      convert hstep using 1
      simp only [Network.signs,Network.handle,State.mk.injEq,map_update,used_update,src_update,
        List.map_append,and_true,true_and]
      cases take with
      | false => simp [hm]
      | true => simp [hm,htx]
    · obtain ⟨rfl,hc,-⟩ := Codec.pushMessage_other hm hp
      rw [if_neg hm]
      have hstep := State.Step.hear (s := s.signs) hin hm
      convert hstep using 1
      simp only [Network.signs,Network.handle,State.mk.injEq,map_update,used_update,ite_self,
        List.append_nil,decide_eq_false hm,Bool.false_eq_true,if_false,and_true]
      refine ⟨src_keep _ (by rw [hc]),?_,?_⟩
      · exact update_eq_self i _
      · exact update_eq_self i _
  | @read i dest src c r h =>
    refine Or.inr ⟨rfl,?_⟩
    rw [Network.signs,Network.signs]
    congr 1
    have hc := Codec.readPacket_pool h
    exact Eq.symm (src_keep s.codec (by rw [hc]))

/-- Two nodes that were given one address. The second goes over to the next when it hears it. -/
def twins : Fin 2 → Codec
  | 0 => ⟨Pool.init,⟨0#3,0#16,5#7,0#3,0#3⟩,emptyMsg,fun _ => true,id⟩
  | 1 => ⟨Pool.init,⟨0#3,0#16,5#7,0#3,0#3⟩,emptyMsg,fun _ => true,
      fun e => {e with src := e.src+1#7}⟩

def twinMsg : XcanMsg :=
  (sendPacket (twins 0).extidDefaults emptyMsg (fun _ => true) [1#8,2#8]).2.1.headD emptyMsg

def twinAddress : XcanMsg :=
  {emptyMsg with id := (⟨frmSingle,0xFFFF#16,6#7,0#3,0#3⟩ : Extid).raw, ext := true}

/-- No other node bears the address or has a message under it to send, and none is to be handled
by the node. -/
structure Free (s : Network ι) (i : ι) (a : BitVec 7) : Prop where
  codec : ∀ j, j ≠ i → (s.codec j).extidDefaults.src ≠ a
  tx : ∀ j, j ≠ i → ∀ m ∈ s.tx j, m.src ≠ a
  rx : ∀ m ∈ s.rx i, m.src ≠ a

instance [Fintype ι] (s : Network ι) (i : ι) (a : BitVec 7) : Decidable (s.Free i a) :=
  decidable_of_iff ((∀ j, j ≠ i → (s.codec j).extidDefaults.src ≠ a) ∧
    (∀ j, j ≠ i → ∀ m ∈ s.tx j, m.src ≠ a) ∧ ∀ m ∈ s.rx i, m.src ≠ a)
    ⟨fun h => ⟨h.1,h.2.1,h.2.2⟩,fun h => ⟨h.codec,h.tx,h.rx⟩⟩

omit [DecidableEq ι] in
theorem Free.signs {i : ι} {a : BitVec 7} (h : s.Free i a) : s.signs.Free i a := by
  refine ⟨h.codec,fun j hj hm => ?_,fun hm => ?_⟩
  · obtain ⟨m,hm,he⟩ := List.mem_map.mp hm
    exact h.tx j hj m hm he
  · obtain ⟨m,hm,he⟩ := List.mem_map.mp hm
    exact h.rx m hm he

def FreshStep (s : Network ι) (o : Option ι) (s' : Network ι) : Prop :=
  s.Step o s' ∧ ∀ i, o = some i → s.Free i (s'.codec i).extidDefaults.src

theorem FreshStep.signs (h : s.FreshStep o s') :
    s.signs.FreshStep o s'.signs ∨ o = none ∧ s.signs = s'.signs :=
  h.1.signs.imp (fun hs => ⟨hs,fun i hi => (h.2 i hi).signs⟩) id

/-- When each address taken is free at that moment, no node changes twice, each that changed has
its address to itself, and a node that had so from the start keeps it. -/
theorem address_kept (c : ι → Codec) {l : List ι} (h : Trace FreshStep (start c) l s) :
    l.Nodup ∧
    (∀ i ∈ l, ∀ j, j ≠ i → (s.codec j).extidDefaults.src ≠ (s.codec i).extidDefaults.src) ∧
    ∀ i, (∀ j, j ≠ i → (c j).extidDefaults.src ≠ (c i).extidDefaults.src) →
      i ∉ l ∧ (s.codec i).extidDefaults.src = (c i).extidDefaults.src ∧
        ∀ j, j ≠ i → (s.codec j).extidDefaults.src ≠ (s.codec i).extidDefaults.src := by
  have ht := h.simulates signs fun _ _ _ hs => hs.signs
  rw [signs_start] at ht
  obtain ⟨hnd,hset,hkeep⟩ := State.settled_fresh ht
  refine ⟨hnd,fun i hi => (hset i hi).sign,fun i hi => ?_⟩
  obtain ⟨hi',hil,he⟩ := hkeep i ⟨hi,fun _ _ => List.not_mem_nil,List.not_mem_nil⟩
  exact ⟨hil,he,hi'.sign⟩

theorem address_kept_twins : ∃ l s, Trace FreshStep (start twins) l s ∧ l = [1] ∧
    (s.codec 1).extidDefaults.src = 6#7 ∧
    ∀ j, j ≠ 1 → (s.codec j).extidDefaults.src ≠ (s.codec 1).extidDefaults.src := by
  have h : Trace FreshStep (start twins) _ _ := .tail (.tail (.tail (.tail (.tail .refl
    ⟨.send 0 [1#8,2#8] (by decide) fun _ => true,by simp⟩)
    ⟨@Step.carry _ _ _ 0 twinMsg [] (by rfl),by simp⟩)
    ⟨@Step.handle _ _ _ 1 twinMsg [] _ _ _ (by rfl) (by rfl) true,by decide⟩)
    ⟨@Step.carry _ _ _ 1 twinAddress [] (by rfl),by simp⟩)
    ⟨@Step.handle _ _ _ 0 twinAddress [] _ _ _ (by rfl) (by rfl) true,by decide⟩
  obtain ⟨-,hl,-⟩ := address_kept twins h
  exact ⟨_,_,h,by decide,by decide,hl 1 (by decide)⟩

end Network

end ApxBus.Can
