import ApxBus.Telemetry.FrameTransfer
import ApxBus.Telemetry.Refresh
import Mathlib.Logic.Relation
set_option autoImplicit false

/-!
A decoder that joins the stream of an encoder late: the table it asks for, frames that are lost and
frames that are heard, and what it shows in the end.
-/

namespace ApxBus.Telemetry
open Mandala Real32
open TelemetryEncoder (byteDict noCasts)

def Shows (casts : Casts) (x : EncSlot) (value : BitVec 32) (type : TypeId) : Prop :=
  if x.field.fmt = Fmt.bit.code then
    value = (if x.value ≠ 0#32 then 1#32 else 0#32) ∧ type = .byte
  else Landed casts x value value type

theorem Unpacking.value_twice {fmt : Fmt} {u : Unpacking} (h : ofFmt fmt = some u)
    (src : List Byte) (old : BitVec 32) : u.value src (u.value src old) = u.value src old := by
  cases fmt <;> cases h
  case u16 =>
    refine BitVec.eq_of_getLsbD_eq fun i hi => ?_
    simp only [raw16,BitVec.getLsbD_append,BitVec.getLsbD_extractLsb']
    by_cases h16 : i < 16
    · simp [h16]
    · simp [h16,show ¬ 16+(i-16) < 16 by omega]
  case u4 | u8 =>
    refine BitVec.eq_of_getLsbD_eq fun i hi => ?_
    simp only [raw8,BitVec.getLsbD_append,BitVec.getLsbD_extractLsb']
    by_cases h8 : i < 8
    · simp [h8]
    · simp [h8,show ¬ 8+(i-8) < 8 by omega]
  all_goals rfl

theorem unpackValue_twice {src : List Byte} {old new : BitVec 32} {type t : TypeId} {fmt : Byte}
    {size n : Nat} (h : unpackValue src old type fmt size = some (n,new,t)) :
    unpackValue src new type fmt size = some (n,new,t) := by
  unfold unpackValue at h ⊢
  cases hu : (Fmt.ofCode fmt).bind Unpacking.ofFmt with
  | none =>
    rw [hu] at h
    cases h
    rfl
  | some u =>
    obtain ⟨f,-,hf⟩ := Option.bind_eq_some_iff.mp hu
    rw [hu] at h
    dsimp only at h ⊢
    by_cases hsize : size < u.size
    · rw [if_pos hsize] at h ⊢
      cases h
      rfl
    · rw [if_neg hsize] at h ⊢
      by_cases hlen : src.length < u.size
      · rw [if_pos hlen] at h
        cases h
      · rw [if_neg hlen] at h ⊢
        cases h
        rw [Unpacking.value_twice hf]

theorem Landed.twice {casts : Casts} {x : EncSlot} {old new : BitVec 32} {type : TypeId}
    (h : Landed casts x old new type) : Landed casts x new new type := by
  unfold Landed at h ⊢
  dsimp only at h ⊢
  by_cases hu : x.field.fmt = Fmt.u4.code
  · rw [if_pos hu] at h ⊢
    exact h
  · rw [if_neg hu] at h ⊢
    exact unpackValue_twice h

theorem EncSlot.SameValue.shows {casts : Casts} {x y : EncSlot} (h : x.SameValue y)
    {value : BitVec 32}
    {type : TypeId} : Shows casts y value type ↔ Shows casts x value type := by
  unfold Shows Landed
  rw [h.field,h.value,h.type]

section
variable {casts : Casts} {e : TelemetryEncoder} {sent : List (Nat × BitVec 32)}
  {d d' : TelemetryDecoder} {i : Nat}

theorem Delivered.shows_sent (h : Delivered casts e sent d d') {raw : BitVec 32}
    (hs : (i,raw) ∈ sent) : Shows casts (e.slots i) (d'.value i) (d'.flags i).type := by
  obtain ⟨-,hne,-,hland⟩ := h.value i raw hs
  rw [Shows,if_neg hne]
  exact hland.twice

theorem Delivered.shows_bit (h : Delivered casts e sent d d') (hi : i < e.slotsCnt)
    (hb : (e.slots i).field.fmt = Fmt.bit.code) :
    Shows casts (e.slots i) (d'.value i) (d'.flags i).type := by
  obtain ⟨hv,hf⟩ := h.bit i hi hb
  rw [Shows,if_pos hb,hv,hf]
  exact ⟨rfl,rfl⟩

theorem Delivered.shows (h : Delivered casts e sent d d') (hi : i < e.slotsCnt)
    (hx : Shows casts (e.slots i) (d.value i) (d.flags i).type) :
    Shows casts (e.slots i) (d'.value i) (d'.flags i).type := by
  by_cases hs : ∃ raw, (i,raw) ∈ sent
  · obtain ⟨raw,hs⟩ := hs
    exact h.shows_sent hs
  by_cases hb : (e.slots i).field.fmt = Fmt.bit.code
  · exact h.shows_bit hi hb
  · obtain ⟨hv,hf⟩ := h.rest i (not_exists.mp hs) fun hib => hb hib.2
    rw [hv,hf]
    exact hx

end

/-- A frame to be sent: its buffer and time, and what its identifier has beside the sequence
number. -/
structure Outgoing where
  writer : Writer
  ts : BitVec 64
  uid : BitVec 11
  pri : BitVec 3

def Outgoing.pid (f : Outgoing) (pseq : Byte) : Pid := ⟨f.uid,f.pri,pseq.setWidth 2⟩

structure Link where
  enc : TelemetryEncoder
  dec : TelemetryDecoder

namespace Link
variable (dict : Dictionary) (casts : Casts)

def hear (garbage : Nat → BitVec 32) (x : Link) (pseq : Byte) (f : Outgoing) : Option Link := do
  let s ← x.enc.encode casts garbage f.writer pseq f.ts
  let (d,_) ← x.dec.decode dict (f.pid pseq) ⟨s.stream.out.drop f.writer.pos,0⟩
  some ⟨s.enc,d⟩

def listen : List Outgoing → Byte → Link → Option Link
  | [], _, x => some x
  | f :: l, pseq, x => do
    let y ← x.hear dict casts (fun _ => 0#32) pseq f
    listen l (pseq+1#8) y

def Fits (x : Link) (f : Outgoing) : Prop := f.writer.pos+(3+1+5*x.enc.slotsCnt) ≤ f.writer.size

/-- While the table stays: values are set, frames are lost or heard, and parts of the table are
delivered again. -/
inductive Step (size : Byte) (x : Link) : Link → Prop where
  | update {e : TelemetryEncoder} {r : UpdateResult} (pid : Pid) (raw : BitVec 32) (type : TypeId)
      (sync : Bool) (h : x.enc.update dict pid raw type sync = some (e,r)) :
      Step size x {x with enc := e}
  | lost {s : TelemetryEncoder.EncodeState} (garbage : Nat → BitVec 32) (pseq : Byte)
      (f : Outgoing) (h : x.enc.encode casts garbage f.writer pseq f.ts = some s) :
      Step size x {x with enc := s.enc}
  | heard {y : Link} (garbage : Nat → BitVec 32) (pseq : Byte) (f : Outgoing) (hf : x.Fits f)
      (h : x.hear dict casts garbage pseq f = some y) : Step size x y
  | part {d : TelemetryDecoder} {ok : Bool} (p : TelemetryDecoder.Delivery)
      (hp : p.Genuine x.enc size)
      (h : TelemetryDecoder.deliver x.enc size p x.dec = some (d,ok)) :
      Step size x {x with dec := d}

/-- The decoder has the table of the encoder, whose frames it can read. -/
structure Joined (x : Link) : Prop where
  inv : TelemetryEncoder.Inv dict x.enc
  enc : Encodes x.enc
  slotsCnt : x.dec.slotsCnt = x.enc.slotsCnt
  table : x.dec.table (x.enc.slotsCnt*3) = x.enc.table
  hash : x.dec.hash = x.enc.hash
  hashValid : x.dec.hashValid = 4

variable {dict casts} {x y : Link}

theorem Joined.follows (h : x.Joined dict) : Follows x.dec x.enc :=
  ⟨h.slotsCnt,fun _ hi => TelemetryDecoder.fieldAt_eq h.table hi,h.hash,h.hashValid⟩

theorem hash_eq_of_word {g h : Hash} (he : g.hash = h.hash) : g = h := by
  have hb := congrArg bytes32 he
  simp only [Hash.hash,bytes32_le32,List.cons.injEq] at hb
  refine Vector.ext fun i hi => ?_
  match i,hi with
  | 0,_ => exact hb.1
  | 1,_ => exact hb.2.1
  | 2,_ => exact hb.2.2.1
  | 3,_ => exact hb.2.2.2.1

theorem encode_enforced_lt (h : x.Joined dict) {garbage : Nat → BitVec 32} {w : Writer}
    {pseq : Byte} {ts : BitVec 64} {s : TelemetryEncoder.EncodeState}
    (he : x.enc.encode casts garbage w pseq ts = some s) : s.enc.enforcedUpd < slotsSize := by
  have hop : x.enc.step dict casts (.encode garbage w pseq ts) = some s.enc := by
    rw [TelemetryEncoder.step,he]
    rfl
  exact h.inv.step_enforced h.enc.enforced hop

theorem Joined.sameTable {e : TelemetryEncoder} (h : x.Joined dict)
    (hs : TelemetryEncoder.SameTable x.enc e) (hlt : e.enforcedUpd < slotsSize) :
    Joined dict {x with enc := e} := by
  have hfmt : ∀ i < e.slotsCnt, (e.slots i).field = (x.enc.slots i).field :=
    fun i hi => hs.field i (hs.slotsCnt ▸ hi)
  refine ⟨hs.inv h.inv,⟨⟨(hs.inv h.inv).toSorted,?_,hlt,fun i hi hb => ?_⟩,?_⟩,?_,?_,?_,
    h.hashValid⟩
  · rw [hs.slotsCnt]
    exact h.enc.pos
  · rw [hfmt i hi] at hb ⊢
    exact h.enc.sized i (hs.slotsCnt ▸ hi) hb
  · rcases h.enc.bits with ⟨i,hi,hb⟩ | hno
    · exact Or.inl ⟨i,hs.slotsCnt.symm ▸ hi,by rw [hs.field i hi,hb]⟩
    · refine Or.inr fun i hi => ?_
      rw [hfmt i hi]
      exact hno i (hs.slotsCnt ▸ hi)
  · exact h.slotsCnt.trans hs.slotsCnt.symm
  · rw [hs.slotsCnt,hs.table]
    exact h.table
  · exact h.hash.trans hs.hash.symm

theorem Joined.decoder {d : TelemetryDecoder} (h : x.Joined dict) (hs : x.dec.SameTable d) :
    Joined dict {x with dec := d} := by
  refine ⟨h.inv,h.enc,hs.slotsCnt.trans h.slotsCnt,?_,hs.hash.trans h.hash,
    hs.hashValid.trans h.hashValid⟩
  unfold TelemetryDecoder.table
  rw [hs.fields]
  exact h.table

theorem Joined.hear (h : x.Joined dict) (garbage : Nat → BitVec 32) (pseq : Byte) {f : Outgoing}
    (hf : x.Fits f) : ∃ s d, x.enc.encode casts garbage f.writer pseq f.ts = some s ∧
      x.hear dict casts garbage pseq f = some ⟨s.enc,d⟩ ∧ Joined dict ⟨s.enc,d⟩ ∧
      (f.uid.setWidth 16 ≠ dict.xpdr → Delivered casts x.enc s.sent x.dec d) := by
  obtain ⟨s,frame,henc,hout,hdec⟩ := @frame_decoded casts garbage pseq x.enc x.dec dict (f.pid pseq)
    h.enc.toReadable h.follows f.writer hf f.ts rfl
  have hpos : f.writer.pos ≤ f.writer.size := by
    unfold Fits at hf
    omega
  have hdrop : s.stream.out.drop f.writer.pos = frame := by
    rw [hout]
    refine List.drop_left' ?_
    rw [Writer.out,List.length_take]
    exact Nat.min_eq_left hpos
  obtain ⟨d,r,ok,hd,hthen⟩ := hdec ⟨s.stream.out.drop f.writer.pos,0⟩ hdrop
  have hlt := encode_enforced_lt h henc
  have hsame := TelemetryEncoder.encode_sameTable henc
  refine ⟨s,d,henc,?_,?_,fun hx => ?_⟩
  · rw [Link.hear,henc]
    simp only [Option.bind_eq_bind,Option.bind_some]
    rw [hd]
    rfl
  · by_cases hx : f.uid.setWidth 16 = dict.xpdr
    · rw [if_pos (show (f.pid pseq).uid.setWidth 16 = dict.xpdr from hx)] at hthen
      exact (h.decoder hthen.1).sameTable hsame hlt
    · rw [if_neg (show ¬ (f.pid pseq).uid.setWidth 16 = dict.xpdr from hx)] at hthen
      exact (h.decoder (hthen.2 h.enc.not_cutShort).1).sameTable hsame hlt
  · rw [if_neg (show ¬ (f.pid pseq).uid.setWidth 16 = dict.xpdr from hx)] at hthen
    exact (hthen.2 h.enc.not_cutShort).2.2.2.1

theorem Joined.part (h : x.Joined dict) {size : Byte} (hs : size ≠ 0#8)
    (hle : x.enc.partCnt size ≤ 255) {p : TelemetryDecoder.Delivery} (hp : p.Genuine x.enc size)
    {d : TelemetryDecoder} {ok : Bool}
    (hd : TelemetryDecoder.deliver x.enc size p x.dec = some (d,ok)) :
    Joined dict {x with dec := d} := by
  have hgot : TelemetryDecoder.Received x.enc size (fun _ => True) x.dec := by
    refine ⟨congrArg Hash.hash h.hash,h.hashValid,fun k _ i _ _ hi => ?_⟩
    rw [← h.table,TelemetryDecoder.table,List.getD_eq_getElem?_getD,List.getElem?_map,
      List.getElem?_range hi]
    rfl
  obtain ⟨d1,hd1,hr,hdone⟩ := TelemetryDecoder.deliver_spec h.inv.hash h.enc.pos h.inv.cnt_le hs hle
    hp (Or.inl hgot)
  obtain ⟨rfl,-⟩ := Prod.mk.inj (Option.some.inj (hd1.symm.trans hd))
  refine ⟨h.inv,h.enc,?_,?_,hash_eq_of_word hr.hash,hr.hashValid⟩
  · exact (hdone (fun _ _ => Or.inr trivial) (Or.inr ⟨congrArg Hash.hash h.hash,h.slotsCnt⟩)).1
  · exact TelemetryDecoder.table_eq hs fun k _ => hr.part k (Or.inr trivial)

theorem Joined.step {size : Byte} (h : x.Joined dict) (hs : size ≠ 0#8)
    (hle : x.enc.partCnt size ≤ 255) (hxy : Step dict casts size x y) :
    y.Joined dict ∧ y.enc.partCnt size = x.enc.partCnt size := by
  cases hxy with
  | update pid raw type sync hu =>
    have hsame := TelemetryEncoder.update_sameTable hu
    refine ⟨h.sameTable hsame ?_,?_⟩
    · rw [TelemetryEncoder.update_enforced hu]
      exact h.enc.enforced
    · rw [TelemetryEncoder.partCnt,hsame.slotsCnt]
      rfl
  | lost garbage pseq f he =>
    have hsame := TelemetryEncoder.encode_sameTable he
    refine ⟨h.sameTable hsame ?_,?_⟩
    · exact encode_enforced_lt h he
    · rw [TelemetryEncoder.partCnt,hsame.slotsCnt]
      rfl
  | heard garbage pseq f hf hh =>
    obtain ⟨s,d,he,hh1,hj,-⟩ := h.hear garbage pseq hf
    obtain rfl := Option.some.inj (hh1.symm.trans hh)
    refine ⟨hj,?_⟩
    rw [TelemetryEncoder.partCnt,(TelemetryEncoder.encode_sameTable he).slotsCnt]
    rfl
  | part p hp hd => exact ⟨h.part hs hle hp hd,rfl⟩

theorem Joined.run {size : Byte} (h : x.Joined dict) (hs : size ≠ 0#8)
    (hle : x.enc.partCnt size ≤ 255) (hxy : Relation.ReflTransGen (Step dict casts size) x y) :
    y.Joined dict ∧ y.enc.partCnt size = x.enc.partCnt size := by
  induction hxy with
  | refl => exact ⟨h,rfl⟩
  | tail _ hstep ih =>
    obtain ⟨hj,hcnt⟩ := ih.1.step hs (ih.2 ▸ hle) hstep
    exact ⟨hj,hcnt.trans ih.2⟩

/-- Slot `i` of the decoder shows that of the encoder. -/
def ShowsAt (casts : Casts) (x : Link) (i : Nat) : Prop :=
  Shows casts (x.enc.slots i) (x.dec.value i) (x.dec.flags i).type

/-- Frames that are heard one after the other: what is shown once is shown behind them, and of the
others those that one of the frames has. -/
theorem Joined.listen (h : x.Joined dict) (l : List Outgoing)
    (hl : ∀ f ∈ l, x.Fits f ∧ f.uid.setWidth 16 ≠ dict.xpdr) (pseq : Byte) :
    ∃ y ss, Link.listen dict casts l pseq x = some y ∧
      TelemetryEncoder.frames casts (l.map fun f => (f.writer,f.ts)) pseq x.enc = some ss ∧
      y.Joined dict ∧ ∀ i < x.enc.slotsCnt, (x.enc.slots i).SameValue (y.enc.slots i) ∧
        (x.ShowsAt casts i ∨ (∃ s ∈ ss, ∃ raw, (i,raw) ∈ s.sent) ∨
          l ≠ [] ∧ (x.enc.slots i).field.fmt = Fmt.bit.code → y.ShowsAt casts i) := by
  induction l generalizing x pseq with
  | nil =>
    refine ⟨x,[],rfl,rfl,h,fun i _ => ⟨⟨rfl,rfl,rfl⟩,?_⟩⟩
    rintro (hx | ⟨s,hs,-⟩ | ⟨hne,-⟩)
    · exact hx
    · exact absurd hs List.not_mem_nil
    · exact absurd rfl hne
  | cons f l ih =>
    obtain ⟨hf,hx⟩ := hl f List.mem_cons_self
    obtain ⟨s,d,henc,hhear,hj,hdel⟩ := h.hear (fun _ => 0#32) pseq hf
    have hsame := TelemetryEncoder.encode_sameTable henc
    have hsv := TelemetryEncoder.encode_sameValue henc
    have hdel := hdel hx
    obtain ⟨y,ss,hy,hss,hjy,hshow⟩ := ih hj (fun g hg => by
      obtain ⟨hfits,hu⟩ := hl g (List.mem_cons_of_mem f hg)
      refine ⟨?_,hu⟩
      unfold Fits at hfits ⊢
      rw [hsame.slotsCnt]
      exact hfits) (pseq+1#8)
    refine ⟨y,s :: ss,?_,?_,hjy,fun i hi => ?_⟩
    · rw [Link.listen,hhear]
      exact hy
    · rw [List.map_cons,TelemetryEncoder.frames,henc]
      simp only [Option.bind_eq_bind,Option.bind_some]
      rw [hss]
      rfl
    · obtain ⟨hi1,hi2⟩ := hshow i (hsame.slotsCnt.symm ▸ hi)
      refine ⟨(hsv i).trans hi1,fun hor => hi2 ?_⟩
      have hnow : Shows casts (x.enc.slots i) (d.value i) (d.flags i).type →
          ShowsAt casts ⟨s.enc,d⟩ i := (hsv i).shows.mpr
      rcases hor with hor | ⟨s1,hs1,raw,hraw⟩ | ⟨-,hb⟩
      · exact Or.inl (hnow (hdel.shows hi hor))
      · rcases List.mem_cons.mp hs1 with rfl | hs1
        · exact Or.inl (hnow (hdel.shows_sent hraw))
        · exact Or.inr (Or.inl ⟨s1,hs1,raw,hraw⟩)
      · exact Or.inl (hnow (hdel.shows_bit hi hb))

theorem Joined.shown (h : x.Joined dict) (l : List Outgoing)
    (hlen : l.length = 2*x.enc.slotsUpdCnt+8)
    (hl : ∀ f ∈ l, x.Fits f ∧ f.uid.setWidth 16 ≠ dict.xpdr) (pseq : Byte) :
    ∃ y, Link.listen dict casts l pseq x = some y ∧ ∀ i < x.enc.slotsCnt,
      (x.enc.slots i).SameValue (y.enc.slots i) ∧ y.ShowsAt casts i := by
  obtain ⟨y,ss,hy,hss,-,hshow⟩ := @Joined.listen dict casts x h l hl pseq
  refine ⟨y,hy,fun i hi => ⟨(hshow i hi).1,(hshow i hi).2 (Or.inr ?_)⟩⟩
  by_cases hb : (x.enc.slots i).field.fmt = Fmt.bit.code
  · refine Or.inr ⟨fun h0 => ?_,hb⟩
    rw [h0] at hlen
    simp at hlen
  · left
    have hiu := (h.inv.upd i hi).mpr hb
    obtain ⟨ss1,hss1,es,hes,hrot⟩ := @TelemetryEncoder.Inv.frames dict casts x.enc h.inv
      h.enc.enforced (l.map fun f => (f.writer,f.ts)) (fun c hc => by
        obtain ⟨f,hf,rfl⟩ := List.mem_map.mp hc
        exact (hl f hf).1) pseq
    obtain rfl := Option.some.inj (hss1.symm.trans hss)
    obtain ⟨hr,hsend⟩ := hrot i hiu
    obtain ⟨t,ht,hs⟩ := hr.refreshed hiu (by rw [List.length_map,hlen])
    obtain ⟨c,s,-,-,hs,hmem,-⟩ := hsend t ht hs
    exact ⟨s,List.mem_of_getElem? hs,_,hmem⟩

theorem joined_transfer {e : TelemetryEncoder} {size : Byte} (hinv : TelemetryEncoder.Inv dict e)
    (he : Encodes e) (hs : size ≠ 0#8) (hle : e.partCnt size ≤ 255) (d : TelemetryDecoder)
    {first : TelemetryDecoder.Delivery} {ds : List TelemetryDecoder.Delivery}
    (hfirst : first.part = 0#8) (hds : ∀ p ∈ first :: ds, p.Genuine e size)
    {pre post : List TelemetryDecoder.Delivery} {p : TelemetryDecoder.Delivery}
    (heq : first :: ds = pre ++ p :: post) (hlast : p.part.toNat+1 = e.partCnt size)
    (hall : ∀ k < e.partCnt size, ∃ q ∈ pre ++ [p], q.part.toNat = k) :
    ∃ d', TelemetryDecoder.transfer e size (first :: ds) d = some (d',true) ∧
      Joined dict ⟨e,d'⟩ := by
  have hstart : TelemetryDecoder.Received e size (fun _ => False) d ∨
      (∃ p ps, first :: ds = p :: ps ∧ p.part = 0#8) ∧ ∀ k : Nat, ¬ (fun _ => False) k :=
    Or.inr ⟨⟨first,ds,rfl,hfirst⟩,fun _ h => h⟩
  obtain ⟨d',ht,hr,-,hdone⟩ := TelemetryDecoder.transfer_spec hinv.hash he.pos hinv.cnt_le hs hle
    hds
    hstart
  have hcnt := (hdone pre p post heq hlast fun k hk => Or.inr (hall k hk)).1
  refine ⟨d',ht,hinv,he,hcnt,TelemetryDecoder.table_eq hs fun k hk => ?_,hash_eq_of_word hr.hash,
    hr.hashValid⟩
  obtain ⟨q,hq,rfl⟩ := hall k hk
  refine hr.part _ (Or.inr ⟨q,?_,rfl⟩)
  rw [heq]
  rw [List.mem_append,List.mem_singleton] at hq
  rw [List.mem_append,List.mem_cons]
  exact hq.imp_right Or.inl

/-- A decoder that joins late, whatever it had before: it takes over the table, values change,
frames are lost and parts of the table come again, and then `2n+8` frames are heard, `n` the number
of values. Every slot then shows the value of the encoder. -/
theorem late_joiner {ops : List TelemetryEncoder.Op} {e : TelemetryEncoder} {size : Byte}
    (hrun : TelemetryEncoder.run dict casts TelemetryEncoder.init ops = some e)
    (hpos : 0 < e.slotsCnt)
    (hsized : ∀ i < e.slotsCnt, (e.slots i).field.fmt ≠ Fmt.bit.code →
      wireSize (e.slots i).field.fmt ≠ 0)
    (hbits : (∃ i < e.slotsCnt, (e.slots i).field.fmt = Fmt.bit.code) ∨
      ∀ i < e.slotsCnt, (e.slots i).field.fmt ≠ Fmt.u4.code)
    (hs : size ≠ 0#8) (hle : e.partCnt size ≤ 255) (d : TelemetryDecoder)
    {first : TelemetryDecoder.Delivery} {ds : List TelemetryDecoder.Delivery}
    (hfirst : first.part = 0#8) (hds : ∀ p ∈ first :: ds, p.Genuine e size)
    {pre post : List TelemetryDecoder.Delivery} {p : TelemetryDecoder.Delivery}
    (heq : first :: ds = pre ++ p :: post) (hlast : p.part.toNat+1 = e.partCnt size)
    (hall : ∀ k < e.partCnt size, ∃ q ∈ pre ++ [p], q.part.toNat = k) :
    ∃ d', TelemetryDecoder.transfer e size (first :: ds) d = some (d',true) ∧
      ∀ x, Relation.ReflTransGen (Step dict casts size) ⟨e,d'⟩ x → ∀ (l : List Outgoing)
        (pseq : Byte), l.length = 2*x.enc.slotsUpdCnt+8 →
        (∀ f ∈ l, x.Fits f ∧ f.uid.setWidth 16 ≠ dict.xpdr) →
        ∃ y, listen dict casts l pseq x = some y ∧ ∀ i < x.enc.slotsCnt,
          (x.enc.slots i).SameValue (y.enc.slots i) ∧ y.ShowsAt casts i := by
  have hinv := (TelemetryEncoder.clear_inv dict _).run hrun
  have he := run_encodes hrun hpos hsized hbits
  obtain ⟨d',ht,hj⟩ := joined_transfer hinv he hs hle d hfirst hds heq hlast hall
  refine ⟨d',ht,fun x hx l pseq hlen hl => ?_⟩
  exact (hj.run hs hle hx).1.shown l hlen hl pseq

/-- The value changes behind the transfer of the table, and is shown ten frames later. -/
theorem late_joiner_one : ∃ e d' e1 r y,
    TelemetryEncoder.run byteDict noCasts TelemetryEncoder.init oneByte = some e ∧
    TelemetryDecoder.transfer e 2#8 [⟨0#8,⟨List.replicate 10 0#8,0⟩,⟨0#8,0#8,0#8,0#8,0#32⟩⟩,
      ⟨1#8,⟨List.replicate 10 0#8,0⟩,⟨0#8,0#8,0#8,0#8,0#32⟩⟩]
      (TelemetryDecoder.init (Hash.ofWord 7#32)) = some (d',true) ∧
    e.update byteDict ⟨9#11,0#3,0#2⟩ 33#32 .byte false = some (e1,r) ∧ (e1.slots 0).value = 33#32 ∧
    listen byteDict noCasts (List.replicate 10 ⟨⟨List.replicate 9 0#8,0⟩,0#64,9#11,0#3⟩) 0#8
      ⟨e1,d'⟩ = some y ∧ (e1.slots 0).SameValue (y.enc.slots 0) ∧ y.ShowsAt noCasts 0 := by
  have hmap : (TelemetryEncoder.run byteDict noCasts TelemetryEncoder.init oneByte).bind (fun e =>
      (e.update byteDict ⟨9#11,0#3,0#2⟩ 33#32 .byte false).map fun r =>
        (e.slotsCnt,(e.slots 0).field.fmt,r.1.slotsCnt,r.1.slotsUpdCnt,(r.1.slots 0).value)) =
      some (1,Fmt.u8.code,1,1,33#32) := by decide +kernel
  obtain ⟨e,hrun,hmap⟩ := Option.bind_eq_some_iff.mp hmap
  obtain ⟨⟨e1,r⟩,hu,hv⟩ := Option.map_eq_some_iff.mp hmap
  simp only [Prod.mk.injEq] at hv
  obtain ⟨hcnt,hfmt,hcnt1,hupd1,hval⟩ := hv
  have hslot : ∀ i < e.slotsCnt, (e.slots i).field.fmt = Fmt.u8.code := fun i hi => by
    rw [show i = 0 by omega,hfmt]
  have hparts : e.partCnt 2#8 = 2 := by
    rw [TelemetryEncoder.partCnt,hcnt]
    rfl
  have hgen : ∀ p ∈ [TelemetryDecoder.Delivery.mk 0#8 ⟨List.replicate 10 0#8,0⟩
      ⟨0#8,0#8,0#8,0#8,0#32⟩,⟨1#8,⟨List.replicate 10 0#8,0⟩,⟨0#8,0#8,0#8,0#8,0#32⟩⟩],
      p.Genuine e 2#8 := by
    unfold TelemetryDecoder.Delivery.Genuine
    rw [hparts]
    decide
  obtain ⟨d',ht,hall⟩ := late_joiner hrun (by omega)
    (fun i hi _ => by rw [hslot i hi]; decide) (Or.inr fun i hi => by rw [hslot i hi]; decide)
    (by decide) (by omega) (TelemetryDecoder.init (Hash.ofWord 7#32)) rfl hgen
    (show _ = [_] ++ _ :: [] from rfl) (by rw [hparts]; rfl) (by rw [hparts]; decide)
  obtain ⟨y,hy,hshow⟩ := hall ⟨e1,d'⟩ (Relation.ReflTransGen.single (Step.update _ _ _ _ hu))
    (List.replicate 10 ⟨⟨List.replicate 9 0#8,0⟩,0#64,9#11,0#3⟩) 0#8
    (by rw [hupd1,List.length_replicate]) (fun f hf => by
      rw [List.eq_of_mem_replicate hf,Fits,hcnt1]
      decide)
  exact ⟨e,d',e1,r,y,hrun,ht,hu,hval,hy,hshow 0 (by dsimp only; omega)⟩

end Link

end ApxBus.Telemetry
