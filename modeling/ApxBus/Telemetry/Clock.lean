import ApxBus.Telemetry.EncoderFrame
import ApxBus.Telemetry.Transponder
set_option autoImplicit false

/-! The clock of the decoder over the frames of both kinds, with the 16 bits of time in each. -/

namespace ApxBus.Telemetry
open Mandala Real32

/-- A frame as it comes to the decoder, and the time when it was written. -/
structure Sent where
  time : BitVec 64
  pid : Pid
  stream : Reader

def Sent.tick (x : Sent) : Nat := x.time.toNat/ts2ms

def Sent.ts (x : Sent) : BitVec 16 := (x.time/BitVec.ofNat 64 ts2ms).setWidth 16

/-- The encoder has written all of the frame, in some state it can be in. -/
def Sent.Written (dict : Dictionary) (casts : Casts) (x : Sent) : Prop :=
  ∃ ops e, TelemetryEncoder.run dict casts TelemetryEncoder.init ops = some e ∧
    if x.pid.uid.setWidth 16 = dict.xpdr then
      ∃ w w' ok, w.pos+(3+4*xpdrDatasetSize) ≤ w.size ∧
        e.encodeXpdr dict casts w x.time = some (w',ok) ∧ w'.out = w.out ++ x.stream.rest
    else
      ∃ w garbage pseq s, w.pos+(3+1+5*e.slotsCnt) ≤ w.size ∧
        e.encode casts garbage w pseq x.time = some s ∧ s.stream.out = w.out ++ x.stream.rest

def decodeAll (dict : Dictionary) (d : TelemetryDecoder) (frames : List Sent) :
    Option TelemetryDecoder :=
  frames.foldlM (fun d x => (d.decode dict x.pid x.stream).map Prod.fst) d

variable {dict : Dictionary} {casts : Casts} {d d' : TelemetryDecoder} {x y : Sent}

theorem Sent.Written.header (h : x.Written dict casts) :
    ∃ (hdr : Hdr) (l : List Byte), x.stream.rest = hdr.bytes ++ l ∧ hdr.ts = x.ts ∧
      (x.pid.uid.setWidth 16 = dict.xpdr → hdr.feedHash = xpdrVersion) := by
  obtain ⟨ops,e,hrun,hsent⟩ := h
  have h0 := TelemetryEncoder.clear_inv dict TelemetryEncoder.init
  have hi := h0.run hrun
  by_cases hx : x.pid.uid.setWidth 16 = dict.xpdr
  · rw [if_pos hx] at hsent
    obtain ⟨w,w',ok,hw,henc,hout⟩ := hsent
    obtain ⟨w1,ok1,henc1,-,l,hout1,-⟩ := TelemetryEncoder.encodeXpdr_holds hi.cnt_le hw x.time
    obtain ⟨rfl,rfl⟩ := Prod.mk.inj (Option.some.inj (henc.symm.trans henc1))
    rw [hout1,List.append_assoc] at hout
    exact ⟨_,l,(List.append_cancel_left hout).symm,rfl,fun _ => rfl⟩
  · rw [if_neg hx] at hsent
    obtain ⟨w,garbage,pseq,s,hw,henc,hout⟩ := hsent
    obtain ⟨s1,stop,wd,hdr,henc1,-,-,-,hts,-,-,hout1,-⟩ :=
      TelemetryEncoder.encode_frame casts garbage
      pseq hi.cnt_le (h0.run_enforced (by decide) hrun) hw x.time
    obtain rfl := Option.some.inj (henc.symm.trans henc1)
    rw [hout1,List.append_assoc] at hout
    exact ⟨hdr,_,(List.append_cancel_left hout).symm,hts,fun h => absurd h hx⟩

namespace TelemetryDecoder

theorem SameClock.clock (h : SameClock d d') (ts : BitVec 16) :
    SameClock (d.clock ts) (d'.clock ts) := by
  unfold TelemetryDecoder.clock
  rw [h.ts,h.timestampMs]
  exact ⟨rfl,rfl,rfl⟩

theorem feedHash_sameClock (d : TelemetryDecoder) (seq : BitVec 2) (feed : Byte) :
    SameClock d (d.feedHash seq feed) := by
  have hc : SameClock d (d.collectHash seq feed) := by
    unfold collectHash
    dsimp only
    split_ifs <;> exact ⟨rfl,rfl,rfl⟩
  unfold feedHash
  dsimp only
  split_ifs
  · exact hc.trans (reset_sameClock _ true)
  · exact hc

theorem decode_clock (h : x.Written dict casts) (d : TelemetryDecoder) :
    ∃ d' r ok, d.decode dict x.pid x.stream = some (d',r,ok) ∧ SameClock (d.clock x.ts) d' := by
  obtain ⟨hdr,l,hr,hts,hver⟩ := h.header
  rw [← hts]
  by_cases hx : x.pid.uid.setWidth 16 = dict.xpdr
  · obtain ⟨r1,-,hdec⟩ := decode_xpdr (d := d) hx (hver hx) hr
    obtain ⟨d',r,ok,hd,heq⟩ := decodeXpdr_total dict (d.clock hdr.ts) r1
    refine ⟨d',r,ok,hdec.trans hd,?_⟩
    rw [heq]
    exact ⟨rfl,rfl,rfl⟩
  · have hlen : Hdr.psize ≤ x.stream.available := by
      rw [← x.stream.rest_length,hr,List.length_append]
      exact Nat.le_add_right 3 _
    obtain ⟨d1,hd1,hdec⟩ := decode_data dict d hlen hx
    have h1 : SameClock (d.clock hdr.ts) d1 := by
      rw [hd1,(Hdr.read_bytes hr).1]
      exact (feedHash_sameClock d _ _).clock _
    rcases hdec with ⟨-,hdec⟩ | ⟨-,valid,r,hdec⟩
    · obtain ⟨d',r,ok,hd,hsame,-⟩ := decodeValues_spec {d1 with valid := true}
        (Hdr.read x.stream).2 (x.pid.seq.setWidth 8)
      exact ⟨d',r,ok,hdec.trans hd,h1.trans ⟨hsame.ts,hsame.dtMs,hsame.timestampMs⟩⟩
    · exact ⟨_,r,false,hdec,⟨h1.ts,h1.dtMs,h1.timestampMs⟩⟩

end TelemetryDecoder

theorem Sent.ts_toNat (x : Sent) : x.ts.toNat = x.tick%65536 := by
  rw [ts,BitVec.toNat_setWidth,BitVec.toNat_udiv]
  rfl

theorem clock_step {x y : Sent} (hd : d.ts = x.ts) (hlt : x.tick < y.tick)
    (hle : y.tick ≤ x.tick+65536) :
    (d.clock y.ts).dtMs.toNat = ts2ms*(y.tick-x.tick) ∧
      (d.clock y.ts).timestampMs = d.timestampMs+BitVec.ofNat 64 (ts2ms*(y.tick-x.tick)) := by
  have hdts : ((y.ts-d.ts).setWidth 32).toNat = (y.tick-x.tick)%65536 := by
    rw [hd,BitVec.toNat_setWidth,BitVec.toNat_sub,x.ts_toNat,y.ts_toNat]
    omega
  have hdt : (d.clock y.ts).dtMs.toNat = ts2ms*(y.tick-x.tick) := by
    unfold TelemetryDecoder.clock ts2ms
    dsimp only
    by_cases h0 : (y.ts-d.ts).setWidth 32 = 0#32
    · rw [h0] at hdts
      have hz : (0#32).toNat = 0 := rfl
      rw [if_pos h0,show y.tick-x.tick = 65536 by omega]
      rfl
    · have hne : ((y.ts-d.ts).setWidth 32).toNat ≠ 0 := fun h => h0 (BitVec.eq_of_toNat_eq h)
      have hturn : y.tick-x.tick < 65536 := by omega
      rw [if_neg h0,BitVec.toNat_mul,hdts,Nat.mod_eq_of_lt hturn,
        show (BitVec.ofNat 32 20).toNat = 20 from rfl]
      omega
  refine ⟨hdt,?_⟩
  have hms : (d.clock y.ts).timestampMs = d.timestampMs+((d.clock y.ts).dtMs).setWidth 64 := rfl
  rw [hms,← hdt,BitVec.ofNat_toNat]

/-- Behind the frames the reference is the tick of the last one, and the time has grown by the
ticks since the first. -/
structure Clocked (d0 : TelemetryDecoder) (x0 x : Sent) (d : TelemetryDecoder) : Prop where
  ts : d.ts = x.ts
  le : x0.tick ≤ x.tick
  timestampMs : d.timestampMs = d0.timestampMs+BitVec.ofNat 64 (ts2ms*(x.tick-x0.tick))

theorem Clocked.decode {d0 : TelemetryDecoder} {x0 : Sent} (h : Clocked d0 x0 x d)
    (hw : y.Written dict casts) (hlt : x.tick < y.tick) (hle : y.tick ≤ x.tick+65536) :
    ∃ d' r ok, d.decode dict y.pid y.stream = some (d',r,ok) ∧ Clocked d0 x0 y d' ∧
      d'.dtMs.toNat = ts2ms*(y.tick-x.tick) := by
  obtain ⟨d',r,ok,hdec,hsame⟩ := TelemetryDecoder.decode_clock hw d
  obtain ⟨hdt,hms⟩ := clock_step h.ts hlt hle
  have h0 := h.le
  refine ⟨d',r,ok,hdec,⟨hsame.ts,by omega,?_⟩,?_⟩
  · rw [hsame.timestampMs,hms,h.timestampMs,BitVec.add_assoc,← BitVec.ofNat_add,← Nat.mul_add]
    congr 3
    omega
  · rw [hsame.dtMs,hdt]

theorem Clocked.elapsed {d0 : TelemetryDecoder} {x0 : Sent} (h : Clocked d0 x0 x d) :
    (d.timestampMs-d0.timestampMs).toNat = ts2ms*(x.tick-x0.tick) := by
  have hlt := x.time.isLt
  have hfit : ts2ms*(x.tick-x0.tick) < 2^64 := by
    unfold Sent.tick ts2ms
    omega
  rw [h.timestampMs,BitVec.add_comm,BitVec.add_sub_cancel,BitVec.toNat_ofNat,Nat.mod_eq_of_lt hfit]

theorem decodeAll_snoc (dict : Dictionary) (d : TelemetryDecoder) (frames : List Sent) (x : Sent) :
    decodeAll dict d (frames ++ [x]) = (decodeAll dict d frames).bind fun d =>
      (d.decode dict x.pid x.stream).map Prod.fst := by
  unfold decodeAll
  rw [List.foldlM_append]
  exact Option.bind_congr fun d _ => bind_pure _

theorem decodeAll_clocked {frames : List Sent} (hw : ∀ x ∈ frames, x.Written dict casts)
    (hc : frames.IsChain fun x y => x.tick < y.tick ∧ y.tick ≤ x.tick+65536)
    (d : TelemetryDecoder) (h0 : 0 < frames.length) :
    ∃ d0, decodeAll dict d (frames.take 1) = some d0 ∧ ∀ k, (hk : k < frames.length) →
      ∃ d', decodeAll dict d (frames.take (k+1)) = some d' ∧
        Clocked d0 frames[0] frames[k] d' ∧
        ∀ j, (hj : j+1 = k) → d'.dtMs.toNat = ts2ms*(frames[k].tick-frames[j].tick) := by
  have hmem : ∀ k (hk : k < frames.length), frames[k].Written dict casts :=
    fun k hk => hw _ (List.getElem_mem hk)
  obtain ⟨d0,r,ok,hdec,hsame⟩ := TelemetryDecoder.decode_clock (hmem 0 h0) d
  have hone : decodeAll dict d (frames.take 1) = some d0 := by
    rw [List.take_succ_eq_append_getElem h0,decodeAll_snoc]
    change (d.decode dict _ _).map Prod.fst = _
    rw [hdec]
    rfl
  refine ⟨d0,hone,fun k => ?_⟩
  induction k with
  | zero =>
    intro hk
    refine ⟨d0,hone,⟨hsame.ts,Nat.le_refl _,?_⟩,fun j hj => absurd hj (Nat.succ_ne_zero j)⟩
    rw [Nat.sub_self]
    exact (BitVec.add_zero _).symm
  | succ k ih =>
    intro hk
    obtain ⟨d1,hd1,hclock,-⟩ := ih (Nat.lt_of_succ_lt hk)
    obtain ⟨hlt,hle⟩ := List.isChain_iff_getElem.mp hc k hk
    obtain ⟨d',r',ok',hdec',hclock',hdt⟩ := hclock.decode (hmem (k+1) hk) hlt hle
    refine ⟨d',?_,hclock',fun j hj => ?_⟩
    · rw [List.take_succ_eq_append_getElem hk,decodeAll_snoc,hd1]
      simp only [Option.bind_some]
      rw [hdec']
      rfl
    · obtain rfl := Nat.succ.inj hj
      exact hdt

/-- The clock of the decoder follows that of the encoder without drift. -/
theorem clock_exact {frames : List Sent} (hw : ∀ x ∈ frames, x.Written dict casts)
    (hc : frames.IsChain fun x y => x.tick < y.tick ∧ y.tick ≤ x.tick+65536)
    (d : TelemetryDecoder) {k : Nat} (hk : k+1 < frames.length) :
    ∃ d0 d', decodeAll dict d (frames.take 1) = some d0 ∧
      decodeAll dict d (frames.take (k+2)) = some d' ∧
      d'.dtMs.toNat = 20*(frames[k+1].tick-frames[k].tick) ∧
      (d'.timestampMs-d0.timestampMs).toNat = 20*(frames[k+1].tick-frames[0].tick) := by
  obtain ⟨d0,hd0,hall⟩ := decodeAll_clocked hw hc d (by omega)
  obtain ⟨d',hd',hclock,hdt⟩ := hall (k+1) hk
  exact ⟨d0,d',hd0,hd',hdt k rfl,hclock.elapsed⟩

section
open TelemetryEncoder

/-- A full turn of the 16 bits to a frame of the other kind, and one tick more. -/
theorem clock_exact_turn : ∃ (frames : List Sent) (d0 d' : TelemetryDecoder),
    (∀ x ∈ frames, x.Written byteDict noCasts) ∧
    frames.map Sent.tick = [7,65543,65544] ∧
    decodeAll byteDict (TelemetryDecoder.init (Hash.ofWord 0#32)) (frames.take 1) = some d0 ∧
    decodeAll byteDict (TelemetryDecoder.init (Hash.ofWord 0#32)) (frames.take 3) = some d' ∧
    d'.dtMs.toNat = 20 ∧ (d'.timestampMs-d0.timestampMs).toNat = 20*65537 := by
  have hmap : (run byteDict noCasts init (byteFields [6#11])).map (fun e =>
      (e.slotsCnt,(e.encode noCasts (fun _ => 0#32) ⟨List.replicate 9 0#8,0⟩ 0#8 145#64).isSome,
        (e.encodeXpdr byteDict noCasts ⟨List.replicate 31 0#8,0⟩ 1310860#64).isSome,
        (e.encode noCasts (fun _ => 0#32) ⟨List.replicate 9 0#8,0⟩ 1#8 1310895#64).isSome)) =
      some (1,true,true,true) := by
    decide +kernel
  obtain ⟨e,he,hv⟩ := Option.map_eq_some_iff.mp hmap
  simp only [Prod.mk.injEq,Option.isSome_iff_exists] at hv
  obtain ⟨hcnt,⟨s0,h0⟩,⟨⟨w1,ok1⟩,h1⟩,⟨s2,h2⟩⟩ := hv
  have hroom : (⟨List.replicate 9 0#8,0⟩ : Writer).pos+(3+1+5*e.slotsCnt) ≤
      (⟨List.replicate 9 0#8,0⟩ : Writer).size := by
    rw [hcnt]
    decide
  have hdata : ¬ (6#11).setWidth 16 = byteDict.xpdr := by decide
  have hx : (8#11).setWidth 16 = byteDict.xpdr := by decide
  obtain ⟨frames,hframes⟩ : ∃ frames : List Sent, frames =
      [⟨145#64,⟨6#11,0#3,0#2⟩,⟨s0.stream.out,0⟩⟩,⟨1310860#64,⟨8#11,0#3,0#2⟩,⟨w1.out,0⟩⟩,
        ⟨1310895#64,⟨6#11,0#3,1#2⟩,⟨s2.stream.out,0⟩⟩] := ⟨_,rfl⟩
  have hw : ∀ x ∈ frames, x.Written byteDict noCasts := by
    rw [hframes]
    simp only [List.forall_mem_cons]
    refine ⟨⟨_,e,he,?_⟩,⟨_,e,he,?_⟩,⟨_,e,he,?_⟩,List.forall_mem_nil _⟩
    · rw [if_neg hdata]
      exact ⟨_,_,_,s0,hroom,h0,rfl⟩
    · rw [if_pos hx]
      exact ⟨_,w1,ok1,by decide,h1,rfl⟩
    · rw [if_neg hdata]
      exact ⟨_,_,_,s2,hroom,h2,rfl⟩
  have hticks : frames.map Sent.tick = [7,65543,65544] := by
    rw [hframes]
    simp [Sent.tick,ts2ms]
  have hlen : 1+1 < frames.length := by
    rw [hframes]
    exact Nat.lt_succ_self 2
  have hc : frames.IsChain fun x y => x.tick < y.tick ∧ y.tick ≤ x.tick+65536 := by
    rw [hframes]
    refine .cons_cons ?_ (.cons_cons ?_ (.singleton _)) <;> simp [Sent.tick,ts2ms]
  obtain ⟨d0,d',hd0,hd',hdt,hms⟩ := clock_exact hw hc (TelemetryDecoder.init (Hash.ofWord 0#32))
    hlen
  refine ⟨frames,d0,d',hw,hticks,hd0,hd',?_,?_⟩
  · rw [hdt]
    simp [hframes,Sent.tick,ts2ms]
  · rw [hms]
    simp [hframes,Sent.tick,ts2ms]

end

end ApxBus.Telemetry
