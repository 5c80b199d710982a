import ApxBus.Telemetry.FrameTransfer
set_option autoImplicit false

/-!
Frames of a table with options and no bitfields. When the last value shares its byte with the one
before, the stream has ended for the decoder before it comes to it.
-/

namespace ApxBus.Telemetry
open Mandala Real32

/-- A frame with the values `sent` is accepted: the decoder keeps its table, reads all of the
stream, and has the options. -/
structure Accepted (casts : Casts) (e : TelemetryEncoder) (sent : List (Nat × BitVec 32))
    (d d' : TelemetryDecoder) (r' : Reader) (ok : Bool) : Prop where
  table : d.SameTable d'
  valid : d'.valid = true
  all : r'.available = 0
  ok : ok = true ↔ sent ≠ []
  option : ∀ i raw, (i,raw) ∈ sent → (e.slots i).field.fmt = Fmt.u4.code →
    d'.flags i = ⟨.byte,true⟩ ∧ d'.value i =
      ((packValue casts (e.slots i).value (e.slots i).flags.type
        (e.slots i).field.fmt).getD 0 0#8 &&&
        0x0F#8).setWidth 32

theorem Delivered.option {casts : Casts} {e : TelemetryEncoder} {sent : List (Nat × BitVec 32)}
    {d d' : TelemetryDecoder} (h : Delivered casts e sent d d') {i : Nat} {raw : BitVec 32}
    (hm : (i,raw) ∈ sent) (hu : (e.slots i).field.fmt = Fmt.u4.code) :
    d'.flags i = ⟨.byte,true⟩ ∧ d'.value i =
      ((packValue casts (e.slots i).value (e.slots i).flags.type
        (e.slots i).field.fmt).getD 0 0#8 &&&
        0x0F#8).setWidth 32 := by
  obtain ⟨-,-,hupd,hland⟩ := h.value i raw hm
  unfold Landed at hland
  dsimp only at hland
  rw [if_pos hu] at hland
  refine ⟨?_,hland.1⟩
  rw [← hland.2,← hupd]

section
variable {casts : Casts} {garbage : Nat → BitVec 32} {pseq : Byte} {e : TelemetryEncoder}
  {d : TelemetryDecoder} {dict : Dictionary} {pid : Pid}

/-- The frame of a table without bitfields is accepted exactly when its last value is not the second
of two options in a byte. -/
theorem option_frame_accepted_iff (he : Readable e)
    (hno : ∀ i < e.slotsCnt, (e.slots i).field.fmt ≠ Fmt.bit.code) (hd : Follows d e) {w : Writer}
    (hw : w.pos+(3+1+5*e.slotsCnt) ≤ w.size) (ts : BitVec 64)
    (hseq : pid.seq = pseq.setWidth 2) :
    ∃ s frame, e.encode casts garbage w pseq ts = some s ∧ s.stream.out = w.out ++ frame ∧
      ∀ r : Reader, r.rest = frame →
        ∃ d' r' ok, d.decode dict pid r = some (d',r',ok) ∧
          if pid.uid.setWidth 16 = dict.xpdr then d'.value = d.value ∧ d'.flags = d.flags
          else Accepted casts e s.sent d d' r' ok ↔ ¬ Halved (e.lastValues casts garbage pseq) := by
  obtain ⟨s,frame,henc,hout,hdec⟩ := @frame_decoded casts garbage pseq e d dict pid he hd w hw ts
    hseq
  refine ⟨s,frame,henc,hout,fun r hr => ?_⟩
  obtain ⟨d',r',ok,hdec,hthen⟩ := hdec r hr
  refine ⟨d',r',ok,hdec,?_⟩
  by_cases hx : pid.uid.setWidth 16 = dict.xpdr
  · rw [if_pos hx] at hthen ⊢
    exact hthen.2
  · rw [if_neg hx] at hthen ⊢
    constructor
    · intro hacc hcut
      have hzero := (hthen.1 ⟨hno,hcut⟩).1
      rw [hacc.table.slotsCnt,hd.slotsCnt] at hzero
      exact he.pos.ne' hzero
    · intro hwhole
      obtain ⟨htable,hend,hvalid,hdel,hok⟩ := hthen.2 fun hcut => hwhole hcut.2
      exact ⟨htable,hvalid,hend,hok hno,fun i raw hm hu => hdel.option hm hu⟩

end

section
open TelemetryEncoder

def options : Nat → List Op
  | 0 => []
  | n+1 => options n ++ [.add ⟨⟨BitVec.ofNat 11 (9+n),0#3,0#2⟩,Fmt.u4.code⟩,
      .update ⟨BitVec.ofNat 11 (9+n),0#3,0#2⟩ (BitVec.ofNat 32 (3+n)) .byte false]

theorem options_run {n : Nat} {e : TelemetryEncoder}
    (h : run byteDict noCasts init (options n) = some e) (hpos : 0 < e.slotsCnt)
    (hu : ∀ i < e.slotsCnt, (e.slots i).field.fmt = Fmt.u4.code) :
    Readable e ∧ ∀ i < e.slotsCnt, (e.slots i).field.fmt ≠ Fmt.bit.code := by
  have hno : ∀ i < e.slotsCnt, (e.slots i).field.fmt ≠ Fmt.bit.code := fun i hi => by
    rw [hu i hi]
    decide
  refine ⟨run_readable h hpos fun i hi _ => ?_,hno⟩
  rw [hu i hi]
  decide

/-- Two options fill a byte, and the decoder drops the frame and its table. -/
theorem option_frame_dropped : ∃ e s d' r',
    run byteDict noCasts init (options 2) = some e ∧ Readable e ∧
    (∀ i < e.slotsCnt, (e.slots i).field.fmt = Fmt.u4.code) ∧ Follows (follower e) e ∧
    (⟨List.replicate 14 0#8,0⟩ : Writer).pos+(3+1+5*e.slotsCnt) ≤
      (⟨List.replicate 14 0#8,0⟩ : Writer).size ∧
    e.encode noCasts (fun _ => 0#32) ⟨List.replicate 14 0#8,0⟩ 5#8 0#64 = some s ∧
    s.sent = [(0,3#32),(1,4#32)] ∧ (⟨11#11,0#3,1#2⟩ : Pid).seq = (5#8).setWidth 2 ∧
    (follower e).decode byteDict ⟨11#11,0#3,1#2⟩ ⟨s.stream.out,0⟩ = some (d',r',false) ∧
    d'.slotsCnt = 0 ∧ d'.value 0 = 0#32 := by
  have hmap : (run byteDict noCasts init (options 2)).bind (fun e =>
      (e.encode noCasts (fun _ => 0#32) ⟨List.replicate 14 0#8,0⟩ 5#8 0#64).bind fun s =>
        ((follower e).decode byteDict ⟨11#11,0#3,1#2⟩ ⟨s.stream.out,0⟩).map fun x =>
          ((e.slotsCnt,(e.slots 0).field.fmt,(e.slots 1).field.fmt),s.sent,
            (x.1.slotsCnt,x.1.value 0,x.2.2))) =
      some ((2,Fmt.u4.code,Fmt.u4.code),[(0,3#32),(1,4#32)],(0,0#32,false)) := by
    decide +kernel
  obtain ⟨e,he,hmap⟩ := Option.bind_eq_some_iff.mp hmap
  obtain ⟨s,hs,hmap⟩ := Option.bind_eq_some_iff.mp hmap
  obtain ⟨⟨d',r',ok⟩,hd,hv⟩ := Option.map_eq_some_iff.mp hmap
  simp only [Prod.mk.injEq] at hv
  obtain ⟨⟨hcnt,h0,h1⟩,hsent,hzero,hval,rfl⟩ := hv
  have hu : ∀ i < e.slotsCnt, (e.slots i).field.fmt = Fmt.u4.code := fun i hi => by
    rw [hcnt] at hi
    interval_cases i
    · exact h0
    · exact h1
  refine ⟨e,s,d',r',he,(options_run he (by omega) hu).1,hu,follower_follows e,?_,hs,hsent,
    by decide,hd,hzero,hval⟩
  rw [hcnt]
  decide

/-- The third of three options has a byte of its own. -/
theorem option_frame_accepted_three : ∃ e s d' r' ok,
    run byteDict noCasts init (options 3) = some e ∧ e.slotsCnt = 3 ∧
    e.encode noCasts (fun _ => 0#32) ⟨List.replicate 19 0#8,0⟩ 5#8 0#64 = some s ∧
    (follower e).decode byteDict ⟨11#11,0#3,1#2⟩ ⟨s.stream.out,0⟩ = some (d',r',ok) ∧
    Accepted noCasts e s.sent (follower e) d' r' ok := by
  have hmap : (run byteDict noCasts init (options 3)).map (fun e =>
      (e.slotsCnt,(e.slots 0).field.fmt,(e.slots 1).field.fmt,(e.slots 2).field.fmt,
        decide (Halved (e.lastValues noCasts (fun _ => 0#32) 5#8)))) =
      some (3,Fmt.u4.code,Fmt.u4.code,Fmt.u4.code,false) := by
    decide +kernel
  obtain ⟨e,he,hv⟩ := Option.map_eq_some_iff.mp hmap
  simp only [Prod.mk.injEq] at hv
  obtain ⟨hcnt,h0,h1,h2,hhalf⟩ := hv
  have hu : ∀ i < e.slotsCnt, (e.slots i).field.fmt = Fmt.u4.code := fun i hi => by
    rw [hcnt] at hi
    interval_cases i
    · exact h0
    · exact h1
    · exact h2
  obtain ⟨hread,hno⟩ := options_run he (by omega) hu
  have hroom : (⟨List.replicate 19 0#8,0⟩ : Writer).pos+(3+1+5*e.slotsCnt) ≤
      (⟨List.replicate 19 0#8,0⟩ : Writer).size := by
    rw [hcnt]
    decide
  obtain ⟨s,frame,henc,hout,hdec⟩ := @option_frame_accepted_iff noCasts (fun _ => 0#32) 5#8 e
    (follower e) byteDict ⟨11#11,0#3,1#2⟩ hread hno (follower_follows e) _ hroom 0#64 rfl
  obtain ⟨d',r',ok,hdec,hacc⟩ := hdec ⟨s.stream.out,0⟩ hout
  rw [if_neg (by decide)] at hacc
  exact ⟨e,s,d',r',ok,he,hcnt,henc,hdec,hacc.mpr (of_decide_eq_false hhalf)⟩

end

end ApxBus.Telemetry
