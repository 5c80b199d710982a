import ApxBus.Telemetry.DecoderRead
import ApxBus.Telemetry.EncoderFrame
import ApxBus.Telemetry.FormatTransfer
import ApxBus.Telemetry.PendingSync
set_option autoImplicit false

/-! A frame of the encoder and what the decoder makes of it. -/

namespace ApxBus.Telemetry
open Mandala Real32

/-- What is stored of a value: the result of `unpack_value` over the raw value that was there, or
the low half of the byte of an option. -/
def Landed (casts : Casts) (x : EncSlot) (old new : BitVec 32) (type : TypeId) : Prop :=
  let packed := packValue casts x.value x.flags.type x.field.fmt
  if x.field.fmt = Fmt.u4.code then
    new = (packed.getD 0 0#8 &&& 0x0F#8).setWidth 32 ∧ type = .byte
  else unpackValue packed old .real x.field.fmt packed.length = some (packed.length,new,type)

/-- A frame with the values `sent` has come from `e` to `d`. -/
structure Delivered (casts : Casts) (e : TelemetryEncoder) (sent : List (Nat × BitVec 32))
    (d d' : TelemetryDecoder) : Prop where
  value : ∀ i raw, (i,raw) ∈ sent → i < e.slotsCnt ∧ (e.slots i).field.fmt ≠ Fmt.bit.code ∧
    (d'.flags i).upd = true ∧ Landed casts (e.slots i) (d.value i) (d'.value i) (d'.flags i).type
  bit : ∀ i < e.slotsCnt, (e.slots i).field.fmt = Fmt.bit.code →
    d'.value i = (if (e.slots i).value ≠ 0#32 then 1#32 else 0#32) ∧ d'.flags i = ⟨.byte,true⟩
  rest : ∀ i, (∀ raw, (i,raw) ∉ sent) →
    ¬ (i < e.slotsCnt ∧ (e.slots i).field.fmt = Fmt.bit.code) → d.SameSlot d' i

theorem Delivered.marked {casts : Casts} {e : TelemetryEncoder} {sent : List (Nat × BitVec 32)}
    {d d' : TelemetryDecoder} (h : Delivered casts e sent d d') (hd : ∀ i, (d.flags i).upd = false)
    (i : Nat) : (d'.flags i).upd = true ↔
      (∃ raw, (i,raw) ∈ sent) ∨ i < e.slotsCnt ∧ (e.slots i).field.fmt = Fmt.bit.code := by
  refine ⟨fun hu => ?_,fun hor => ?_⟩
  · by_contra hno
    rw [not_or,not_exists] at hno
    rw [(h.rest i hno.1 hno.2).2,hd i] at hu
    cases hu
  · rcases hor with ⟨raw,hs⟩ | ⟨hi,hb⟩
    · exact (h.value i raw hs).2.2.1
    · rw [(h.bit i hi hb).2]

theorem passes_low (f : Field) (pseq : Byte) :
    passes f ((pseq.setWidth 2).setWidth 8) ↔ passes f pseq := by
  have h1 : ∀ x : Byte, (x.setWidth 2).setWidth 8 &&& 1#8 = x &&& 1#8 := by decide +kernel
  have h3 : ∀ x : Byte, (x.setWidth 2).setWidth 8 &&& 3#8 = x &&& 3#8 := by decide +kernel
  unfold passes
  rw [h1,h3]

theorem take_fillRaw (garbage : BitVec 32) {packed : List Byte} (h : packed.length ≤ 4) :
    (bytes32 (TelemetryEncoder.fillRaw garbage packed)).take packed.length = packed := by
  rw [TelemetryEncoder.fillRaw,bytes32_le32]
  match packed,h with
  | [],_ => rfl
  | [_],_ => rfl
  | [_,_],_ => rfl
  | [_,_,_],_ => rfl
  | [_,_,_,_],_ => rfl

theorem fillRaw_low (garbage : BitVec 32) {packed : List Byte} (h : packed ≠ []) :
    (TelemetryEncoder.fillRaw garbage packed).setWidth 8 = packed.getD 0 0#8 := by
  have hlow : ∀ b0 b1 b2 b3 : Byte, (le32 b0 b1 b2 b3).setWidth 8 = b0 := by
    intro b0 b1 b2 b3
    refine BitVec.eq_of_getLsbD_eq fun i hi => ?_
    rw [BitVec.getLsbD_setWidth,le32_getLsbD,if_pos hi,decide_eq_true hi,Bool.true_and]
  cases packed with
  | nil => exact absurd rfl h
  | cons b packed => exact hlow _ _ _ _

def wirePacked (casts : Casts) (x : EncSlot) : Packed :=
  let packed := packValue casts x.value x.flags.type x.field.fmt
  if x.field.fmt = Fmt.u4.code then .nibble (packed.getD 0 0#8 &&& 0x0F#8) else .bytes packed

section
variable {casts : Casts} {x : EncSlot}

theorem packValue_ne_nil (h : wireSize x.field.fmt ≠ 0) :
    packValue casts x.value x.flags.type x.field.fmt ≠ [] := by
  rw [Ne,← List.length_eq_zero_iff,packValue_length]
  exact h

theorem wirePacked_carries (h : wireSize x.field.fmt ≠ 0) :
    x.field.Carries (wirePacked casts x) := by
  unfold wirePacked
  dsimp only
  by_cases hu : x.field.fmt = Fmt.u4.code
  · rw [if_pos hu]
    refine ⟨hu,?_⟩
    rw [BitVec.and_assoc,BitVec.and_self]
  · rw [if_neg hu]
    exact ⟨hu,packValue_length _ _ _ _,packValue_ne_nil h⟩

theorem received_landed (h : wireSize x.field.fmt ≠ 0) (old : BitVec 32) :
    Landed casts x old (received x.field old (wirePacked casts x)).1
      (received x.field old (wirePacked casts x)).2 := by
  have hc : x.field.Carries (wirePacked casts x) := wirePacked_carries h
  unfold Landed
  unfold wirePacked at hc ⊢
  dsimp only at hc ⊢
  by_cases hu : x.field.fmt = Fmt.u4.code
  · rw [if_pos hu,if_pos hu]
    exact ⟨rfl,rfl⟩
  · rw [if_neg hu] at hc ⊢
    rw [if_neg hu]
    have hb := unpackValue_bytes (r := []) hc old (Nat.le_refl _)
    rw [List.append_nil] at hb
    exact hb

end

namespace TelemetryEncoder
variable {casts : Casts} {garbage : Nat → BitVec 32} {pseq : Byte} {e : TelemetryEncoder}
  {i stop : Nat}

theorem valueOf_marked : valueOf casts garbage pseq e.marked i =
      if Sends casts (garbage i) pseq (e.marked i) then some (wirePacked casts (e.slots i))
      else none := by
  obtain ⟨hf,hv,ht⟩ := e.marked_same i
  unfold valueOf
  by_cases hs : Sends casts (garbage i) pseq (e.marked i)
  · rw [if_pos hs,if_pos hs,rawOf,hf,hv,ht,packedOf,wirePacked]
    by_cases hu : (e.slots i).field.fmt = Fmt.u4.code
    · have hsize : wireSize (e.slots i).field.fmt ≠ 0 := by
        rw [hu]
        decide
      rw [if_pos hu,if_pos hu,fillRaw_low _ (packValue_ne_nil hsize)]
    · rw [if_neg hu,if_neg hu,take_fillRaw _ (by rw [packValue_length]; exact wireSize_le _)]
  · rw [if_neg hs,if_neg hs]

theorem mem_sent {raw : BitVec 32} :
    (i,raw) ∈ (List.range' 0 stop).flatMap (fun i =>
      sentNow casts (garbage i) pseq i (e.marked i)) ↔
    i < stop ∧ Sends casts (garbage i) pseq (e.marked i) ∧
      raw = rawOf casts (garbage i) (e.marked i) := by
  rw [List.mem_flatMap]
  constructor
  · rintro ⟨j,hj,hm⟩
    have hlt := (List.mem_range'_1.mp hj).2
    unfold sentNow at hm
    split_ifs at hm with hs
    · obtain ⟨rfl,rfl⟩ := Prod.mk.inj (List.mem_singleton.mp hm)
      exact ⟨by omega,hs,rfl⟩
    · exact absurd hm List.not_mem_nil
  · rintro ⟨hlt,hs,rfl⟩
    refine ⟨i,List.mem_range'_1.mpr ⟨Nat.zero_le i,by omega⟩,?_⟩
    rw [sentNow,if_pos (show flagged pseq (e.marked i) ∧ _ from hs)]
    exact List.mem_singleton_self _

end TelemetryEncoder

/-- An encoder with a table in order and a size on the wire for every value. -/
structure Readable (e : TelemetryEncoder) : Prop where
  sorted : e.Sorted
  pos : 0 < e.slotsCnt
  enforced : e.enforcedUpd < slotsSize
  sized : ∀ i < e.slotsCnt, (e.slots i).field.fmt ≠ Fmt.bit.code →
    wireSize (e.slots i).field.fmt ≠ 0

/-- An encoder whose frames are read to their end: no options without a bitfield behind them. -/
structure Encodes (e : TelemetryEncoder) : Prop extends Readable e where
  bits : (∃ i < e.slotsCnt, (e.slots i).field.fmt = Fmt.bit.code) ∨
    ∀ i < e.slotsCnt, (e.slots i).field.fmt ≠ Fmt.u4.code

/-- The same in a slot that is sent: its field, its value and the type of this. -/
structure EncSlot.SameValue (x y : EncSlot) : Prop where
  field : y.field = x.field
  value : y.value = x.value
  type : y.flags.type = x.flags.type

theorem EncSlot.SameValue.trans {x y z : EncSlot} (h1 : x.SameValue y) (h2 : y.SameValue z) :
    x.SameValue z :=
  ⟨h2.field.trans h1.field,h2.value.trans h1.value,h2.type.trans h1.type⟩

theorem TelemetryEncoder.encode_sameValue {casts : Casts} {garbage : Nat → BitVec 32} {pseq : Byte}
    {e : TelemetryEncoder} {w : Writer} {ts : BitVec 64} {s : EncodeState}
    (h : e.encode casts garbage w pseq ts = some s) (i : Nat) :
    (e.slots i).SameValue (s.enc.slots i) := by
  obtain ⟨n,stop,-,-,-,-,-,he,-⟩ := encode_spec h
  obtain ⟨hf,hv,ht⟩ := e.marked_same i
  rw [he]
  change (e.slots i).SameValue (processedUpTo casts garbage pseq 0 stop e.marked i)
  unfold processedUpTo processed
  split_ifs <;> exact ⟨hf,hv,ht⟩

/-- A decoder that has the table of the encoder, and its hash. -/
structure Follows (d : TelemetryDecoder) (e : TelemetryEncoder) : Prop where
  slotsCnt : d.slotsCnt = e.slotsCnt
  field : ∀ i < e.slotsCnt, d.fieldAt i = (e.slots i).field
  hash : d.hash = e.hash
  hashValid : d.hashValid = 4

theorem run_readable {dict : Dictionary} {casts : Casts} {ops : List TelemetryEncoder.Op}
    {e : TelemetryEncoder}
    (h : TelemetryEncoder.run dict casts TelemetryEncoder.init ops = some e) (hpos : 0 < e.slotsCnt)
    (hsized : ∀ i < e.slotsCnt, (e.slots i).field.fmt ≠ Fmt.bit.code →
      wireSize (e.slots i).field.fmt ≠ 0) : Readable e := by
  have h0 := TelemetryEncoder.clear_inv dict TelemetryEncoder.init
  exact ⟨(h0.run h).toSorted,hpos,h0.run_enforced (by decide) h,hsized⟩

theorem run_encodes {dict : Dictionary} {casts : Casts} {ops : List TelemetryEncoder.Op}
    {e : TelemetryEncoder}
    (h : TelemetryEncoder.run dict casts TelemetryEncoder.init ops = some e) (hpos : 0 < e.slotsCnt)
    (hsized : ∀ i < e.slotsCnt, (e.slots i).field.fmt ≠ Fmt.bit.code →
      wireSize (e.slots i).field.fmt ≠ 0)
    (hbits : (∃ i < e.slotsCnt, (e.slots i).field.fmt = Fmt.bit.code) ∨
      ∀ i < e.slotsCnt, (e.slots i).field.fmt ≠ Fmt.u4.code) : Encodes e :=
  ⟨run_readable h hpos hsized,hbits⟩

/-- The bytes of a frame have the value of slot `i`: behind the header and the number of values are
the codes of the slots that pass the filter, each value that is there is that of its slot, and slot
`i` has one. -/
def TelemetryEncoder.Transmits (casts : Casts) (pseq : Byte) (e : TelemetryEncoder)
    (frame : List Byte) (i : Nat) : Prop :=
  ∃ (hdr : Hdr) (val : Nat → Option Packed) (stop : Nat) (wd : List Byte),
    hdr.feedHash = hashByte e.hash (pseq.setWidth 2) ∧ stop ≤ e.slotsCnt ∧
    (∀ j < stop, (e.slots j).field.fmt ≠ Fmt.bit.code) ∧
    (stop < e.slotsCnt → (e.slots stop).field.fmt = Fmt.bit.code) ∧
    (∀ j p, val j = some p → p = wirePacked casts (e.slots j)) ∧
    Wire val (passing (fun j => (e.slots j).field) pseq 0 stop) wd ∧
    frame = hdr.bytes ++ counted val (passing (fun j => (e.slots j).field) pseq 0 stop) ::
      (wd ++ packBits (e.bitValues stop)) ∧
    i ∈ passing (fun j => (e.slots j).field) pseq 0 stop ∧
    val i = some (wirePacked casts (e.slots i))

theorem TelemetryEncoder.Transmits.congr {casts : Casts} {pseq : Byte} {e e' : TelemetryEncoder}
    {frame : List Byte} {i : Nat} (h : e'.Transmits casts pseq frame i)
    (hv : ∀ j, (e.slots j).SameValue (e'.slots j)) (hc : e'.slotsCnt = e.slotsCnt)
    (hh : e'.hash = e.hash) : e.Transmits casts pseq frame i := by
  have hfield : (fun j => (e'.slots j).field) = fun j => (e.slots j).field :=
    funext fun j => (hv j).field
  have hwire : ∀ j, wirePacked casts (e'.slots j) = wirePacked casts (e.slots j) := fun j => by
    rw [wirePacked,wirePacked,(hv j).field,(hv j).value,(hv j).type]
  have hbits : ∀ stop, e'.bitValues stop = e.bitValues stop := fun stop => by
    unfold bitValues
    rw [hc]
    exact List.map_congr_left fun j _ => by rw [(hv j).value]
  unfold Transmits at h ⊢
  simpa only [hfield,hwire,hbits,hc,hh,fun j => (hv j).field] using h

def follower (e : TelemetryEncoder) : TelemetryDecoder :=
  {TelemetryDecoder.init e.hash with
    fields := fun j => e.table.getD j 0#8
    slotsCnt := e.slotsCnt
    hashValid := 4}

theorem follower_follows (e : TelemetryEncoder) : Follows (follower e) e := by
  have ht : (follower e).table (e.slotsCnt*3) = e.table := by
    have hlen := e.table_length
    refine List.ext_getElem ?_ fun i h1 h2 => ?_
    · rw [TelemetryDecoder.table_length]
      omega
    · rw [← List.getD_eq_getElem _ 0#8 h2]
      simp only [TelemetryDecoder.table,List.getElem_map,List.getElem_range]
      rfl
  exact ⟨rfl,fun i => TelemetryDecoder.fieldAt_eq ht,rfl,rfl⟩

section
variable {casts : Casts} {garbage : Nat → BitVec 32} {pseq : Byte} {e : TelemetryEncoder}
  {d : TelemetryDecoder} {stop : Nat}

theorem valueOf_some {i : Nat} {p : Packed}
    (h : TelemetryEncoder.valueOf casts garbage pseq e.marked i = some p) :
    p = wirePacked casts (e.slots i) := by
  rw [TelemetryEncoder.valueOf_marked] at h
  split_ifs at h
  exact (Option.some.inj h).symm

theorem TelemetryEncoder.encode_transmits (casts : Casts) (garbage : Nat → BitVec 32) (pseq : Byte)
    {e : TelemetryEncoder} {w : Writer} (hc : e.slotsCnt ≤ slotsSize)
    (he : e.enforcedUpd < slotsSize) (hw : w.pos+(3+1+5*e.slotsCnt) ≤ w.size) (ts : BitVec 64) :
    ∃ s stop frame, e.encode casts garbage w pseq ts = some s ∧ s.stream.out = w.out ++ frame ∧
      stop ≤ e.slotsCnt ∧ (∀ i < stop, (e.slots i).field.fmt ≠ Fmt.bit.code) ∧
      (stop < e.slotsCnt → (e.slots stop).field.fmt = Fmt.bit.code) ∧
      ∀ i < stop, Sends casts (garbage i) pseq (e.marked i) →
        (i,rawOf casts (garbage i) (e.slots i)) ∈ s.sent ∧ e.Transmits casts pseq frame i := by
  obtain ⟨s,stop,wd,hdr,henc,hstop,hno,hbit,-,hhash,hwire,hout,hsent⟩ :=
    encode_frame casts garbage pseq hc he hw ts
  rw [marked_fields] at hwire hout
  rw [List.append_assoc] at hout
  refine ⟨s,stop,_,henc,hout,hstop,hno,hbit,fun i hi hs => ⟨?_,hdr,_,stop,wd,hhash,hstop,hno,hbit,
    fun j p => valueOf_some,hwire,rfl,?_,?_⟩⟩
  · rw [hsent,← rawOf_marked]
    exact mem_sent.mpr ⟨hi,hs,rfl⟩
  · have hp := hs.1.1
    rw [marked_field] at hp
    exact mem_passing.mpr ⟨Nat.zero_le i,hi,hp⟩
  · rw [valueOf_marked,if_pos hs]

theorem wirePacked_nibble {x : EncSlot} {v : Byte} (h : wirePacked casts x = .nibble v) :
    x.field.fmt = Fmt.u4.code := by
  by_contra hu
  unfold wirePacked at h
  rw [if_neg hu] at h
  cases h

theorem wirePacked_bytes {x : EncSlot} {b : List Byte} (h : wirePacked casts x = .bytes b) :
    x.field.fmt ≠ Fmt.u4.code := by
  intro hu
  unfold wirePacked at h
  rw [if_pos hu] at h
  cases h

/-- The values of the last code in the frame of an encoder without bitfields. -/
def TelemetryEncoder.lastValues (casts : Casts) (garbage : Nat → BitVec 32) (pseq : Byte)
    (e : TelemetryEncoder) : List Packed :=
  lastCode (valueOf casts garbage pseq e.marked) e.slotsCnt
    (passing (fun i => (e.marked i).field) pseq 0 e.slotsCnt)

/-- The table and the hash of a decoder are left as they are. -/
structure TelemetryDecoder.SameTable (d d' : TelemetryDecoder) : Prop where
  slotsCnt : d'.slotsCnt = d.slotsCnt
  fields : d'.fields = d.fields
  hash : d'.hash = d.hash
  hashValid : d'.hashValid = d.hashValid

/-- No bitfields come behind the values, and the last value has no byte of its own. -/
def TelemetryEncoder.CutShort (casts : Casts) (garbage : Nat → BitVec 32) (pseq : Byte)
    (e : TelemetryEncoder) : Prop :=
  (∀ i < e.slotsCnt, (e.slots i).field.fmt ≠ Fmt.bit.code) ∧
    Halved (e.lastValues casts garbage pseq)

theorem packBits_bitValues (hstop : stop ≤ e.slotsCnt) :
    packBits (e.bitValues stop) = [] ↔ stop = e.slotsCnt := by
  have hlen := e.bitValues_length hstop
  rw [← List.length_eq_zero_iff,packBits_length]
  omega

theorem Follows.frame (hd : Follows d e) (he : Readable e) (hstop : stop ≤ e.slotsCnt)
    (hno : ∀ i < stop, (e.slots i).field.fmt ≠ Fmt.bit.code)
    (hbit : stop < e.slotsCnt → (e.slots stop).field.fmt = Fmt.bit.code) :
    TelemetryDecoder.Frame d (TelemetryEncoder.valueOf casts garbage pseq e.marked) stop
      (packBits (e.bitValues stop)) (e.CutShort casts garbage pseq) where
  le := hd.slotsCnt ▸ hstop
  noBit := fun i hi => by
    rw [hd.field i (by omega)]
    exact hno i hi
  carries := fun i hi p hp => by
    rw [hd.field i (by omega),valueOf_some hp]
    exact wirePacked_carries (he.sized i (by omega) (hno i hi))
  ordered := fun i j hij hj v hv b hb => by
    have hui := wirePacked_nibble (valueOf_some hv).symm
    have huj := wirePacked_bytes (valueOf_some hb).symm
    have hrank := Field.rank_zero.mpr ⟨hno j hj,huj⟩
    have hmono := he.sorted.rank_mono hij.le (by omega : j < e.slotsCnt)
    have hi0 := Field.rank_zero.not.mpr fun hc => hc.2 hui
    omega
  tail := fun hcut => by
    rw [packBits_bitValues hstop]
    by_contra hne
    have hlt := Nat.lt_of_le_of_ne hstop hne
    exact hcut.1 stop hlt (hbit hlt)

theorem Follows.cuts (hno : ∀ i < stop, (e.slots i).field.fmt ≠ Fmt.bit.code)
    (hstop : stop ≤ e.slotsCnt) :
    TelemetryDecoder.Cuts (TelemetryEncoder.valueOf casts garbage pseq e.marked)
      (packBits (e.bitValues stop)) (e.CutShort casts garbage pseq)
      (passing (fun i => (e.marked i).field) pseq 0 stop) := by
  refine ⟨e.slotsCnt,?_,fun htail => ?_⟩
  · exact passing_length_le.trans hstop
  · obtain rfl := (packBits_bitValues hstop).mp htail
    exact ⟨fun h => h.2,fun h => ⟨hno,h⟩⟩

theorem feedHash_same {seq : BitVec 2} {feed : Byte} (hh : d.hash.get seq.toFin = feed)
    (hv : d.hashValid = 4) : d.feedHash seq feed = d := by
  have hc : d.collectHash seq feed = d := by
    unfold TelemetryDecoder.collectHash
    dsimp only
    rw [if_neg (not_not.mpr hh),if_neg (not_not.mpr (show d.isHashValid from hv))]
  unfold TelemetryDecoder.feedHash
  dsimp only
  rw [hc,if_neg (by omega)]

variable {dict : Dictionary} {pid : Pid} {r : Reader}

theorem decode_matching (hx : pid.uid.setWidth 16 ≠ dict.xpdr) {hdr : Hdr} {l : List Byte}
    (hr : r.rest = hdr.bytes ++ l) (hh : d.hash.get pid.seq.toFin = hdr.feedHash)
    (hv : d.hashValid = 4) (hs : d.slotsCnt ≠ 0) :
    ∃ r1, r1.rest = l ∧ d.decode dict pid r =
      {d.clock hdr.ts with valid := true}.decodeValues r1 (pid.seq.setWidth 8) := by
  obtain ⟨h1,h2⟩ := Hdr.read_bytes hr
  have hlen : Hdr.psize ≤ r.available := by
    rw [← r.rest_length,hr,List.length_append]
    exact Nat.le_add_right 3 _
  obtain ⟨d1,hd1,hdec⟩ := TelemetryDecoder.decode_data dict d hlen hx
  rw [h1,feedHash_same hh hv] at hd1
  have hval : d1.hashValid = 4 ∧ d1.slotsCnt ≠ 0 := by
    rw [hd1,TelemetryDecoder.clock_hashValid,TelemetryDecoder.clock_slotsCnt]
    exact ⟨hv,hs⟩
  rcases hdec with ⟨-,hdec⟩ | ⟨hno,-⟩
  · exact ⟨(Hdr.read r).2,h2,hd1 ▸ hdec⟩
  · exact absurd hval hno

theorem mem_sentOf {i : Nat} :
    i ∈ TelemetryDecoder.sentOf (TelemetryEncoder.valueOf casts garbage pseq e.marked)
        (passing (fun i => (e.marked i).field) pseq 0 stop) ↔
      i < stop ∧ TelemetryEncoder.Sends casts (garbage i) pseq (e.marked i) := by
  rw [TelemetryDecoder.sentOf,List.mem_filter,mem_passing]
  constructor
  · rintro ⟨⟨-,hi,-⟩,hs⟩
    rw [TelemetryEncoder.valueOf_marked] at hs
    refine ⟨hi,?_⟩
    by_contra hns
    rw [if_neg hns] at hs
    cases hs
  · rintro ⟨hi,hs⟩
    rw [TelemetryEncoder.valueOf_marked,if_pos hs]
    exact ⟨⟨Nat.zero_le i,hi,hs.1.1⟩,rfl⟩

theorem outcome_value (hd : Follows d e) (hstop : stop ≤ e.slotsCnt) {i : Nat} (hi : i < stop)
    (hs : TelemetryEncoder.Sends casts (garbage i) pseq (e.marked i)) (bits : List Bool) :
    d.outcome (TelemetryEncoder.valueOf casts garbage pseq e.marked) stop bits i =
      received (e.slots i).field (d.value i) (wirePacked casts (e.slots i)) := by
  rw [TelemetryDecoder.outcome,if_pos hi,TelemetryDecoder.result,
    TelemetryEncoder.valueOf_marked,if_pos hs,hd.field i (by omega)]

theorem outcome_bit {val : Nat → Option Packed} {i : Nat} (hge : stop ≤ i) (hi : i < e.slotsCnt) :
    d.outcome val stop (e.bitValues stop) i =
      (if (e.slots i).value ≠ 0#32 then 1#32 else 0#32,.byte) := by
  have hlt : i-stop < e.slotsCnt-stop := by omega
  have hbit : (e.bitValues stop).getD (i-stop) false = decide ((e.slots i).value ≠ 0#32) := by
    rw [TelemetryEncoder.bitValues,List.getD_eq_getElem?_getD,List.getElem?_map,
      List.getElem?_range' hlt,Nat.one_mul,Nat.add_sub_cancel' hge]
    rfl
  rw [TelemetryDecoder.outcome,if_neg (Nat.not_lt.mpr hge),hbit]
  simp only [decide_eq_true_eq]

/-- The slots that the decoder sets are those of the frame. -/
theorem fill_delivered (casts : Casts) (garbage : Nat → BitVec 32) (pseq : Byte)
    (hd : Follows d e) (he : Readable e) (hstop : stop ≤ e.slotsCnt)
    (hno : ∀ i < stop, (e.slots i).field.fmt ≠ Fmt.bit.code)
    (hbits : ∀ i, stop ≤ i → i < e.slotsCnt → (e.slots i).field.fmt = Fmt.bit.code) :
    Delivered casts e ((List.range' 0 stop).flatMap fun i =>
        TelemetryEncoder.sentNow casts (garbage i) pseq i (e.marked i)) d
      (d.fill (d.outcome (TelemetryEncoder.valueOf casts garbage pseq e.marked) stop
          (e.bitValues stop))
        (TelemetryDecoder.sentOf (TelemetryEncoder.valueOf casts garbage pseq e.marked)
            (passing (fun i => (e.marked i).field) pseq 0 stop) ++
          List.range' stop (e.bitValues stop).length)) := by
  have hlen := e.bitValues_length hstop
  refine ⟨fun i raw hm => ?_,fun i hi hb => ?_,fun i hm hb => ?_⟩
  · obtain ⟨hi,hs,-⟩ := TelemetryEncoder.mem_sent.mp hm
    have hic : i < e.slotsCnt := by omega
    obtain ⟨hv,hf⟩ := d.fill_of_mem (d.outcome _ stop (e.bitValues stop))
      (List.mem_append_left (List.range' stop (e.bitValues stop).length)
        (mem_sentOf.mpr ⟨hi,hs⟩))
    rw [outcome_value hd hstop hi hs] at hv hf
    refine ⟨hic,hno i hi,?_,?_⟩
    · rw [hf]
    · rw [hv,hf]
      exact received_landed (he.sized i hic (hno i hi)) (d.value i)
  · have hge : stop ≤ i := Nat.le_of_not_lt fun hlt => hno i hlt hb
    have hin : i ∈ List.range' stop (e.bitValues stop).length :=
      List.mem_range'_1.mpr ⟨hge,by omega⟩
    obtain ⟨hv,hf⟩ := d.fill_of_mem (d.outcome _ stop (e.bitValues stop))
      (List.mem_append_right (TelemetryDecoder.sentOf
        (TelemetryEncoder.valueOf casts garbage pseq e.marked)
        (passing (fun i => (e.marked i).field) pseq 0 stop)) hin)
    rw [outcome_bit hge hi] at hv hf
    exact ⟨hv,hf⟩
  · refine d.fill_of_notMem _ fun hin => ?_
    rcases List.mem_append.mp hin with hin | hin
    · obtain ⟨hi,hs⟩ := mem_sentOf.mp hin
      exact hm _ (TelemetryEncoder.mem_sent.mpr ⟨hi,hs,rfl⟩)
    · have hr := List.mem_range'_1.mp hin
      exact hb ⟨by omega,hbits i hr.1 (by omega)⟩

theorem sent_nil_iff :
    TelemetryDecoder.sentOf (TelemetryEncoder.valueOf casts garbage pseq e.marked)
        (passing (fun i => (e.marked i).field) pseq 0 stop) = [] ↔
      ((List.range' 0 stop).flatMap fun i =>
        TelemetryEncoder.sentNow casts (garbage i) pseq i (e.marked i)) = [] := by
  rw [List.eq_nil_iff_forall_not_mem,List.eq_nil_iff_forall_not_mem]
  constructor
  · rintro h ⟨i,raw⟩ hm
    obtain ⟨hi,hs,-⟩ := TelemetryEncoder.mem_sent.mp hm
    exact h i (mem_sentOf.mpr ⟨hi,hs⟩)
  · intro h i hm
    obtain ⟨hi,hs⟩ := mem_sentOf.mp hm
    exact h _ (TelemetryEncoder.mem_sent.mpr ⟨hi,hs,rfl⟩)

theorem Encodes.not_cutShort (he : Encodes e) : ¬ e.CutShort casts garbage pseq := by
  rintro ⟨hno,hpos,-⟩
  have hu : ∀ i < e.slotsCnt, (e.slots i).field.fmt ≠ Fmt.u4.code :=
    he.bits.resolve_left fun ⟨i,hi,hb⟩ => hno i hi hb
  refine absurd hpos (Nat.not_lt_of_le (nibbles_of_bytes fun v hv => ?_).le)
  obtain ⟨i,hi,hval⟩ := mem_lastCode hv
  obtain ⟨-,hlt,-⟩ := mem_passing.mp hi
  exact hu i hlt (wirePacked_nibble (valueOf_some hval).symm)

theorem Readable.bits_behind (he : Readable e)
    (hno : ∀ i < stop, (e.slots i).field.fmt ≠ Fmt.bit.code)
    (hbit : stop < e.slotsCnt → (e.slots stop).field.fmt = Fmt.bit.code) {i : Nat}
    (hge : stop ≤ i) (hi : i < e.slotsCnt) : (e.slots i).field.fmt = Fmt.bit.code := by
  by_contra hne
  have hlt := (he.sorted.lt_stop_iff hno hbit hi).mpr hne
  omega

theorem Follows.decodeValues (hd : Follows d e) (he : Readable e) (hstop : stop ≤ e.slotsCnt)
    (hno : ∀ i < stop, (e.slots i).field.fmt ≠ Fmt.bit.code)
    (hbit : stop < e.slotsCnt → (e.slots stop).field.fmt = Fmt.bit.code) {seq : Byte}
    {l : List Nat} (hl : passing (fun i => (e.marked i).field) pseq 0 stop = l)
    (hpass : passing d.fieldAt seq 0 stop = l) {wd : List Byte}
    (hwire : Wire (TelemetryEncoder.valueOf casts garbage pseq e.marked) l wd)
    (hr : r.rest =
      TelemetryEncoder.counted (TelemetryEncoder.valueOf casts garbage pseq e.marked) l ::
        (wd ++ packBits (e.bitValues stop))) :
    (e.CutShort casts garbage pseq →
      ∃ (d' : TelemetryDecoder) (r' : Reader),
        d.decodeValues r seq = some (d'.reset true,r',false)) ∧
    (¬ e.CutShort casts garbage pseq → ∃ r' ok, d.decodeValues r seq =
      some (d.fill (d.outcome (TelemetryEncoder.valueOf casts garbage pseq e.marked) stop
          (e.bitValues stop))
        (TelemetryDecoder.sentOf (TelemetryEncoder.valueOf casts garbage pseq e.marked) l ++
          List.range' stop (e.bitValues stop).length),r',ok) ∧
      r'.available = 0 ∧ (e.bitValues stop = [] → (ok = true ↔
        TelemetryDecoder.sentOf (TelemetryEncoder.valueOf casts garbage pseq e.marked) l ≠
          []))) := by
  have hcuts := hl ▸ @Follows.cuts casts garbage pseq e stop hno hstop
  have hcnt : (l.filterMap (TelemetryEncoder.valueOf casts garbage pseq e.marked)).length <
    256 := by
    have h1 := List.length_filterMap_le (TelemetryEncoder.valueOf casts garbage pseq e.marked) l
    have h2 : l.length ≤ stop := hl ▸ passing_length_le
    have hc : e.slotsCnt ≤ 240 := he.sorted.cnt_le
    omega
  have hbits : ∀ i, stop ≤ i → i < d.slotsCnt → (d.fieldAt i).fmt = Fmt.bit.code := by
    intro i h1 h2
    rw [hd.slotsCnt] at h2
    rw [hd.field i h2]
    exact he.bits_behind hno hbit h1 h2
  rw [← hpass] at hwire hcuts hcnt hr ⊢
  exact (hd.frame he hstop hno hbit).decodeValues
    ((e.bitValues_length hstop).trans hd.slotsCnt.symm) hbits hwire hcuts hcnt hr

/-- What a decoder with the table and hash of the encoder makes of a frame. -/
theorem frame_decoded (he : Readable e) (hd : Follows d e) {w : Writer}
    (hw : w.pos+(3+1+5*e.slotsCnt) ≤ w.size) (ts : BitVec 64)
    (hseq : pid.seq = pseq.setWidth 2) :
    ∃ s frame, e.encode casts garbage w pseq ts = some s ∧ s.stream.out = w.out ++ frame ∧
      ∀ r : Reader, r.rest = frame →
        ∃ d' r' ok, d.decode dict pid r = some (d',r',ok) ∧
          if pid.uid.setWidth 16 = dict.xpdr then d.SameTable d' ∧ d'.value = d.value ∧
            d'.flags = d.flags
          else (e.CutShort casts garbage pseq → d'.slotsCnt = 0 ∧ ok = false) ∧
            (¬ e.CutShort casts garbage pseq → d.SameTable d' ∧ r'.available = 0 ∧
              d'.valid = true ∧ Delivered casts e s.sent d d' ∧
              ((∀ i < e.slotsCnt, (e.slots i).field.fmt ≠ Fmt.bit.code) →
                (ok = true ↔ s.sent ≠ []))) := by
  obtain ⟨s,stop,wd,hdr,henc,hstop,hno,hbit,-,hfeed,hwire,hout,hsent⟩ :=
    TelemetryEncoder.encode_frame casts garbage pseq he.sorted.cnt_le he.enforced hw ts
  refine ⟨s,_,henc,hout.trans (List.append_assoc _ _ _),fun r hr => ?_⟩
  by_cases hx : pid.uid.setWidth 16 = dict.xpdr
  · obtain ⟨d',r',ok,hdec,h1,h2,h3,h4,h5,h6⟩ := @TelemetryDecoder.decode_kept dict d pid r
      (Or.inr hx)
    refine ⟨d',r',ok,hdec,?_⟩
    rw [if_pos hx]
    exact ⟨⟨h3,h4,h5,h6⟩,h1,h2⟩
  · have hslots : d.slotsCnt ≠ 0 := by
      rw [hd.slotsCnt]
      exact he.pos.ne'
    obtain ⟨r1,hr1,hdec⟩ := decode_matching hx hr (by rw [hd.hash,hseq,hfeed]; rfl) hd.hashValid
      hslots
    obtain ⟨d1,hd1⟩ : ∃ d1, d1 = {d.clock hdr.ts with valid := true} := ⟨_,rfl⟩
    have hf1 : Follows d1 e := by
      rw [hd1]
      exact ⟨hd.slotsCnt,hd.field,hd.hash,hd.hashValid⟩
    have hpass : passing d1.fieldAt (pid.seq.setWidth 8) 0 stop =
        passing (fun i => (e.marked i).field) pseq 0 stop := by
      refine passing_congr fun i hi => ?_
      rw [hf1.field i (by omega),hseq,passes_low,TelemetryEncoder.marked_field]
    obtain ⟨hshort,hwhole⟩ := hf1.decodeValues he hstop hno hbit rfl hpass hwire hr1
    rw [← hd1] at hdec
    by_cases hcut : e.CutShort casts garbage pseq
    · obtain ⟨d2,r2,hval⟩ := hshort hcut
      refine ⟨_,_,_,hdec.trans hval,?_⟩
      rw [if_neg hx]
      exact ⟨fun _ => ⟨rfl,rfl⟩,fun h => absurd hcut h⟩
    · obtain ⟨r',ok,hval,hend,hok⟩ := hwhole hcut
      rw [hval] at hdec
      have hdel := fill_delivered casts garbage pseq hf1 he hstop hno
        fun i => he.bits_behind hno hbit
      rw [← hsent] at hdel
      refine ⟨_,r',ok,hdec,?_⟩
      rw [if_neg hx]
      refine ⟨fun h => absurd h hcut,fun _ => ?_⟩
      subst hd1
      refine ⟨⟨rfl,rfl,rfl,rfl⟩,hend,rfl,⟨hdel.value,hdel.bit,hdel.rest⟩,fun hnone => ?_⟩
      have hall : stop = e.slotsCnt := by
        by_contra hne
        have hlt := Nat.lt_of_le_of_ne hstop hne
        exact hnone stop hlt (hbit hlt)
      have hnil : e.bitValues stop = [] :=
        List.length_eq_zero_iff.mp (by have := e.bitValues_length hstop; omega)
      rw [hok hnil,hsent,not_iff_not,sent_nil_iff]

/-- Every frame of an encoder is accepted by a decoder that has its table and hash, and sets the
values it transmits and the bitfields, unless it comes as one of the transponder stream. -/
theorem frame_delivered (he : Encodes e) (hd : Follows d e) {w : Writer}
    (hw : w.pos+(3+1+5*e.slotsCnt) ≤ w.size) (ts : BitVec 64)
    (hseq : pid.seq = pseq.setWidth 2) :
    ∃ s frame, e.encode casts garbage w pseq ts = some s ∧ s.stream.out = w.out ++ frame ∧
      ∀ r : Reader, r.rest = frame →
        ∃ d' r' ok, d.decode dict pid r = some (d',r',ok) ∧ d'.slotsCnt = d.slotsCnt ∧
          d'.fields = d.fields ∧ d'.hash = d.hash ∧ d'.hashValid = d.hashValid ∧
          if pid.uid.setWidth 16 = dict.xpdr then d'.value = d.value ∧ d'.flags = d.flags
          else r'.available = 0 ∧ d'.valid = true ∧ Delivered casts e s.sent d d' ∧
            ((∀ i, (d.flags i).upd = false) → ∀ i, (d'.flags i).upd = true ↔
              (∃ raw, (i,raw) ∈ s.sent) ∨
                i < e.slotsCnt ∧ (e.slots i).field.fmt = Fmt.bit.code) := by
  obtain ⟨s,frame,henc,hout,hdec⟩ := @frame_decoded casts garbage pseq e d dict pid he.toReadable
    hd w hw ts hseq
  refine ⟨s,frame,henc,hout,fun r hr => ?_⟩
  obtain ⟨d',r',ok,hdec,hthen⟩ := hdec r hr
  by_cases hx : pid.uid.setWidth 16 = dict.xpdr
  · rw [if_pos hx] at hthen
    obtain ⟨⟨h1,h2,h3,h4⟩,h5⟩ := hthen
    refine ⟨d',r',ok,hdec,h1,h2,h3,h4,?_⟩
    rw [if_pos hx]
    exact h5
  · rw [if_neg hx] at hthen
    obtain ⟨⟨h1,h2,h3,h4⟩,hend,hvalid,hdel,-⟩ := hthen.2 he.not_cutShort
    refine ⟨d',r',ok,hdec,h1,h2,h3,h4,?_⟩
    rw [if_neg hx]
    exact ⟨hend,hvalid,hdel,hdel.marked⟩

end

section
open TelemetryEncoder

/-- Fields of all kinds, of which two values and a bitfield are set. -/
def mixed : List Op :=
  [.add ⟨⟨9#11,0#3,0#2⟩,Fmt.u8.code⟩,.add ⟨⟨10#11,0#3,0#2⟩,Fmt.u16.code⟩,
    .add ⟨⟨11#11,0#3,0#2⟩,Fmt.u4.code⟩,.add ⟨⟨12#11,0#3,0#2⟩,Fmt.bit.code⟩,
    .add ⟨⟨13#11,0#3,0#2⟩,Fmt.bit.code⟩,.update ⟨9#11,0#3,0#2⟩ 17#32 .byte false,
    .update ⟨11#11,0#3,0#2⟩ 5#32 .byte false,.update ⟨13#11,0#3,0#2⟩ 1#32 .byte false]

theorem mixed_run : ∃ e s,
    run byteDict noCasts init mixed = some e ∧ Encodes e ∧ e.slotsCnt = 5 ∧
    [e.slots 0,e.slots 1,e.slots 2,e.slots 3,e.slots 4] =
      [⟨⟨⟨9#11,0#3,0#2⟩,Fmt.u8.code⟩,⟨.byte,true,false,0#4⟩,17#32,0#32⟩,
        ⟨⟨⟨10#11,0#3,0#2⟩,Fmt.u16.code⟩,⟨.byte,false,false,0#4⟩,0#32,0#32⟩,
        ⟨⟨⟨11#11,0#3,0#2⟩,Fmt.u4.code⟩,⟨.byte,true,false,0#4⟩,5#32,0#32⟩,
        ⟨⟨⟨12#11,0#3,0#2⟩,Fmt.bit.code⟩,⟨.byte,false,false,0#4⟩,0#32,0#32⟩,
        ⟨⟨⟨13#11,0#3,0#2⟩,Fmt.bit.code⟩,⟨.byte,true,false,0#4⟩,1#32,0#32⟩] ∧
    e.encode noCasts (fun _ => 0#32) ⟨List.replicate 29 0#8,0⟩ 5#8 0#64 = some s ∧
    s.sent = [(0,17#32),(2,5#32)] := by
  have hmap : (run byteDict noCasts init mixed).bind (fun e =>
      (e.encode noCasts (fun _ => 0#32) ⟨List.replicate 29 0#8,0⟩ 5#8 0#64).map fun s =>
        (e.slotsCnt,[e.slots 0,e.slots 1,e.slots 2,e.slots 3,e.slots 4],s.sent)) =
      some (5,[⟨⟨⟨9#11,0#3,0#2⟩,Fmt.u8.code⟩,⟨.byte,true,false,0#4⟩,17#32,0#32⟩,
        ⟨⟨⟨10#11,0#3,0#2⟩,Fmt.u16.code⟩,⟨.byte,false,false,0#4⟩,0#32,0#32⟩,
        ⟨⟨⟨11#11,0#3,0#2⟩,Fmt.u4.code⟩,⟨.byte,true,false,0#4⟩,5#32,0#32⟩,
        ⟨⟨⟨12#11,0#3,0#2⟩,Fmt.bit.code⟩,⟨.byte,false,false,0#4⟩,0#32,0#32⟩,
        ⟨⟨⟨13#11,0#3,0#2⟩,Fmt.bit.code⟩,⟨.byte,true,false,0#4⟩,1#32,0#32⟩],
        [(0,17#32),(2,5#32)]) := by
    decide +kernel
  obtain ⟨e,he,hmap⟩ := Option.bind_eq_some_iff.mp hmap
  obtain ⟨s,hs,hv⟩ := Option.map_eq_some_iff.mp hmap
  rw [Prod.mk.injEq,Prod.mk.injEq] at hv
  obtain ⟨hcnt,hslots,hsent⟩ := hv
  have hslots' := hslots
  simp only [List.cons.injEq] at hslots'
  obtain ⟨h0,h1,h2,h3,h4,-⟩ := hslots'
  refine ⟨e,s,he,run_encodes he (by omega) (fun i hi hb => ?_) (Or.inl ⟨3,by omega,?_⟩),hcnt,hslots,
    hs,hsent⟩
  · rw [hcnt] at hi
    interval_cases i
    · rw [h0]
      decide
    · rw [h1]
      decide
    · rw [h2]
      decide
    · exact absurd (by rw [h3]) hb
    · exact absurd (by rw [h4]) hb
  · rw [h3]

/-- The value that is not set stays as it was. -/
theorem frame_delivered_mixed : ∃ e s d' r' ok,
    run byteDict noCasts init mixed = some e ∧
    e.encode noCasts (fun _ => 0#32) ⟨List.replicate 29 0#8,0⟩ 5#8 0#64 = some s ∧
    (follower e).decode byteDict ⟨9#11,0#3,1#2⟩ ⟨s.stream.out,0⟩ = some (d',r',ok) ∧
    d'.valid = true ∧ (∀ i < 5, (d'.flags i).upd = true ↔ i ≠ 1) ∧
    d'.value 0 = 17#32 ∧ d'.value 1 = 0#32 ∧ d'.value 2 = 5#32 ∧ d'.value 3 = 0#32 ∧
    d'.value 4 = 1#32 := by
  obtain ⟨e,s,hrun,he,hcnt,hslots,henc,hsent⟩ := mixed_run
  simp only [List.cons.injEq] at hslots
  obtain ⟨h0,h1,h2,h3,h4,-⟩ := hslots
  have hroom : (⟨List.replicate 29 0#8,0⟩ : Writer).pos+(3+1+5*e.slotsCnt) ≤
      (⟨List.replicate 29 0#8,0⟩ : Writer).size := by
    rw [hcnt]
    decide
  obtain ⟨s1,frame,henc1,hout,hdel⟩ := @frame_delivered noCasts (fun _ => 0#32) 5#8 e (follower e)
    byteDict ⟨9#11,0#3,1#2⟩ he (follower_follows e) _ hroom 0#64 rfl
  obtain rfl := Option.some.inj (henc.symm.trans henc1)
  obtain ⟨d',r',ok,hdec,-,-,-,-,hthen⟩ := hdel ⟨s.stream.out,0⟩ hout
  rw [if_neg (by decide)] at hthen
  obtain ⟨-,hvalid,hd,-⟩ := hthen
  obtain ⟨-,-,hupd0,hland0⟩ := hd.value 0 17#32 (by rw [hsent]; decide)
  obtain ⟨-,-,hupd2,hland2⟩ := hd.value 2 5#32 (by rw [hsent]; decide)
  obtain ⟨hval3,hflags3⟩ := hd.bit 3 (by omega) (by rw [h3])
  obtain ⟨hval4,hflags4⟩ := hd.bit 4 (by omega) (by rw [h4])
  obtain ⟨hval1,hflags1⟩ := hd.rest 1 (by simp [hsent]) fun hb => by
    rw [h1] at hb
    exact absurd hb.2 (by decide)
  rw [Landed,h0,if_neg (by decide)] at hland0
  rw [Landed,h2,if_pos rfl] at hland2
  rw [h3] at hval3
  rw [h4] at hval4
  have hone : unpackValue (packValue noCasts 17#32 .byte Fmt.u8.code) 0#32 .real Fmt.u8.code 1 =
      some (1,17#32,.byte) := by decide +kernel
  have hsame := Option.some.inj (hone.symm.trans hland0)
  refine ⟨e,s,d',r',ok,hrun,henc,hdec,hvalid,fun i hi => ?_,
    (Prod.mk.inj (Prod.mk.inj hsame).2).1.symm,hval1,hland2.1.trans (by decide +kernel),hval3,hval4⟩
  interval_cases i
  · simp [hupd0]
  · rw [hflags1]
    exact ⟨fun h => absurd h Bool.false_ne_true,fun h => absurd rfl h⟩
  · simp [hupd2]
  · simp [hflags3]
  · simp [hflags4]

def oneByte : List Op :=
  [.add ⟨⟨9#11,0#3,0#2⟩,Fmt.u8.code⟩,.update ⟨9#11,0#3,0#2⟩ 17#32 .byte false]

theorem oneByte_run : ∃ e s,
    run byteDict noCasts init oneByte = some e ∧
    Encodes e ∧ e.slotsCnt = 1 ∧
    e.slots 0 = ⟨⟨⟨9#11,0#3,0#2⟩,Fmt.u8.code⟩,⟨.byte,true,false,0#4⟩,17#32,0#32⟩ ∧
    e.encode noCasts (fun _ => 0#32) ⟨List.replicate 9 0#8,0⟩ 5#8 0#64 = some s ∧
    s.sent = [(0,17#32)] := by
  have hmap : (run byteDict noCasts init oneByte).bind (fun e =>
      (e.encode noCasts (fun _ => 0#32) ⟨List.replicate 9 0#8,0⟩ 5#8 0#64).map fun s =>
        (e.slotsCnt,e.slots 0,s.sent)) =
      some (1,⟨⟨⟨9#11,0#3,0#2⟩,Fmt.u8.code⟩,⟨.byte,true,false,0#4⟩,17#32,0#32⟩,[(0,17#32)]) := by
    decide +kernel
  obtain ⟨e,he,hmap⟩ := Option.bind_eq_some_iff.mp hmap
  obtain ⟨s,hs,hv⟩ := Option.map_eq_some_iff.mp hmap
  simp only [Prod.mk.injEq] at hv
  obtain ⟨hcnt,hfield,hsent⟩ := hv
  have hslot : ∀ i < e.slotsCnt, (e.slots i).field.fmt = Fmt.u8.code := fun i hi => by
    rw [show i = 0 by omega,hfield]
  refine ⟨e,s,he,run_encodes he (by omega) (fun i hi _ => ?_) (Or.inr fun i hi => ?_),hcnt,
    hfield,hs,hsent⟩
  · rw [hslot i hi]
    decide
  · rw [hslot i hi]
    decide

/-- With the uid of the transponder stream the same frame is none of the values. -/
theorem xpdr_frame_kept : ∃ e s d' r' ok,
    run byteDict noCasts init oneByte = some e ∧ e.slotsCnt = 1 ∧ Encodes e ∧
    Follows (follower e) e ∧ (∀ i, ((follower e).flags i).upd = false) ∧
    (⟨8#11,0#3,1#2⟩ : Pid).seq = (5#8).setWidth 2 ∧
    e.encode noCasts (fun _ => 0#32) ⟨List.replicate 9 0#8,0⟩ 5#8 0#64 = some s ∧
    s.sent = [(0,17#32)] ∧
    (follower e).decode byteDict ⟨8#11,0#3,1#2⟩ ⟨s.stream.out,0⟩ = some (d',r',ok) ∧
    (d'.flags 0).upd = false := by
  obtain ⟨e,s,hrun,he,hcnt,hslot,henc,hsent⟩ := oneByte_run
  obtain ⟨d',r',ok,hdec,-,hflags,-⟩ := @TelemetryDecoder.decode_kept byteDict (follower e)
    ⟨8#11,0#3,1#2⟩ ⟨s.stream.out,0⟩ (Or.inr rfl)
  refine ⟨e,s,d',r',ok,hrun,hcnt,he,follower_follows e,fun _ => rfl,by decide,henc,hsent,hdec,?_⟩
  rw [hflags]
  rfl

end

end ApxBus.Telemetry
