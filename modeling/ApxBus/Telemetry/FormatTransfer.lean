import ApxBus.Telemetry.DecoderInvariant
import ApxBus.Telemetry.EncoderInvariant
import Mathlib.Data.List.GetD
set_option autoImplicit false

/-! The parts of the encoder's table, delivered in any order, give the decoder this table. -/

namespace ApxBus.Telemetry
open Mandala Real32

theorem flatMap_length {f : Nat → List Byte} {m : Nat} (hf : ∀ i, (f i).length = m) (n : Nat) :
    ((List.range n).flatMap f).length = m*n := by
  induction n with
  | zero => rfl
  | succ n ih =>
    rw [List.range_succ,List.flatMap_append,List.length_append,ih,List.flatMap_singleton,hf,
      Nat.mul_succ]

theorem flatMap_getD {f : Nat → List Byte} {m : Nat} (hf : ∀ i, (f i).length = m) {n i j : Nat}
    (hi : i < n) (hj : j < m) :
    ((List.range n).flatMap f).getD (m*i+j) 0#8 = (f i).getD j 0#8 := by
  induction n with
  | zero => omega
  | succ n ih =>
    have hlen := flatMap_length hf n
    rw [List.range_succ,List.flatMap_append,List.flatMap_singleton]
    rcases Nat.eq_or_lt_of_le (Nat.le_of_lt_succ hi) with rfl | hlt
    · rw [List.getD_append_right _ _ _ _ (by omega),hlen,Nat.add_sub_cancel_left]
    · have hin : m*i+j < ((List.range n).flatMap f).length := by
        have hmul := Nat.mul_le_mul_left m (Nat.succ_le_of_lt hlt)
        rw [Nat.mul_succ] at hmul
        omega
      rw [List.getD_append _ _ _ _ hin,ih hlt]

namespace TelemetryEncoder
variable {e : TelemetryEncoder}

theorem table_getD {i j : Nat} (hi : i < e.slotsCnt) (hj : j < 3) :
    e.table.getD (3*i+j) 0#8 = (e.slots i).field.bytes.getD j 0#8 :=
  flatMap_getD (fun _ => Field.bytes_length _) hi hj

/-- The number of parts of the table, for blocks of `size` bytes. -/
def partCnt (e : TelemetryEncoder) (size : Byte) : Nat :=
  (e.slotsCnt*3+size.toNat-1)/size.toNat

def partBytes (e : TelemetryEncoder) (size : Byte) (part : Nat) : List Byte :=
  (e.table.drop (part*size.toNat)).take size.toNat

def partHdr (e : TelemetryEncoder) (size part : Byte) : FormatRespHdr :=
  ⟨fmtVersion,part,BitVec.ofNat 8 (e.partCnt size),size,e.hash.hash⟩

variable {size part : Byte}

theorem toNat_pos (hs : size ≠ 0#8) : 0 < size.toNat := by
  rw [Nat.pos_iff_ne_zero]
  exact fun h => hs (BitVec.eq_of_toNat_eq h)

theorem lt_partCnt (hs : size ≠ 0#8) {k : Nat} :
    k < e.partCnt size ↔ k*size.toNat < e.slotsCnt*3 := by
  have hpos := toNat_pos hs
  rw [partCnt,← Nat.succ_le_iff,Nat.le_div_iff_mul_le hpos,Nat.succ_mul]
  omega

theorem partCnt_eq (hs : size ≠ 0#8) :
    (if e.slotsCnt*3%size.toNat ≠ 0 then BitVec.ofNat 8 (e.slotsCnt*3/size.toNat)+1#8
      else BitVec.ofNat 8 (e.slotsCnt*3/size.toNat)) = BitVec.ofNat 8 (e.partCnt size) := by
  have hpos := toNat_pos hs
  have hdm := Nat.div_add_mod (e.slotsCnt*3) size.toNat
  have hlt := Nat.mod_lt (e.slotsCnt*3) hpos
  rw [Nat.mul_comm] at hdm
  unfold partCnt
  by_cases hm : e.slotsCnt*3%size.toNat ≠ 0
  · have hq : (e.slotsCnt*3+size.toNat-1)/size.toNat = e.slotsCnt*3/size.toNat+1 := by
      refine Nat.div_eq_of_lt_le ?_ ?_
      · rw [Nat.succ_mul]
        omega
      · rw [Nat.succ_mul,Nat.succ_mul]
        omega
    rw [if_pos hm,hq,BitVec.ofNat_add]
  · have hq : (e.slotsCnt*3+size.toNat-1)/size.toNat = e.slotsCnt*3/size.toNat := by
      refine Nat.div_eq_of_lt_le ?_ ?_
      · omega
      · rw [Nat.succ_mul]
        omega
    rw [if_neg hm,hq]

theorem partBytes_length (e : TelemetryEncoder) (size : Byte) (k : Nat) :
    (e.partBytes size k).length = min size.toNat (e.slotsCnt*3-k*size.toNat) := by
  rw [partBytes,List.length_take,List.length_drop,table_length,Nat.mul_comm 3]

theorem partBytes_getD {k i : Nat} (h1 : k*size.toNat ≤ i) (h2 : i < (k+1)*size.toNat) :
    (e.partBytes size k).getD (i-k*size.toNat) 0#8 = e.table.getD i 0#8 := by
  rw [Nat.succ_mul] at h2
  rw [partBytes,List.getD_eq_getElem?_getD,List.getElem?_take_of_lt (by omega),
    List.getElem?_drop,Nat.add_sub_cancel' h1,← List.getD_eq_getElem?_getD]

theorem encodeFormat_spec (hs : size ≠ 0#8) (hle : e.partCnt size ≤ 255)
    (hp : part.toNat < e.partCnt size) {w : Writer}
    (hfit : w.pos+FormatRespHdr.psize+size.toNat ≤ w.size) :
    ∃ w', e.encodeFormat w part size = some w' ∧
      w'.out.drop w.pos = (e.partHdr size part).bytes ++ e.partBytes size part.toNat := by
  obtain ⟨ho,hpos,hsize⟩ := FormatRespHdr.write_spec (h := e.partHdr size part) (s := w) (by omega)
  have hlt : part < BitVec.ofNat 8 (e.partCnt size) := by
    rw [BitVec.lt_def,BitVec.toNat_ofNat]
    omega
  have hin := (lt_partCnt hs).mp hp
  unfold encodeFormat
  rw [if_neg hs]
  dsimp only
  rw [partCnt_eq hs,if_pos hlt]
  obtain ⟨sz,hsz⟩ : ∃ sz, sz = if e.slotsCnt*3-part.toNat*size.toNat > size.toNat
      then size.toNat else e.slotsCnt*3-part.toNat*size.toNat := ⟨_,rfl⟩
  have hszle : 0 < sz ∧ sz ≤ size.toNat ∧ (sz = size.toNat ∨
      sz = e.slotsCnt*3-part.toNat*size.toNat) := by
    have hpos := toNat_pos hs
    split_ifs at hsz <;> omega
  have hbytes : (e.table.drop (part.toNat*size.toNat)).take sz = e.partBytes size part.toNat := by
    unfold partBytes
    rcases hszle.2.2 with heq | heq
    · rw [heq]
    · have hlen : (e.table.drop (part.toNat*size.toNat)).length ≤ sz := by
        rw [List.length_drop,table_length]
        omega
      rw [List.take_of_length_le hlen,List.take_of_length_le (hlen.trans hszle.2.1)]
  rw [← hsz,if_pos hszle.1,hbytes]
  refine ⟨_,rfl,?_⟩
  rw [Writer.out_write]
  · change (((e.partHdr size part).write w).out ++ _).drop _ = _
    rw [ho,List.append_assoc,List.drop_left']
    rw [Writer.out,List.length_take]
    exact Nat.min_eq_left (by unfold Writer.size at hfit; omega)
  · change ((e.partHdr size part).write w).pos+_ ≤ ((e.partHdr size part).write w).size
    rw [hpos,hsize,partBytes_length]
    omega

end TelemetryEncoder

namespace TelemetryDecoder
variable {e : TelemetryEncoder} {size part : Byte} {d d' : TelemetryDecoder} {got : Nat → Prop}

/-- Part `k` of the encoder's table is in that of the decoder. -/
def Has (e : TelemetryEncoder) (size : Byte) (d : TelemetryDecoder) (k : Nat) : Prop :=
  ∀ i, k*size.toNat ≤ i → i < (k+1)*size.toNat → i < e.slotsCnt*3 →
    d.fields i = e.table.getD i 0#8

/-- The decoder has the hash of the encoder's table and the parts in `got`. -/
structure Received (e : TelemetryEncoder) (size : Byte) (got : Nat → Prop)
    (d : TelemetryDecoder) : Prop where
  hash : d.hash.hash = e.hash.hash
  hashValid : d.hashValid = 4
  part : ∀ k, got k → Has e size d k

theorem table_eq (hs : size ≠ 0#8) (h : ∀ k < e.partCnt size, Has e size d k) :
    d.table (e.slotsCnt*3) = e.table := by
  have hpos := TelemetryEncoder.toNat_pos hs
  refine List.ext_getElem ?_ fun i h1 h2 => ?_
  · rw [table,List.length_map,List.length_range,e.table_length,Nat.mul_comm]
  · rw [table,List.length_map,List.length_range] at h1
    have hdm := Nat.div_add_mod i size.toNat
    have hlt := Nat.mod_lt i hpos
    rw [Nat.mul_comm] at hdm
    have hk : i/size.toNat < e.partCnt size := (TelemetryEncoder.lt_partCnt hs).mpr (by omega)
    have hi := h _ hk i (by omega) (by rw [Nat.succ_mul]; omega) h1
    rw [List.getD_eq_getElem _ _ h2] at hi
    simpa [table] using hi

theorem fieldAt_eq (h : d.table (e.slotsCnt*3) = e.table) {i : Nat} (hi : i < e.slotsCnt) :
    d.fieldAt i = (e.slots i).field := by
  have hb : ∀ j < 3, d.fields (3*i+j) = (e.slots i).field.bytes.getD j 0#8 := by
    intro j hj
    rw [← TelemetryEncoder.table_getD hi hj,← h,table,List.getD_eq_getElem?_getD,
      List.getElem?_map,List.getElem?_range (by omega)]
    rfl
  rw [← Field.ofBytes_bytes (e.slots i).field,fieldAt,hb 1 (by decide),hb 2 (by decide),
    show d.fields (3*i) = _ from hb 0 (by decide)]
  rfl

theorem isFinal_iff (hle : e.partCnt size ≤ 255) (hp : part.toNat < e.partCnt size) :
    isFinal (e.partHdr size part) ↔ part.toNat+1 = e.partCnt size := by
  unfold isFinal TelemetryEncoder.partHdr
  have hcnt : (BitVec.ofNat 8 (e.partCnt size)).toNat = e.partCnt size := by
    rw [BitVec.toNat_ofNat]
    omega
  dsimp only
  rw [hcnt,or_iff_left]
  rintro ⟨-,h0⟩
  rw [h0] at hcnt
  have hz : (0#8).toNat = 0 := rfl
  omega

theorem firstPart_spec (d : TelemetryDecoder) (size : Byte)
    (h : part = 0#8 ∨ d.hash.hash = e.hash.hash ∧ d.hashValid = 4) :
    (d.firstPart (e.partHdr size part)).hash.hash = e.hash.hash ∧
    (d.firstPart (e.partHdr size part)).hashValid = 4 ∧
    (d.firstPart (e.partHdr size part)).fields = d.fields ∧
    (d.hash.hash = e.hash.hash →
      (d.firstPart (e.partHdr size part)).slotsCnt = d.slotsCnt) := by
  unfold firstPart TelemetryEncoder.partHdr
  dsimp only
  by_cases h0 : part = 0#8
  · rw [if_pos h0]
    by_cases hh : e.hash.hash ≠ d.hash.hash
    · rw [if_pos hh]
      exact ⟨Hash.hash_ofWord _,rfl,rfl,fun heq => absurd heq.symm hh⟩
    · rw [if_neg hh]
      exact ⟨Hash.hash_ofWord _,rfl,rfl,fun _ => rfl⟩
  · rw [if_neg h0]
    have h := h.resolve_left h0
    exact ⟨h.1,h.2,rfl,fun _ => rfl⟩

theorem recheck_spec (d : TelemetryDecoder) :
    d.recheck.fields = d.fields ∧ d.recheck.hash = d.hash ∧ d.recheck.hashValid = d.hashValid ∧
    (d.slotsCnt ≠ 0 → d.hashValid = 4 → tableHash (d.table (d.slotsCnt*3)) = d.hash.hash →
      d.recheck.slotsCnt = d.slotsCnt ∧ d.recheck.valid = true) := by
  unfold recheck
  by_cases h0 : d.slotsCnt = 0
  · rw [if_pos h0]
    exact ⟨rfl,rfl,rfl,fun h => absurd h0 h⟩
  rw [if_neg h0]
  unfold checkHash
  by_cases hbad : ¬ d.isHashValid ∨ d.getHash (d.slotsCnt*3) ≠ d.hash.hash
  · rw [if_pos hbad]
    refine ⟨rfl,rfl,rfl,fun _ hv hh => ?_⟩
    rcases hbad with hb | hb
    · exact absurd hv hb
    · exact absurd hh hb
  · rw [if_neg hbad]
    exact ⟨rfl,rfl,rfl,fun _ _ _ => ⟨Nat.mul_div_cancel _ (by decide),rfl⟩⟩

theorem finishPart_spec (he : e.hash = Hash.ofWord (tableHash e.table)) (hpos : 0 < e.slotsCnt)
    (hh : d.hash.hash = e.hash.hash) (hv : d.hashValid = 4) (hdr : FormatRespHdr) (sz : Nat)
    (hsz : isFinal hdr → sz = e.slotsCnt*3) :
    ∃ d', d.finishPart hdr sz = (d',true) ∧ d'.fields = d.fields ∧ d'.hash = d.hash ∧
      d'.hashValid = 4 ∧
      (d.table (e.slotsCnt*3) = e.table → isFinal hdr ∨ d.slotsCnt = e.slotsCnt →
        d'.slotsCnt = e.slotsCnt ∧ d'.valid = true) := by
  obtain ⟨hf,hr,hrv,hkeep⟩ := recheck_spec d
  have hhash : e.hash.hash = tableHash e.table := by rw [he,Hash.hash_ofWord]
  have hre : d.table (e.slotsCnt*3) = e.table → d.slotsCnt = e.slotsCnt →
      d.recheck.slotsCnt = e.slotsCnt ∧ d.recheck.valid = true := by
    intro ht hc
    rw [← hc]
    exact hkeep (by omega) hv (by rw [hc,ht,hh,hhash])
  unfold finishPart
  by_cases hfin : isFinal hdr
  · rw [if_pos hfin,hsz hfin,if_neg (by omega)]
    unfold checkHash
    by_cases hbad : ¬ d.isHashValid ∨ d.getHash (e.slotsCnt*3) ≠ d.hash.hash
    · rw [if_pos hbad]
      refine ⟨d.recheck,rfl,hf,hr,hrv.trans hv,fun ht _ => ?_⟩
      rcases hbad with hb | hb
      · exact absurd hv hb
      · exact absurd (show tableHash _ = _ by rw [ht,hh,hhash]) hb
    · rw [if_neg hbad]
      exact ⟨_,rfl,rfl,rfl,hv,fun _ _ => ⟨Nat.mul_div_cancel _ (by decide),rfl⟩⟩
  · rw [if_neg hfin]
    exact ⟨d.recheck,rfl,hf,hr,hrv.trans hv,fun ht hor => hre ht (hor.resolve_left hfin)⟩

/-- A part that is requested, the buffer it is written to, and the header variable of the
receiver. -/
structure Delivery where
  part : Byte
  writer : Writer
  hdr : FormatRespHdr

def deliver (e : TelemetryEncoder) (size : Byte) (p : Delivery) (d : TelemetryDecoder) :
    Option (TelemetryDecoder × Bool) := do
  let w ← e.encodeFormat p.writer p.part size
  let (d,_,ok) := d.decodeFormat ⟨w.out.drop p.writer.pos,0⟩ p.hdr
  some (d,ok)

def transfer (e : TelemetryEncoder) (size : Byte) : List Delivery → TelemetryDecoder →
    Option (TelemetryDecoder × Bool)
  | [], d => some (d,true)
  | p :: ps, d => do
    let (d,ok) ← deliver e size p d
    let (d,oks) ← transfer e size ps d
    some (d,ok && oks)

def Delivery.Genuine (e : TelemetryEncoder) (size : Byte) (p : Delivery) : Prop :=
  p.part.toNat < e.partCnt size ∧
    p.writer.pos+FormatRespHdr.psize+size.toNat ≤ p.writer.size

theorem deliver_eq {p : Delivery} {w : Writer} (hs : size ≠ 0#8)
    (hcnt : e.slotsCnt ≤ slotsSize) (hle : e.partCnt size ≤ 255)
    (hp : p.part.toNat < e.partCnt size) (hw : e.encodeFormat p.writer p.part size = some w)
    (hout : w.out.drop p.writer.pos =
      (e.partHdr size p.part).bytes ++ e.partBytes size p.part.toNat)
    (hd : p.part = 0#8 ∨ d.hash.hash = e.hash.hash) :
    deliver e size p d = some (((d.firstPart (e.partHdr size p.part)).writeFields
      (p.part.toNat*size.toNat) (e.partBytes size p.part.toNat)).finishPart
        (e.partHdr size p.part)
        (p.part.toNat*size.toNat+(e.partBytes size p.part.toNat).length)) := by
  obtain ⟨hhdr,hbytes⟩ := FormatRespHdr.read_bytes (s := ⟨w.out.drop p.writer.pos,0⟩) hout
  have hlen := e.partBytes_length size p.part.toNat
  have hin := (TelemetryEncoder.lt_partCnt hs).mp hp
  have hfinal := isFinal_iff hle hp
  have hnext := TelemetryEncoder.lt_partCnt (e := e) hs (k := p.part.toNat+1)
  rw [Nat.succ_mul] at hnext
  have hshort : ¬ (Reader.mk (w.out.drop p.writer.pos) 0).available < FormatRespHdr.psize := by
    rw [← Reader.rest_length,show (Reader.mk (w.out.drop p.writer.pos) 0).rest = _ from hout,
      List.length_append]
    exact Nat.not_lt.mpr (Nat.le_add_right 8 _)
  have havail : (FormatRespHdr.read ⟨w.out.drop p.writer.pos,0⟩).2.available =
      (e.partBytes size p.part.toNat).length := by
    rw [← Reader.rest_length,hbytes]
  have hread : (d.firstPart (e.partHdr size p.part)).readPart (e.partHdr size p.part)
      (FormatRespHdr.read ⟨w.out.drop p.writer.pos,0⟩).2 =
      ((d.firstPart (e.partHdr size p.part)).writeFields
      (p.part.toNat*size.toNat) (e.partBytes size p.part.toNat)).finishPart
        (e.partHdr size p.part)
        (p.part.toNat*size.toNat+(e.partBytes size p.part.toNat).length) := by
    unfold readPart
    dsimp only
    rw [havail,hbytes]
    have hpsz : (e.partHdr size p.part).psz = size := rfl
    have hpart : (e.partHdr size p.part).part = p.part := rfl
    have hsize : fieldsSize = 720 := rfl
    have hslots : slotsSize = 240 := rfl
    rw [hpsz,hpart,if_neg,if_neg,if_neg (by omega)]
    · rintro ⟨hno,hne⟩
      have hl := mt hfinal.mpr hno
      omega
    · rintro ⟨hf,hgt⟩
      have hl := hfinal.mp hf
      omega
  unfold deliver
  rw [hw]
  simp only [Option.bind_eq_bind,Option.bind_some]
  unfold decodeFormat
  rw [if_neg hshort]
  dsimp only
  rw [hhdr,if_neg (fun h => h rfl),if_neg (show ¬ (e.partHdr size p.part).psz = 0#8 from hs),
    if_neg,hread]
  rintro ⟨h0,hne⟩
  exact hd.elim h0 fun hd => hne hd.symm

theorem writeFields_part (d : TelemetryDecoder) {k : Nat} (i : Nat)
    (hi : i < e.slotsCnt*3) :
    (d.writeFields (k*size.toNat) (e.partBytes size k)).fields i =
      if k*size.toNat ≤ i ∧ i < (k+1)*size.toNat then e.table.getD i 0#8 else d.fields i := by
  have hlen := e.partBytes_length size k
  unfold writeFields
  dsimp only
  by_cases hin : k*size.toNat ≤ i ∧ i < (k+1)*size.toNat
  · have hlt : i-k*size.toNat < (e.partBytes size k).length := by
      rw [Nat.succ_mul] at hin
      omega
    rw [if_pos hin,if_pos hin.1,← TelemetryEncoder.partBytes_getD hin.1 hin.2,
      List.getD_eq_getElem _ _ hlt,List.getD_eq_getElem _ _ hlt]
  · rw [if_neg hin]
    by_cases hlow : k*size.toNat ≤ i
    · rw [if_pos hlow,List.getD_eq_default]
      rw [Nat.succ_mul] at hin
      omega
    · rw [if_neg hlow]

section Transfer
variable (he : e.hash = Hash.ofWord (tableHash e.table)) (hpos : 0 < e.slotsCnt)
  (hcnt : e.slotsCnt ≤ slotsSize) (hs : size ≠ 0#8) (hle : e.partCnt size ≤ 255)
include he hpos hcnt hs hle

/-- A part is accepted. When it is the last one that was missing, and also the last of the table,
the table is installed; and an installed table is kept. -/
theorem deliver_spec {p : Delivery} (hp : p.Genuine e size)
    (hd : Received e size got d ∨ p.part = 0#8 ∧ ∀ k, ¬ got k) :
    ∃ d', deliver e size p d = some (d',true) ∧
      Received e size (fun k => k = p.part.toNat ∨ got k) d' ∧
      ((∀ k < e.partCnt size, k = p.part.toNat ∨ got k) →
        p.part.toNat+1 = e.partCnt size ∨ d.hash.hash = e.hash.hash ∧ d.slotsCnt = e.slotsCnt →
        d'.slotsCnt = e.slotsCnt ∧ d'.valid = true) := by
  obtain ⟨w,hw,hout⟩ := TelemetryEncoder.encodeFormat_spec hs hle hp.1 hp.2
  have hin := (TelemetryEncoder.lt_partCnt hs).mp hp.1
  have hfinal := isFinal_iff hle hp.1
  have hlen := e.partBytes_length size p.part.toNat
  have hnext := TelemetryEncoder.lt_partCnt (e := e) hs (k := p.part.toNat+1)
  rw [Nat.succ_mul] at hnext
  have hfirst : p.part = 0#8 ∨ d.hash.hash = e.hash.hash ∧ d.hashValid = 4 :=
    hd.symm.imp And.left fun hr => ⟨hr.hash,hr.hashValid⟩
  obtain ⟨hh,hv,hfi,hkeep⟩ := firstPart_spec d size hfirst
  have heq := deliver_eq hs hcnt hle hp.1 hw hout (hfirst.imp_right And.left)
  obtain ⟨d',hfin,hf',hhash',hvalid',hdone⟩ := finishPart_spec
    (d := (d.firstPart (e.partHdr size p.part)).writeFields
      (p.part.toNat*size.toNat) (e.partBytes size p.part.toNat)) he hpos hh hv
    (e.partHdr size p.part) (p.part.toNat*size.toNat+(e.partBytes size p.part.toNat).length)
    (fun h => by have hl := hfinal.mp h; omega)
  have hrec : Received e size (fun k => k = p.part.toNat ∨ got k) d' := by
    refine ⟨by rw [hhash']; exact hh,hvalid',fun k hk i h1 h2 h3 => ?_⟩
    rw [hf',writeFields_part _ i h3]
    by_cases hki : p.part.toNat*size.toNat ≤ i ∧ i < (p.part.toNat+1)*size.toNat
    · rw [if_pos hki]
    · rw [if_neg hki,hfi]
      rcases hk with rfl | hk
      · exact absurd ⟨h1,h2⟩ hki
      · rcases hd with hd | hd
        · exact hd.part k hk i h1 h2 h3
        · exact absurd hk (hd.2 k)
  refine ⟨d',heq.trans (congrArg some hfin),hrec,fun hall hor => ?_⟩
  have htable := table_eq hs fun k hk => hrec.part k (hall k hk)
  refine hdone ?_ ?_
  · rw [← htable,table,table,hf']
  · rcases hor with hl | ⟨hsame,hc⟩
    · exact Or.inl (hfinal.mpr hl)
    · exact Or.inr ((hkeep hsame).trans hc)

theorem transfer_spec {ds : List Delivery} (hds : ∀ p ∈ ds, p.Genuine e size)
    (hd : Received e size got d ∨
      (∃ p ps, ds = p :: ps ∧ p.part = 0#8) ∧ ∀ k, ¬ got k) :
    ∃ d', transfer e size ds d = some (d',true) ∧
      Received e size (fun k => got k ∨ ∃ p ∈ ds, p.part.toNat = k) d' ∧
      ((∀ k < e.partCnt size, got k) → d.slotsCnt = e.slotsCnt → d.valid = true →
        d'.slotsCnt = e.slotsCnt ∧ d'.valid = true) ∧
      ∀ pre p post, ds = pre ++ p :: post → p.part.toNat+1 = e.partCnt size →
        (∀ k < e.partCnt size, got k ∨ ∃ q ∈ pre ++ [p], q.part.toNat = k) →
        d'.slotsCnt = e.slotsCnt ∧ d'.valid = true := by
  induction ds generalizing d got with
  | nil =>
    have hr : Received e size got d := by
      rcases hd with hd | ⟨⟨p,ps,heq,-⟩,-⟩
      · exact hd
      · cases heq
    exact ⟨d,rfl,⟨hr.hash,hr.hashValid,fun k hk => hr.part k (by simpa using hk)⟩,
      fun _ hc hv => ⟨hc,hv⟩,fun pre p post h => by simp at h⟩
  | cons q ds ih =>
    have hq : Received e size got d ∨ q.part = 0#8 ∧ ∀ k, ¬ got k := by
      rcases hd with hd | ⟨⟨p,ps,heq,h0⟩,hno⟩
      · exact Or.inl hd
      · cases heq
        exact Or.inr ⟨h0,hno⟩
    obtain ⟨d1,h1,hr1,hdone⟩ := deliver_spec he hpos hcnt hs hle (hds q (List.mem_cons_self ..)) hq
    obtain ⟨d',h2,hr2,hkeep,hlast⟩ :=
      ih (fun p hp => hds p (List.mem_cons_of_mem q hp)) (Or.inl hr1)
    refine ⟨d',?_,⟨hr2.hash,hr2.hashValid,fun k hk => hr2.part k ?_⟩,fun hall hc hv => ?_,
      fun pre p post heq hp hall => ?_⟩
    · rw [transfer,h1]
      simp only [Option.bind_eq_bind,Option.bind_some]
      rw [h2]
      rfl
    · rcases hk with hk | ⟨p,hp,rfl⟩
      · exact Or.inl (Or.inr hk)
      · rcases List.mem_cons.mp hp with rfl | hp
        · exact Or.inl (Or.inl rfl)
        · exact Or.inr ⟨p,hp,rfl⟩
    · have hr : Received e size got d := by
        rcases hq with hq | ⟨-,hno⟩
        · exact hq
        · have h0 := (TelemetryEncoder.lt_partCnt (e := e) hs (k := 0)).mpr (by omega)
          exact absurd (hall 0 h0) (hno 0)
      have hd1 := hdone (fun k hk => Or.inr (hall k hk)) (Or.inr ⟨hr.hash,hc⟩)
      exact hkeep (fun k hk => Or.inr (hall k hk)) hd1.1 hd1.2
    · cases pre with
      | nil =>
        obtain ⟨rfl,rfl⟩ := List.cons.inj heq
        have hall1 : ∀ k < e.partCnt size, k = q.part.toNat ∨ got k := by
          intro k hk
          rcases hall k hk with hg | ⟨r,hr,rfl⟩
          · exact Or.inr hg
          · rw [List.nil_append,List.mem_singleton] at hr
            exact Or.inl (by rw [hr])
        have hd1 := hdone hall1 (Or.inl hp)
        exact hkeep hall1 hd1.1 hd1.2
      | cons q' pre =>
        obtain ⟨rfl,rfl⟩ := List.cons.inj heq
        refine hlast pre p post rfl hp fun k hk => ?_
        rcases hall k hk with hg | ⟨r,hr,rfl⟩
        · exact Or.inl (Or.inr hg)
        · rcases List.mem_cons.mp hr with rfl | hr
          · exact Or.inl (Or.inl rfl)
          · exact Or.inr ⟨r,hr,rfl⟩

end Transfer

/-- Every part of an encoder's table is accepted, when the first one delivered is part 0. Once all
parts were delivered and then the last one, the decoder has the encoder's table, whatever it had
before and whatever parts follow. -/
theorem format_transfer {dict : Dictionary} {casts : Casts} {ops : List TelemetryEncoder.Op}
    (hrun : TelemetryEncoder.run dict casts TelemetryEncoder.init ops = some e)
    (hpos : 0 < e.slotsCnt) (hs : size ≠ 0#8) (hle : e.partCnt size ≤ 255)
    (d : TelemetryDecoder) {first : Delivery} {ds : List Delivery} (hfirst : first.part = 0#8)
    (hds : ∀ p ∈ first :: ds, p.Genuine e size) :
    ∃ d', transfer e size (first :: ds) d = some (d',true) ∧
      ∀ pre p post, first :: ds = pre ++ p :: post → p.part.toNat+1 = e.partCnt size →
        (∀ k < e.partCnt size, ∃ q ∈ pre ++ [p], q.part.toNat = k) →
        d'.slotsCnt = e.slotsCnt ∧ (∀ i < e.slotsCnt, d'.fieldAt i = (e.slots i).field) ∧
        d'.valid = true := by
  have hinv := TelemetryEncoder.Inv.run (TelemetryEncoder.clear_inv dict _) hrun
  have hstart : Received e size (fun _ => False) d ∨
      (∃ p ps, first :: ds = p :: ps ∧ p.part = 0#8) ∧ ∀ k : Nat, ¬ (fun _ => False) k :=
    Or.inr ⟨⟨first,ds,rfl,hfirst⟩,fun _ h => h⟩
  obtain ⟨d',ht,hr,-,hlast⟩ := transfer_spec hinv.hash hpos hinv.cnt_le hs hle hds hstart
  refine ⟨d',ht,fun pre p post heq hp hall => ?_⟩
  obtain ⟨hc,hv⟩ := hlast pre p post heq hp fun k hk => Or.inr (hall k hk)
  have htable : d'.table (e.slotsCnt*3) = e.table := table_eq hs fun k hk => by
    obtain ⟨q,hq,rfl⟩ := hall k hk
    refine hr.part _ (Or.inr ⟨q,?_,rfl⟩)
    rw [heq]
    rw [List.mem_append,List.mem_singleton] at hq
    rw [List.mem_append,List.mem_cons]
    exact hq.imp_right Or.inl
  exact ⟨hc,fun i hi => fieldAt_eq htable hi,hv⟩

theorem format_transfer_two :
    ∃ e d', TelemetryEncoder.run ⟨fun _ => ⟨1#3,3#6,0#2⟩,1#16,2#16,3#16,4#16,5#16,6#16,7#16,8#16⟩
      ⟨id,id,fun _ => 0#16,fun _ => 0#8⟩ TelemetryEncoder.init
      [.add ⟨⟨5#11,0#3,0#2⟩,Fmt.u8.code⟩] = some e ∧
    transfer e 2#8 [⟨0#8,⟨List.replicate 10 0#8,0⟩,⟨0#8,0#8,0#8,0#8,0#32⟩⟩,
      ⟨1#8,⟨List.replicate 10 0#8,0⟩,⟨0#8,0#8,0#8,0#8,0#32⟩⟩] (init (Hash.ofWord 7#32)) =
        some (d',true) ∧
    d'.slotsCnt = 1 ∧ d'.fieldAt 0 = (e.slots 0).field ∧ d'.valid = true := by
  have hcnt : (TelemetryEncoder.run
      ⟨fun _ => ⟨1#3,3#6,0#2⟩,1#16,2#16,3#16,4#16,5#16,6#16,7#16,8#16⟩
      ⟨id,id,fun _ => 0#16,fun _ => 0#8⟩ TelemetryEncoder.init
      [.add ⟨⟨5#11,0#3,0#2⟩,Fmt.u8.code⟩]).map TelemetryEncoder.slotsCnt = some 1 := by
    decide +kernel
  obtain ⟨e,he,hc⟩ := Option.map_eq_some_iff.mp hcnt
  have hparts : e.partCnt 2#8 = 2 := by
    rw [TelemetryEncoder.partCnt,hc]
    rfl
  have hgen : ∀ p ∈ [Delivery.mk 0#8 ⟨List.replicate 10 0#8,0⟩ ⟨0#8,0#8,0#8,0#8,0#32⟩,
      ⟨1#8,⟨List.replicate 10 0#8,0⟩,⟨0#8,0#8,0#8,0#8,0#32⟩⟩], p.Genuine e 2#8 := by
    unfold Delivery.Genuine
    rw [hparts]
    decide
  obtain ⟨d',ht,hlast⟩ := format_transfer he (by omega) (by decide) (by omega)
    (init (Hash.ofWord 7#32)) rfl hgen
  obtain ⟨h1,h2,h3⟩ := hlast [_] _ [] rfl (by rw [hparts]; rfl) (by rw [hparts]; decide)
  exact ⟨e,d',he,ht,h1.trans hc,h2 0 (by omega),h3⟩

end TelemetryDecoder

end ApxBus.Telemetry
