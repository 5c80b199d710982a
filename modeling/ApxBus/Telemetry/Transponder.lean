import ApxBus.Telemetry.DecoderFrame
import ApxBus.Telemetry.DatasetOrder
import ApxBus.Telemetry.PendingSync
import Mathlib.Algebra.Order.BigOperators.Group.List
set_option autoImplicit false

/-! The transponder dataset from the encoder to the decoder. -/

namespace ApxBus.Telemetry
open Function Mandala Real32

variable {dict : Dictionary} {casts : Casts}

namespace TelemetryEncoder
variable {e : TelemetryEncoder}

def HasXpdr (dict : Dictionary) (e : TelemetryEncoder) (i : Fin xpdrDatasetSize) : Prop :=
  ∃ j < e.slotsCnt, (e.slots j).field.pid.uid.setWidth 16 = (xpdrDataset dict i).uid

instance (i : Fin xpdrDatasetSize) : Decidable (e.HasXpdr dict i) :=
  inferInstanceAs (Decidable (∃ j, j < e.slotsCnt ∧ _))

theorem Inv.hasXpdr_iff (h : Inv dict e) (i : Fin xpdrDatasetSize) :
    e.HasXpdr dict i ↔ (e.xpdrSlotIdx i).toNat < e.slotsCnt := by
  rcases h.xpdr_index i with ⟨j,hj,huid,hidx⟩ | ⟨hno,hidx⟩
  · exact iff_of_true ⟨j,hj,huid⟩ (hidx ▸ hj)
  · exact iff_of_false (fun ⟨j,hj,huid⟩ => hno j hj huid) (Nat.not_lt.mpr hidx)

def xpdrBytes (dict : Dictionary) (casts : Casts) (e : TelemetryEncoder)
    (i : Fin xpdrDatasetSize) : List Byte :=
  let s := e.slots (e.xpdrSlotIdx i).toNat
  if (e.xpdrSlotIdx i).toNat < e.slotsCnt then
    packValue casts s.value s.flags.type (xpdrDataset dict i).fmt
  else []

theorem xpdrBytes_length (i : Fin xpdrDatasetSize) : (e.xpdrBytes dict casts i).length =
    if (e.xpdrSlotIdx i).toNat < e.slotsCnt then wireSize (xpdrDataset dict i).fmt else 0 := by
  unfold xpdrBytes
  dsimp only
  split_ifs
  · rw [packValue_length]
  · rfl

theorem xpdrLoop_holds (hc : e.slotsCnt ≤ slotsSize) {n : Nat} (is : List (Fin xpdrDatasetSize))
    {w : Writer} {o : List Byte} (h : w.Holds n o) (hroom : o.length+4*is.length ≤ n) :
    ∃ w' ok, xpdrLoop dict casts e is w = some (w',ok) ∧
      (ok = true ↔ ∀ i ∈ is, (e.xpdrSlotIdx i).toNat < e.slotsCnt →
        wireSize (xpdrDataset dict i).fmt ≠ 0) ∧
      ∃ l, w'.Holds n (o ++ l) ∧ (ok = true → l = is.flatMap (e.xpdrBytes dict casts)) := by
  induction is generalizing w o with
  | nil =>
    refine ⟨w,true,rfl,iff_of_true rfl fun i hi => absurd hi List.not_mem_nil,[],?_,fun _ => rfl⟩
    rw [List.append_nil]
    exact h
  | cons i is ih =>
    rw [List.length_cons] at hroom
    rw [xpdrLoop]
    simp only [List.forall_mem_cons]
    by_cases hi : (e.xpdrSlotIdx i).toNat < e.slotsCnt
    · rw [if_neg (Nat.not_le_of_lt hi),slot,if_pos (by omega)]
      simp only [Option.bind_eq_bind,Option.bind_some]
      have hb : packValue casts (e.slots (e.xpdrSlotIdx i).toNat).value
          (e.slots (e.xpdrSlotIdx i).toNat).flags.type (xpdrDataset dict i).fmt =
          e.xpdrBytes dict casts i := (if_pos hi).symm
      have hlen : (e.xpdrBytes dict casts i).length = wireSize (xpdrDataset dict i).fmt := by
        rw [xpdrBytes_length,if_pos hi]
      rw [hb,hlen]
      by_cases hz : wireSize (xpdrDataset dict i).fmt = 0
      · rw [if_pos hz]
        refine ⟨w,false,rfl,iff_of_false Bool.false_ne_true fun hall => hall.1 hi hz,[],?_,
          fun hf => absurd hf Bool.false_ne_true⟩
        rw [List.append_nil]
        exact h
      · have hle := wireSize_le (xpdrDataset dict i).fmt
        have hw := h.write (e.xpdrBytes dict casts i) (by omega)
        obtain ⟨w',ok,hloop,hok,l,hh,hl⟩ := ih hw (by rw [List.length_append]; omega)
        rw [if_neg hz]
        refine ⟨w',ok,hloop,?_,e.xpdrBytes dict casts i ++ l,?_,fun ht => ?_⟩
        · rw [hok]
          exact ⟨fun hall => ⟨fun _ => hz,hall⟩,fun hall => hall.2⟩
        · rw [← List.append_assoc]
          exact hh
        · rw [List.flatMap_cons,← hl ht]
    · have hnil : e.xpdrBytes dict casts i = [] := if_neg hi
      obtain ⟨w',ok,hloop,hok,l,hh,hl⟩ := ih h (by omega)
      rw [if_pos (Nat.le_of_not_lt hi)]
      refine ⟨w',ok,hloop,?_,l,hh,fun ht => ?_⟩
      · rw [hok]
        exact ⟨fun hall => ⟨fun h => absurd h hi,hall⟩,fun hall => hall.2⟩
      · rw [List.flatMap_cons,hnil,List.nil_append]
        exact hl ht

theorem encodeXpdr_holds (hc : e.slotsCnt ≤ slotsSize) {w : Writer}
    (hw : w.pos+(3+4*xpdrDatasetSize) ≤ w.size) (ts : BitVec 64) :
    ∃ w' ok, e.encodeXpdr dict casts w ts = some (w',ok) ∧
      (ok = true ↔ ∀ i, (e.xpdrSlotIdx i).toNat < e.slotsCnt →
        wireSize (xpdrDataset dict i).fmt ≠ 0) ∧
      ∃ l, w'.out = w.out ++
          (⟨(ts/BitVec.ofNat 64 ts2ms).setWidth 16,xpdrVersion⟩ : Hdr).bytes ++ l ∧
        (ok = true → l = (List.finRange xpdrDatasetSize).flatMap (e.xpdrBytes dict casts)) := by
  unfold encodeXpdr
  dsimp only
  generalize (⟨(ts/BitVec.ofNat 64 ts2ms).setWidth 16,xpdrVersion⟩ : Hdr) = hdr
  obtain ⟨ho,hp,hs⟩ := Hdr.write_spec (h := hdr) (s := w) (by unfold Hdr.psize; omega)
  have hp' : (hdr.write w).pos = w.pos+3 := hp
  have h0 : (hdr.write w).Holds w.size (w.out ++ hdr.bytes) := ⟨hs,by omega,ho⟩
  obtain ⟨w',ok,hloop,hok,l,hh,hl⟩ := @xpdrLoop_holds dict casts e hc _
    (List.finRange xpdrDatasetSize) _ _ h0 (by rw [← h0.pos,hp',List.length_finRange]; omega)
  simp only [List.mem_finRange,true_implies] at hok
  exact ⟨w',ok,hloop,hok,l,hh.out,hl⟩

end TelemetryEncoder

namespace TelemetryDecoder
variable {d d' : TelemetryDecoder} {r r' : Reader}

theorem xpdrLoop_true {is : List (Fin xpdrDatasetSize)}
    (h : xpdrLoop dict is d r = some (d',r',true)) :
    (∀ i ∈ is, wireSize (xpdrDataset dict i).fmt ≠ 0) ∧
      (is.map fun i => wireSize (xpdrDataset dict i).fmt).sum ≤ r.rest.length := by
  induction is generalizing d r with
  | nil => exact ⟨List.forall_mem_nil _,Nat.zero_le _⟩
  | cons i is ih =>
    obtain ⟨sz,value,type,hu,hsz⟩ := unpackValue_total r (d.xpdrValue i) (d.xpdrType i)
      (xpdrDataset dict i).fmt
    rw [xpdrLoop,hu] at h
    simp only [Option.bind_eq_bind,Option.bind_some] at h
    split_ifs at h with hstop
    · cases h
    · rw [not_or,Nat.not_lt] at hstop
      have hw := hsz hstop.1
      obtain ⟨hall,hsum⟩ := ih h
      have hrest : r.rest.length = r.available := r.rest_length
      obtain ⟨b,l,hb,hlen⟩ : ∃ b l, r.rest = b ++ l ∧ b.length = sz :=
        ⟨r.rest.take sz,r.rest.drop sz,(List.take_append_drop _ _).symm,
          List.length_take_of_le (hrest ▸ hstop.2)⟩
      rw [← hlen,Reader.rest_reset_add hb] at hsum
      refine ⟨List.forall_mem_cons.mpr ⟨hw ▸ hstop.1,hall⟩,?_⟩
      rw [List.map_cons,List.sum_cons,hb,List.length_append,hlen,← hw]
      exact Nat.add_le_add_left hsum sz

/-- The entries are read from their bytes, in order. -/
theorem xpdrLoop_reads {bytes : Fin xpdrDatasetSize → List Byte} {is : List (Fin xpdrDatasetSize)}
    (hlen : ∀ i ∈ is, (bytes i).length = wireSize (xpdrDataset dict i).fmt ∧ bytes i ≠ [])
    (hn : is.Nodup) (hr : r.rest = is.flatMap bytes) :
    ∃ d' r', xpdrLoop dict is d r = some (d',r',true) ∧
      (∀ i ∈ is, unpackValue (bytes i) (d.xpdrValue i) (d.xpdrType i) (xpdrDataset dict i).fmt
        (bytes i).length = some ((bytes i).length,d'.xpdrValue i,d'.xpdrType i)) ∧
      ∀ i ∉ is, d'.xpdrValue i = d.xpdrValue i ∧ d'.xpdrType i = d.xpdrType i := by
  induction is generalizing d r with
  | nil => exact ⟨d,r,rfl,List.forall_mem_nil _,fun _ _ => ⟨rfl,rfl⟩⟩
  | cons i is ih =>
    obtain ⟨⟨hi,hne⟩,hlen⟩ := List.forall_mem_cons.mp hlen
    obtain ⟨hnot,hn⟩ := List.nodup_cons.mp hn
    rw [List.flatMap_cons] at hr
    obtain ⟨value,type,hat⟩ := unpackValue_front hi hne (d.xpdrValue i) (d.xpdrType i)
    have hav : (bytes i).length ≤ r.available := by
      rw [← r.rest_length,hr,List.length_append]
      exact Nat.le_add_right _ _
    have hpos := List.length_pos_iff.mpr hne
    obtain ⟨d',r',hloop,hread,hkept⟩ := ih (d := {d with
      xpdrValue := update d.xpdrValue i value, xpdrType := update d.xpdrType i type})
      hlen hn (Reader.rest_reset_add hr)
    dsimp only at hread hkept
    refine ⟨d',r',?_,List.forall_mem_cons.mpr ⟨?_,fun j hj => ?_⟩,fun j hj => ?_⟩
    · rw [xpdrLoop,hr,hat _ _ hav]
      simp only [Option.bind_eq_bind,Option.bind_some]
      rw [if_neg (by omega)]
      exact hloop
    · have hself := hat [] _ (Nat.le_refl _)
      obtain ⟨h1,h2⟩ := hkept i hnot
      rw [List.append_nil] at hself
      rw [hself,h1,h2,update_self,update_self]
    · have hji : j ≠ i := fun hji => hnot (hji ▸ hj)
      have hj' := hread j hj
      rw [update_of_ne hji,update_of_ne hji] at hj'
      exact hj'
    · rw [List.mem_cons,not_or] at hj
      obtain ⟨hji,hj⟩ := hj
      obtain ⟨h1,h2⟩ := hkept j hj
      rw [update_of_ne hji] at h1 h2
      exact ⟨h1,h2⟩

theorem decodeXpdr_true (h : d.decodeXpdr dict r = some (d',r',true)) :
    (∀ i, wireSize (xpdrDataset dict i).fmt ≠ 0) ∧
      ((List.finRange xpdrDatasetSize).map fun i => wireSize (xpdrDataset dict i).fmt).sum ≤
        r.rest.length := by
  unfold decodeXpdr at h
  split_ifs at h
  · cases h
  · obtain ⟨hne,hle⟩ := xpdrLoop_true h
    exact ⟨fun i => hne i (List.mem_finRange i),hle⟩

theorem decodeXpdr_reads {bytes : Fin xpdrDatasetSize → List Byte}
    (hlen : ∀ i ∈ List.finRange xpdrDatasetSize,
      (bytes i).length = wireSize (xpdrDataset dict i).fmt ∧ bytes i ≠ [])
    (hr : r.rest = (List.finRange xpdrDatasetSize).flatMap bytes) :
    ∃ d' r', d.decodeXpdr dict r = some (d',r',true) ∧
      ∀ i, unpackValue (bytes i) (d.xpdrValue i) (d.xpdrType i) (xpdrDataset dict i).fmt
        (bytes i).length = some ((bytes i).length,d'.xpdrValue i,d'.xpdrType i) := by
  have hav : r.available ≠ 0 := by
    rw [← r.rest_length,hr,Ne,List.length_eq_zero_iff,List.flatMap_eq_nil_iff]
    exact fun h => (hlen 0 (List.mem_finRange 0)).2 (h 0 (List.mem_finRange 0))
  obtain ⟨d',r',hloop,hread,-⟩ := xpdrLoop_reads (d := d) hlen (List.nodup_finRange _) hr
  refine ⟨d',r',?_,fun i => hread i (List.mem_finRange i)⟩
  unfold decodeXpdr
  rw [if_neg hav]
  exact hloop

theorem decode_xpdr {pid : Pid} (hx : pid.uid.setWidth 16 = dict.xpdr) {hdr : Hdr} {l : List Byte}
    (hver : hdr.feedHash = xpdrVersion) (hr : r.rest = hdr.bytes ++ l) :
    ∃ r1, r1.rest = l ∧ d.decode dict pid r = (d.clock hdr.ts).decodeXpdr dict r1 := by
  obtain ⟨h1,h2⟩ := Hdr.read_bytes hr
  have hlen : ¬ r.available < Hdr.psize := by
    rw [← r.rest_length,hr,List.length_append]
    exact Nat.not_lt.mpr (Nat.le_add_right 3 _)
  refine ⟨(Hdr.read r).2,h2,?_⟩
  unfold decode
  rw [if_neg hlen]
  dsimp only
  rw [h1,if_neg fun h => h.2 hver,if_pos hx,if_pos hx]

end TelemetryDecoder

/-- The entries that have a slot of the encoder hold what its value becomes on the wire. -/
def Transponded (dict : Dictionary) (casts : Casts) (e : TelemetryEncoder)
    (d d' : TelemetryDecoder) : Prop :=
  ∀ i, ∀ j < e.slotsCnt, (e.slots j).field.pid.uid.setWidth 16 = (xpdrDataset dict i).uid →
    let packed := packValue casts (e.slots j).value (e.slots j).flags.type (xpdrDataset dict i).fmt
    unpackValue packed (d.xpdrValue i) (d.xpdrType i) (xpdrDataset dict i).fmt packed.length =
      some (packed.length,d'.xpdrValue i,d'.xpdrType i)

/-- The dataset comes to the decoder exactly when all of its entries have a slot, or the encoder
does not send it. -/
theorem xpdr_round_trip_iff {e : TelemetryEncoder} {ops : List TelemetryEncoder.Op}
    (h : TelemetryEncoder.run dict casts TelemetryEncoder.init ops = some e) {w : Writer}
    (hw : w.pos+(3+4*xpdrDatasetSize) ≤ w.size) (ts : BitVec 64) :
    ∃ w' ok, e.encodeXpdr dict casts w ts = some (w',ok) ∧
      ∀ (d : TelemetryDecoder) (pid : Pid) (r : Reader), pid.uid.setWidth 16 = dict.xpdr →
        w'.out = w.out ++ r.rest →
        ((ok = true → ∃ d' r', d.decode dict pid r = some (d',r',true) ∧
            Transponded dict casts e d d') ↔
          (∃ i, e.HasXpdr dict i ∧ wireSize (xpdrDataset dict i).fmt = 0) ∨
            ∀ i, e.HasXpdr dict i) := by
  have hi := TelemetryEncoder.Inv.run (TelemetryEncoder.clear_inv dict _) h
  obtain ⟨w',ok,henc,hok,l,hout,hl⟩ := TelemetryEncoder.encodeXpdr_holds hi.cnt_le hw ts
  simp only [← hi.hasXpdr_iff] at hok
  refine ⟨w',ok,henc,fun d pid r hx hr => ?_⟩
  generalize hhdr : (⟨(ts/BitVec.ofNat 64 ts2ms).setWidth 16,xpdrVersion⟩ : Hdr) = hdr at hout
  by_cases ht : ok = true
  · have hsized := hok.mp ht
    have hrest : r.rest = hdr.bytes ++
        (List.finRange xpdrDatasetSize).flatMap (e.xpdrBytes dict casts) := by
      rw [hout,hl ht,List.append_assoc] at hr
      exact (List.append_cancel_left hr).symm
    obtain ⟨r1,hr1,hdec⟩ := TelemetryDecoder.decode_xpdr (d := d) hx (by rw [← hhdr]) hrest
    rw [hdec]
    constructor
    · intro hall
      refine Or.inr fun i => ?_
      obtain ⟨d',r',hd,-⟩ := hall ht
      by_contra hno
      obtain ⟨hne,hle⟩ := TelemetryDecoder.decodeXpdr_true hd
      rw [hr1,List.length_flatMap] at hle
      refine absurd hle (Nat.not_le_of_lt (List.sum_lt_sum _ _ (fun j _ => ?_)
        ⟨i,List.mem_finRange i,?_⟩))
      · rw [TelemetryEncoder.xpdrBytes_length]
        split_ifs
        · exact Nat.le_refl _
        · exact Nat.zero_le _
      · rw [TelemetryEncoder.xpdrBytes_length,if_neg fun hlt => hno ((hi.hasXpdr_iff i).mpr hlt)]
        exact Nat.pos_of_ne_zero (hne i)
    · intro hcond _
      have hhas := hcond.resolve_left fun ⟨i,hi',hz⟩ => hsized i hi' hz
      have hlen : ∀ i ∈ List.finRange xpdrDatasetSize, (e.xpdrBytes dict casts i).length =
          wireSize (xpdrDataset dict i).fmt ∧ e.xpdrBytes dict casts i ≠ [] := by
        intro i _
        have hl := @TelemetryEncoder.xpdrBytes_length dict casts e i
        rw [if_pos ((hi.hasXpdr_iff i).mp (hhas i))] at hl
        refine ⟨hl,?_⟩
        rw [Ne,← List.length_eq_zero_iff,hl]
        exact hsized i (hhas i)
      obtain ⟨d',r',hd,hread⟩ := TelemetryDecoder.decodeXpdr_reads (d := d.clock hdr.ts) hlen hr1
      refine ⟨d',r',hd,fun i j hj huid => ?_⟩
      rcases hi.xpdr_index i with ⟨k,hk,hkuid,hidx⟩ | ⟨hnone,-⟩
      · have hjk : k = j := hi.inj k j hk hj (setWidth_injective (hkuid.trans huid.symm))
        have hbytes : e.xpdrBytes dict casts i = packValue casts (e.slots j).value
            (e.slots j).flags.type (xpdrDataset dict i).fmt := by
          unfold TelemetryEncoder.xpdrBytes
          rw [hidx,hjk]
          exact if_pos hj
        dsimp only
        rw [← hbytes]
        exact hread i
      · exact absurd huid (hnone j hj)
  · refine iff_of_true (fun ht' => absurd ht' ht) (Or.inl ?_)
    rw [hok] at ht
    push Not at ht
    exact ht

section
open TelemetryEncoder

def byteFields (uids : List (BitVec 11)) : List Op :=
  uids.flatMap fun uid => [.add ⟨⟨uid,0#3,0#2⟩,Fmt.u8.code⟩,.update ⟨uid,0#3,0#2⟩ 17#32 .byte false]

/-- The vertical speed alone is read as the latitude, and the rest is missing. -/
theorem xpdr_entry_shifted : ∃ e w' d' r',
    run byteDict noCasts init (byteFields [6#11]) = some e ∧ e.HasXpdr byteDict 5 ∧
    e.encodeXpdr byteDict noCasts ⟨List.replicate 31 0#8,0⟩ 0#64 = some (w',true) ∧
    (TelemetryDecoder.init (Hash.ofWord 0#32)).decode byteDict ⟨8#11,0#3,0#2⟩ ⟨w'.out,0⟩ =
      some (d',r',false) ∧ d'.xpdrValue 0 = 17#32 ∧ d'.xpdrValue 5 = 0#32 := by
  have hmap : (run byteDict noCasts init (byteFields [6#11])).bind (fun e =>
      (e.encodeXpdr byteDict noCasts ⟨List.replicate 31 0#8,0⟩ 0#64).bind fun x =>
        ((TelemetryDecoder.init (Hash.ofWord 0#32)).decode byteDict ⟨8#11,0#3,0#2⟩
          ⟨x.1.out,0⟩).map fun y =>
            ((decide (e.HasXpdr byteDict 5),x.2),(y.2.2,y.1.xpdrValue 0,y.1.xpdrValue 5))) =
      some ((true,true),(false,17#32,0#32)) := by
    decide +kernel
  obtain ⟨e,he,hmap⟩ := Option.bind_eq_some_iff.mp hmap
  obtain ⟨⟨w',ok⟩,hw,hmap⟩ := Option.bind_eq_some_iff.mp hmap
  obtain ⟨⟨d',r',ok'⟩,hd,hv⟩ := Option.map_eq_some_iff.mp hmap
  simp only [Prod.mk.injEq,decide_eq_true_eq] at hv
  obtain ⟨⟨hhas,rfl⟩,rfl,h0,h5⟩ := hv
  exact ⟨e,w',d',r',he,hhas,hw,hd,h0,h5⟩

theorem xpdr_round_trip_all : ∃ e w' d' r',
    run byteDict noCasts init (byteFields [1#11,2#11,3#11,4#11,5#11,6#11,7#11]) = some e ∧
    e.encodeXpdr byteDict noCasts ⟨List.replicate 31 0#8,0⟩ 0#64 = some (w',true) ∧
    (TelemetryDecoder.init (Hash.ofWord 0#32)).decode byteDict ⟨8#11,0#3,0#2⟩ ⟨w'.out,0⟩ =
      some (d',r',true) ∧
    Transponded byteDict noCasts e (TelemetryDecoder.init (Hash.ofWord 0#32)) d' := by
  have hmap : (run byteDict noCasts init
      (byteFields [1#11,2#11,3#11,4#11,5#11,6#11,7#11])).bind (fun e =>
        (e.encodeXpdr byteDict noCasts ⟨List.replicate 31 0#8,0⟩ 0#64).map fun x =>
          (decide (∀ i, e.HasXpdr byteDict i),x.2)) = some (true,true) := by
    decide +kernel
  obtain ⟨e,he,hmap⟩ := Option.bind_eq_some_iff.mp hmap
  obtain ⟨⟨w1,ok1⟩,hw,hv⟩ := Option.map_eq_some_iff.mp hmap
  simp only [Prod.mk.injEq,decide_eq_true_eq] at hv
  obtain ⟨hall,rfl⟩ := hv
  obtain ⟨w',ok,hw',htrip⟩ := xpdr_round_trip_iff he
    (w := ⟨List.replicate 31 0#8,0⟩) (by decide) 0#64
  obtain ⟨rfl,rfl⟩ := Prod.mk.inj (Option.some.inj (hw.symm.trans hw'))
  obtain ⟨d',r',hd,htrans⟩ := (htrip (TelemetryDecoder.init (Hash.ofWord 0#32)) ⟨8#11,0#3,0#2⟩
    ⟨w1.out,0⟩ rfl rfl).mpr (Or.inr hall) rfl
  exact ⟨e,w1,d',r',he,hw,hd,htrans⟩

end

end ApxBus.Telemetry
