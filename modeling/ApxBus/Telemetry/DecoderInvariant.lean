import ApxBus.Telemetry.DecoderFrame
set_option autoImplicit false

/-! The table of the decoder is never used unless it has the hash of the stream. -/

namespace ApxBus.Telemetry

namespace TelemetryDecoder
variable {d d' : TelemetryDecoder}

/-- At most the four bytes of the hash are counted as valid, and when there are slots, all four
are, and the table has this hash. -/
structure Consistent (d : TelemetryDecoder) : Prop where
  hashValid_le : d.hashValid ≤ 4
  slotsCnt_le : d.slotsCnt ≤ slotsSize
  table : 0 < d.slotsCnt → d.hashValid = 4 ∧
    crc32 (d.table (3*d.slotsCnt)) (3*d.slotsCnt) (fmtVersion.setWidth 32) = d.hash.hash

theorem Consistent.of_empty (hv : d.hashValid ≤ 4) (hs : d.slotsCnt = 0) : d.Consistent :=
  ⟨hv,hs ▸ Nat.zero_le _,fun h => absurd hs (by omega)⟩

theorem Consistent.reset (h : d.Consistent) (b : Bool) : (d.reset b).Consistent := by
  refine of_empty ?_ rfl
  cases b with
  | true => exact Nat.zero_le _
  | false => exact h.hashValid_le

theorem Consistent.reset_true (d : TelemetryDecoder) : (d.reset true).Consistent :=
  of_empty (Nat.zero_le _) rfl

theorem Consistent.congr (h : d.Consistent) (hf : d'.fields = d.fields)
    (hs : d'.slotsCnt = d.slotsCnt) (hh : d'.hash = d.hash) (hv : d'.hashValid = d.hashValid) :
    d'.Consistent where
  hashValid_le := hv ▸ h.hashValid_le
  slotsCnt_le := hs ▸ h.slotsCnt_le
  table := fun hpos => by
    unfold TelemetryDecoder.table
    rw [hs] at hpos
    rw [hf,hs,hh,hv]
    exact h.table hpos

theorem Consistent.slotsCnt_eq_zero (h : d.Consistent) (hv : d.hashValid ≠ 4) : d.slotsCnt = 0 := by
  by_contra hne
  exact hv (h.table (Nat.pos_of_ne_zero hne)).1

theorem Consistent.collectHash (h : d.Consistent) (seq : BitVec 2) (feed : Byte) :
    (d.collectHash seq feed).Consistent := by
  unfold TelemetryDecoder.collectHash
  dsimp only
  by_cases hbyte : d.hash.get seq.toFin ≠ feed
  · rw [if_pos hbyte]
    by_cases hreset : d.hashValid > 0 ∨ d.hash.get seq.toFin ≠ 0#8
    · rw [if_pos hreset]
      exact of_empty (show 0+1 ≤ 4 by decide) rfl
    · rw [if_neg hreset]
      rw [not_or] at hreset
      have h0 : d.hashValid = 0 := by omega
      exact of_empty (by dsimp only; omega) (h.slotsCnt_eq_zero (by omega))
  · rw [if_neg hbyte]
    by_cases hvalid : d.isHashValid
    · rw [if_neg (not_not.mpr hvalid)]
      exact h
    · rw [if_pos hvalid]
      have hle := h.hashValid_le
      have hne : d.hashValid ≠ 4 := hvalid
      exact of_empty (by dsimp only; omega) (h.slotsCnt_eq_zero hne)

theorem Consistent.feedHash_eq (h : d.Consistent) (seq : BitVec 2) (feed : Byte) :
    d.feedHash seq feed = d.collectHash seq feed := by
  have hle := (h.collectHash seq feed).hashValid_le
  exact if_neg (by omega)

theorem Consistent.feedHash (h : d.Consistent) (seq : BitVec 2) (feed : Byte) :
    (d.feedHash seq feed).Consistent := by
  rw [h.feedHash_eq]
  exact h.collectHash seq feed

theorem Consistent.clock (h : d.Consistent) (ts : BitVec 16) : (d.clock ts).Consistent :=
  h.congr (d.clock_fields ts) (d.clock_slotsCnt ts) (d.clock_hash ts) (d.clock_hashValid ts)

theorem Consistent.decode (h : d.Consistent) (dict : Dictionary) (pid : Pid) (stream : Reader) :
    ∃ d' r ok, d.decode dict pid stream = some (d',r,ok) ∧ d'.Consistent := by
  by_cases hkept : stream.available < Hdr.psize ∨ pid.uid.setWidth 16 = dict.xpdr
  · obtain ⟨d',r,ok,hd,-,-,hs,hf,hh,hv⟩ := decode_kept dict d hkept
    exact ⟨d',r,ok,hd,h.congr hf hs hh hv⟩
  rw [not_or,Nat.not_lt] at hkept
  obtain ⟨d1,hd1,hdec⟩ := decode_data dict d hkept.1 hkept.2
  have h1 := (h.feedHash pid.seq (Hdr.read stream).1.feedHash).clock (Hdr.read stream).1.ts
  rw [← hd1] at h1
  rcases hdec with ⟨-,hdec⟩ | ⟨-,valid,r,hdec⟩
  · obtain ⟨d',r,ok,hd,-,hcase⟩ :=
      decodeValues_spec {d1 with valid := true} (Hdr.read stream).2 (pid.seq.setWidth 8)
    refine ⟨d',r,ok,hdec.trans hd,?_⟩
    rcases hcase with ⟨hv,hc⟩ | ⟨heq,-⟩
    · exact of_empty (by omega) hc.slotsCnt
    · rw [heq]
      exact h1.congr rfl rfl rfl rfl
  · exact ⟨_,r,false,hdec,h1.congr rfl rfl rfl rfl⟩

theorem checkHash_true {sz : Nat} (h : d.checkHash sz = (d',true)) :
    d.hashValid = 4 ∧ crc32 (d.table sz) sz (fmtVersion.setWidth 32) = d.hash.hash ∧
      d' = {d with slotsCnt := sz/3, valid := true} := by
  unfold checkHash at h
  split_ifs at h with hbad
  · cases h
  · cases h
    rw [not_or,not_not,not_not,getHash,tableHash,table_length] at hbad
    exact ⟨hbad.1,hbad.2,rfl⟩

theorem checkHash_false {sz : Nat} (h : d.checkHash sz = (d',false)) : d' = d := by
  unfold checkHash at h
  split_ifs at h with hbad
  · cases h
    rfl
  · cases h

theorem Consistent.of_checkHash {sz : Nat} (h : d.checkHash sz = (d',true)) (hmod : sz % 3 = 0)
    (hsz : sz ≤ fieldsSize) : d'.Consistent := by
  obtain ⟨hv,hh,rfl⟩ := checkHash_true h
  have hdiv : 3*(sz/3) = sz := by omega
  refine ⟨Nat.le_of_eq hv,?_,fun _ => ⟨hv,?_⟩⟩
  · change sz ≤ 3*slotsSize at hsz
    dsimp only
    omega
  · dsimp only
    rw [hdiv]
    exact hh

theorem Consistent.recheck (hv : d.hashValid ≤ 4) (hs : d.slotsCnt ≤ slotsSize) :
    d.recheck.Consistent := by
  unfold TelemetryDecoder.recheck
  by_cases h0 : d.slotsCnt = 0
  · rw [if_pos h0]
    exact of_empty hv h0
  rw [if_neg h0]
  cases hc : d.checkHash (d.slotsCnt*3) with
  | mk d1 ok =>
    dsimp only
    cases ok with
    | true =>
      rw [if_pos rfl]
      exact of_checkHash hc (by omega) (by unfold fieldsSize; omega)
    | false =>
      rw [if_neg (by decide),checkHash_false hc]
      exact of_empty hv rfl

theorem Consistent.firstPart (h : d.Consistent) (hdr : FormatRespHdr) :
    (d.firstPart hdr).hashValid ≤ 4 ∧ (d.firstPart hdr).slotsCnt ≤ slotsSize := by
  unfold TelemetryDecoder.firstPart
  dsimp only
  split_ifs
  · exact ⟨Nat.le_refl _,Nat.zero_le _⟩
  · exact ⟨Nat.le_refl _,h.slotsCnt_le⟩
  · exact ⟨h.hashValid_le,h.slotsCnt_le⟩

theorem Consistent.finishPart (hv : d.hashValid ≤ 4) (hs : d.slotsCnt ≤ slotsSize)
    (hdr : FormatRespHdr) {sz : Nat} (hsz : sz ≤ fieldsSize) :
    (d.finishPart hdr sz).1.Consistent := by
  unfold TelemetryDecoder.finishPart
  by_cases hfin : isFinal hdr
  · rw [if_pos hfin]
    by_cases hmod : sz % 3 ≠ 0
    · rw [if_pos hmod]
      exact reset_true d
    rw [if_neg hmod]
    cases hc : d.checkHash sz with
    | mk d1 ok =>
      cases ok with
      | true => exact of_checkHash hc (not_not.mp hmod) hsz
      | false =>
        rw [checkHash_false hc]
        exact recheck hv hs
  · rw [if_neg hfin]
    exact recheck hv hs

theorem Consistent.readPart (hv : d.hashValid ≤ 4) (hs : d.slotsCnt ≤ slotsSize)
    (hdr : FormatRespHdr) (stream : Reader) : (d.readPart hdr stream).1.Consistent := by
  unfold TelemetryDecoder.readPart
  dsimp only
  split_ifs with hlong hlen hfit
  · exact reset_true d
  · exact reset_true d
  · exact reset_true d
  · exact finishPart (d := d.writeFields _ _) hv hs hdr (Nat.le_of_not_gt hfit)

theorem Consistent.decodeFormat (h : d.Consistent) (stream : Reader) (hdr : FormatRespHdr) :
    (d.decodeFormat stream hdr).1.Consistent := by
  unfold TelemetryDecoder.decodeFormat
  split_ifs with hshort
  · exact reset_true d
  · generalize FormatRespHdr.read stream = x
    dsimp only
    split_ifs with hver hpsz hhash
    · exact reset_true d
    · exact reset_true d
    · exact reset_true d
    · exact readPart (h.firstPart x.1).1 (h.firstPart x.1).2 x.1 x.2

theorem Consistent.step (h : d.Consistent) (dict : Dictionary) (op : Op) :
    ∃ d', step dict d op = some d' ∧ d'.Consistent := by
  cases op with
  | decode pid stream =>
    obtain ⟨d',r,ok,hd,h'⟩ := h.decode dict pid stream
    exact ⟨d',by rw [TelemetryDecoder.step,hd]; rfl,h'⟩
  | decodeFormat stream hdr => exact ⟨_,rfl,h.decodeFormat stream hdr⟩
  | reset b => exact ⟨_,rfl,h.reset b⟩

theorem Consistent.run (h : d.Consistent) (dict : Dictionary) (ops : List Op) :
    ∃ d', run dict d ops = some d' ∧ d'.Consistent := by
  induction ops generalizing d with
  | nil => exact ⟨d,rfl,h⟩
  | cons op ops ih =>
    obtain ⟨d1,h1,hc⟩ := h.step dict op
    obtain ⟨d',hr,hc'⟩ := ih hc
    refine ⟨d',?_,hc'⟩
    rw [TelemetryDecoder.run,List.foldlM_cons,h1]
    exact hr

/-- In every run from a reset on, any table in use has the hash, also when a frame has brought
its byte of the hash and is about to be decoded; and no byte of the hash is counted too often. -/
theorem run_consistent (dict : Dictionary) (d : TelemetryDecoder) (ops : List Op) :
    ∃ d', run dict (d.reset true) ops = some d' ∧ d'.Consistent ∧
      ∀ seq feed, (d'.collectHash seq feed).hashValid ≤ 4 ∧ (d'.feedHash seq feed).Consistent := by
  obtain ⟨d',hr,hc⟩ := (Consistent.reset_true d).run dict ops
  exact ⟨d',hr,hc,fun seq feed => ⟨(hc.collectHash seq feed).hashValid_le,hc.feedHash seq feed⟩⟩

end TelemetryDecoder

end ApxBus.Telemetry
