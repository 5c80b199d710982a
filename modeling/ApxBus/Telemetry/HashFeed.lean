import ApxBus.CrcChanges
import ApxBus.Telemetry.DecoderInvariant
import ApxBus.Telemetry.Encoder
set_option autoImplicit false

/-! The hash of the dataset as the frames bring it, a byte each. -/

namespace ApxBus.Telemetry

/-- The byte of a hash that comes with the frames of a sequence number. -/
def Hash.at (h : Hash) (seq : BitVec 2) : Byte := h.get seq.toFin

theorem Hash.ext_at {g h : Hash} (hb : ∀ seq, g.at seq = h.at seq) : g = h := by
  refine Vector.ext fun i hi => ?_
  exact hb (BitVec.ofFin ⟨i,hi⟩)

theorem Hash.at_zero (seq : BitVec 2) : (ofWord 0#32).at seq = 0#8 := by
  revert seq
  decide

theorem Hash.at_set (h : Hash) (seq seq' : BitVec 2) (b : Byte) :
    Hash.at (h.set seq.toNat b seq.isLt) seq' = if seq' = seq then b else h.at seq' := by
  unfold Hash.at Vector.get
  by_cases hs : seq' = seq
  · subst hs
    rw [if_pos rfl]
    exact Vector.getElem_set_self _
  · rw [if_neg hs]
    refine Vector.getElem_set_ne _ _ fun heq => hs ?_
    exact BitVec.eq_of_toNat_eq heq.symm

namespace TelemetryDecoder
variable {dict : Dictionary} {d : TelemetryDecoder} {seq : BitVec 2} {feed : Byte}

theorem collectHash_first (hv : d.hashValid = 0) (h0 : ∀ q, d.hash.at q = 0#8) :
    (d.collectHash seq feed).hashValid = 1 ∧
    ∀ q, (d.collectHash seq feed).hash.at q = if q = seq then feed else 0#8 := by
  have hseq : d.hash.get seq.toFin = 0#8 := h0 seq
  unfold collectHash
  dsimp only
  rw [hseq]
  by_cases hf : 0#8 ≠ feed
  · rw [if_pos hf,if_neg (by rw [hv]; decide)]
    refine ⟨by dsimp only; rw [hv],fun q => ?_⟩
    dsimp only
    rw [Hash.at_set,h0]
  · rw [if_neg hf,if_pos (show ¬ d.isHashValid by unfold isHashValid; omega)]
    refine ⟨by dsimp only; rw [hv],fun q => ?_⟩
    dsimp only
    rw [h0,← not_not.mp hf,ite_self]

theorem collectHash_same (hf : d.hash.at seq = feed) (hv : d.hashValid ≠ 4) :
    d.collectHash seq feed = {d with hashValid := d.hashValid+1} := by
  have hseq : ¬ d.hash.get seq.toFin ≠ feed := not_not.mpr hf
  unfold collectHash
  dsimp only
  rw [if_neg hseq,if_pos (show ¬ d.isHashValid from hv)]

theorem collectHash_other (hf : d.hash.at seq ≠ feed) (hv : 0 < d.hashValid) :
    (d.collectHash seq feed).hashValid = 1 := by
  have hseq : d.hash.get seq.toFin ≠ feed := hf
  unfold collectHash
  dsimp only
  rw [if_pos hseq,if_pos (Or.inl hv)]
  rfl

theorem collectHash_le (d : TelemetryDecoder) (seq : BitVec 2) (feed : Byte) :
    (d.collectHash seq feed).hashValid ≤ d.hashValid+1 := by
  unfold collectHash
  dsimp only
  split_ifs
  · exact Nat.le_add_left 1 _
  · exact Nat.le_refl _
  · exact Nat.le_add_right _ 1
  · exact Nat.le_refl _

theorem collectHash_slotsCnt (h : d.slotsCnt = 0) : (d.collectHash seq feed).slotsCnt = 0 := by
  unfold collectHash
  dsimp only
  split_ifs
  · rfl
  · exact h
  · exact h
  · exact h

/-- A frame other than that of the transponder, for `seq`, which brings `feed`. -/
structure FeedFrame (dict : Dictionary) (seq : BitVec 2) (feed : Byte) (pid : Pid)
    (stream : Reader) : Prop where
  seq_eq : pid.seq = seq
  uid_ne : pid.uid.setWidth 16 ≠ dict.xpdr
  psize_le : Hdr.psize ≤ stream.available
  feed_eq : (Hdr.read stream).1.feedHash = feed

theorem decode_feed {pid : Pid} {stream : Reader} (hf : FeedFrame dict seq feed pid stream)
    (hc : d.Consistent) (h0 : d.slotsCnt = 0) :
    ∃ d', step dict d (.decode pid stream) = some d' ∧ d'.Consistent ∧ d'.slotsCnt = 0 ∧
      d'.hash = (d.collectHash seq feed).hash ∧
      d'.hashValid = (d.collectHash seq feed).hashValid := by
  obtain ⟨d',r,ok,hd,hc'⟩ := hc.decode dict pid stream
  refine ⟨d',by rw [step,hd]; rfl,hc',?_⟩
  obtain ⟨d1,hd1,hdec⟩ := decode_data dict d hf.psize_le hf.uid_ne
  rw [hf.seq_eq,hf.feed_eq,hc.feedHash_eq] at hd1
  have hslots : d1.slotsCnt = 0 := by
    rw [hd1,clock_slotsCnt]
    exact collectHash_slotsCnt h0
  rcases hdec with ⟨hval,-⟩ | ⟨-,valid,r1,hdec⟩
  · exact absurd hslots hval.2
  · rw [hdec] at hd
    cases hd
    exact ⟨hslots,by rw [hd1,clock_hash],by rw [hd1,clock_hashValid]⟩

theorem seq_add_ne : ∀ s i : BitVec 2, i ≠ 0#2 → s+i ≠ s+0#2 := by decide

theorem seq_cases : ∀ i : BitVec 2, i ≠ 0#2 → i = 1#2 ∨ i = 2#2 ∨ i = 3#2 := by decide

/-- Four frames from a reset on bring the hash when all bytes but the first to arrive are zero, and
only then: any other byte drops the ones before it. -/
theorem feed_acquires_iff (d : TelemetryDecoder) (H : BitVec 32) (s : BitVec 2)
    (pid : BitVec 2 → Pid) (stream : BitVec 2 → Reader)
    (hf : ∀ i, FeedFrame dict (s+i) ((Hash.ofWord H).at (s+i)) (pid i) (stream i)) :
    ∃ d', run dict (d.reset true) [.decode (pid 0#2) (stream 0#2),.decode (pid 1#2) (stream 1#2),
      .decode (pid 2#2) (stream 2#2),.decode (pid 3#2) (stream 3#2)] = some d' ∧
      (d'.hash.hash = H ∧ d'.hashValid = 4 ↔
        ∀ i ≠ 0#2, (Hash.ofWord H).at (s+i) = 0#8) := by
  obtain ⟨d1,h1,hc1,hs1,hh1,hv1⟩ := decode_feed (hf 0#2) (Consistent.reset_true d) rfl
  obtain ⟨d2,h2,hc2,hs2,hh2,hv2⟩ := decode_feed (hf 1#2) hc1 hs1
  obtain ⟨d3,h3,hc3,hs3,hh3,hv3⟩ := decode_feed (hf 2#2) hc2 hs2
  obtain ⟨d4,h4,-,-,hh4,hv4⟩ := decode_feed (hf 3#2) hc3 hs3
  refine ⟨d4,?_,?_⟩
  · simp only [run,List.foldlM_cons,h1,h2,h3,h4,Option.bind_eq_bind,Option.bind_some]
    rfl
  obtain ⟨hfv,hfh⟩ := @collectHash_first (d.reset true) (s+0#2)
    ((Hash.ofWord H).at (s+0#2)) rfl Hash.at_zero
  rw [← hv1] at hfv
  rw [← hh1] at hfh
  have hle3 := collectHash_le d2 (s+2#2) ((Hash.ofWord H).at (s+2#2))
  have hle4 := collectHash_le d3 (s+3#2) ((Hash.ofWord H).at (s+3#2))
  have hat : ∀ i : BitVec 2, i ≠ 0#2 → d1.hash.at (s+i) = 0#8 := fun i hi => by
    rw [hfh,if_neg (seq_add_ne s i hi)]
  have hat1 := hat 1#2 (by decide)
  have hat2 := hat 2#2 (by decide)
  have hat3 := hat 3#2 (by decide)
  have hfail : ∀ i ≠ 0#2, (Hash.ofWord H).at (s+i) ≠ 0#8 → d4.hashValid ≠ 4 →
      (d4.hash.hash = H ∧ d4.hashValid = 4 ↔ ∀ i ≠ 0#2, (Hash.ofWord H).at (s+i) = 0#8) :=
    fun i hi hb hv => ⟨fun h => absurd h.2 hv,fun h => absurd (h i hi) hb⟩
  by_cases hb1 : (Hash.ofWord H).at (s+1#2) ≠ 0#8
  · have hr := collectHash_other (d := d1) (hat1.trans_ne hb1.symm) (by omega)
    exact hfail 1#2 (by decide) hb1 (by omega)
  rw [not_not] at hb1
  have hk2 := collectHash_same (d := d1) (hat1.trans hb1.symm) (by omega)
  rw [hk2] at hh2 hv2
  dsimp only at hh2 hv2
  rw [← hh2] at hat2 hat3
  by_cases hb2 : (Hash.ofWord H).at (s+2#2) ≠ 0#8
  · have hr := collectHash_other (d := d2) (hat2.trans_ne hb2.symm) (by omega)
    exact hfail 2#2 (by decide) hb2 (by omega)
  rw [not_not] at hb2
  have hk3 := collectHash_same (d := d2) (hat2.trans hb2.symm) (by omega)
  rw [hk3] at hh3 hv3
  dsimp only at hh3 hv3
  rw [← hh3] at hat3
  by_cases hb3 : (Hash.ofWord H).at (s+3#2) ≠ 0#8
  · have hr := collectHash_other (d := d3) (hat3.trans_ne hb3.symm) (by omega)
    exact hfail 3#2 (by decide) hb3 (by omega)
  rw [not_not] at hb3
  have hk4 := collectHash_same (d := d3) (hat3.trans hb3.symm) (by omega)
  rw [hk4] at hh4 hv4
  dsimp only at hh4 hv4
  have hzero : ∀ i ≠ 0#2, (Hash.ofWord H).at (s+i) = 0#8 := by
    intro i hi
    rcases seq_cases i hi with rfl | rfl | rfl
    · exact hb1
    · exact hb2
    · exact hb3
  have hhash : d4.hash = Hash.ofWord H := Hash.ext_at fun q => by
    rw [hh4,hh3,hh2,hfh]
    by_cases hq : q = s+0#2
    · rw [if_pos hq,hq]
    · have hqs : s+(q-s) = q := by
        rw [BitVec.add_comm]
        exact BitVec.sub_add_cancel q s
      rw [if_neg hq,← hqs]
      refine (hzero _ fun h0 => hq ?_).symm
      rw [← hqs,h0]
  exact iff_of_true ⟨by rw [hhash,Hash.hash_ofWord],by omega⟩ hzero

theorem feed_acquires_iff_one :
    ∃ d', run ⟨fun _ => ⟨1#3,3#6,0#2⟩,1#16,2#16,3#16,4#16,5#16,6#16,7#16,100#16⟩
      ((init (Hash.ofWord 9#32)).reset true)
      [.decode ⟨8#11,0#3,3#2⟩ ⟨[0#8,0#8,7#8],0⟩,.decode ⟨8#11,0#3,0#2⟩ ⟨[0#8,0#8,0#8],0⟩,
        .decode ⟨8#11,0#3,1#2⟩ ⟨[0#8,0#8,0#8],0⟩,.decode ⟨8#11,0#3,2#2⟩ ⟨[0#8,0#8,0#8],0⟩] =
          some d' ∧
      d'.hash.hash = 0x07000000#32 ∧ d'.hashValid = 4 := by
  have hframe : ∀ i : BitVec 2,
      FeedFrame ⟨fun _ => ⟨1#3,3#6,0#2⟩,1#16,2#16,3#16,4#16,5#16,6#16,7#16,100#16⟩ (3#2+i)
      ((Hash.ofWord 0x07000000#32).at (3#2+i)) ⟨8#11,0#3,3#2+i⟩
      ⟨[0#8,0#8,if i = 0#2 then 7#8 else 0#8],0⟩ := by
    intro i
    refine ⟨rfl,by decide +revert,by decide +revert,by decide +revert⟩
  obtain ⟨d',hr,hiff⟩ := feed_acquires_iff (init (Hash.ofWord 9#32)) 0x07000000#32 3#2 _ _ hframe
  exact ⟨d',hr,hiff.mpr (by decide)⟩

/-- Of the hash 0x0201 the first byte is dropped when the second arrives. -/
theorem feed_drops_byte :
    ∃ d', run ⟨fun _ => ⟨1#3,3#6,0#2⟩,1#16,2#16,3#16,4#16,5#16,6#16,7#16,100#16⟩
      ((init (Hash.ofWord 9#32)).reset true)
      [.decode ⟨8#11,0#3,0#2⟩ ⟨[0#8,0#8,1#8],0⟩,.decode ⟨8#11,0#3,1#2⟩ ⟨[0#8,0#8,2#8],0⟩,
        .decode ⟨8#11,0#3,2#2⟩ ⟨[0#8,0#8,0#8],0⟩,.decode ⟨8#11,0#3,3#2⟩ ⟨[0#8,0#8,0#8],0⟩] =
          some d' ∧
      (Hash.ofWord 0x0201#32).at 0#2 = 1#8 ∧ (Hash.ofWord 0x0201#32).at 1#2 = 2#8 ∧
      (Hash.ofWord 0x0201#32).at 2#2 = 0#8 ∧ (Hash.ofWord 0x0201#32).at 3#2 = 0#8 ∧
      d'.hash.hash = 0x0200#32 ∧ d'.hashValid = 3 := by
  have hrun : (run ⟨fun _ => ⟨1#3,3#6,0#2⟩,1#16,2#16,3#16,4#16,5#16,6#16,7#16,100#16⟩
      ((init (Hash.ofWord 9#32)).reset true)
      [.decode ⟨8#11,0#3,0#2⟩ ⟨[0#8,0#8,1#8],0⟩,.decode ⟨8#11,0#3,1#2⟩ ⟨[0#8,0#8,2#8],0⟩,
        .decode ⟨8#11,0#3,2#2⟩ ⟨[0#8,0#8,0#8],0⟩,
        .decode ⟨8#11,0#3,3#2⟩ ⟨[0#8,0#8,0#8],0⟩]).map (fun d => (d.hash.hash,d.hashValid)) =
      some (0x0200#32,3) := by decide +kernel
  obtain ⟨d',hr,hv⟩ := Option.map_eq_some_iff.mp hrun
  rw [Prod.mk.injEq] at hv
  exact ⟨d',hr,by decide,by decide,by decide,by decide,hv.1,hv.2⟩

end TelemetryDecoder

section Change

variable {n : Nat} {t u : Nat → Field}

def fieldTable (n : Nat) (t : Nat → Field) : List Byte :=
  (List.range n).flatMap fun i => (t i).bytes

theorem fieldTable_congr (h : ∀ i < n, t i = u i) : fieldTable n t = fieldTable n u := by
  simp only [fieldTable,List.flatMap]
  congr 1
  exact List.map_congr_left fun i hi => by rw [h i (List.mem_range.mp hi)]

theorem fieldTable_split {k : Nat} (hk : k < n) (t : Nat → Field) : fieldTable n t =
    fieldTable k t ++ ((t k).bytes ++ fieldTable (n-(k+1)) fun i => t (k+1+i)) := by
  have hr : List.range n = List.range k ++ (k :: (List.range (n-(k+1))).map (k+1+·)) := by
    rw [show n = k+1+(n-(k+1)) by omega,List.range_add,List.range_succ]
    simp
  rw [fieldTable,hr,List.flatMap_append,List.flatMap_cons,List.flatMap_map]
  rfl

theorem Field.bytes_injective {f g : Field} (h : f.bytes = g.bytes) : f = g := by
  simp only [bytes,bytes16,List.cons_append,List.nil_append,List.cons.injEq] at h
  rw [← ofBytes_bytes f,← ofBytes_bytes g,h.1,h.2.1,h.2.2.1]

theorem Pid.raw_ofRaw (v : BitVec 16) : (ofRaw v).raw = v := by
  apply BitVec.eq_of_getLsbD_eq
  intro i hi
  rw [raw_getLsbD]
  simp only [ofRaw,BitVec.getLsbD_extractLsb']
  split_ifs with h0 h1
  · simp [h0]
  · simp [show i-11 < 3 by omega,show 11+(i-11) = i by omega]
  · simp [show i-14 < 2 by omega,show 14+(i-14) = i by omega]

theorem Field.bytes_ofBytes (b0 b1 b2 : Byte) : (ofBytes b0 b1 b2).bytes = [b0,b1,b2] := by
  rw [bytes,ofBytes,Pid.raw_ofRaw,bytes16_le16]
  rfl

theorem TelemetryDecoder.table_fields (d : TelemetryDecoder) (n : Nat) :
    d.table (3*n) = fieldTable n d.fieldAt := by
  induction n with
  | zero => rfl
  | succ n ih =>
    rw [fieldTable,List.range_succ,List.flatMap_append,← fieldTable,← ih,table,table,
      show 3*(n+1) = 3*n+1+1+1 by omega]
    simp [List.range_succ,fieldAt,Field.bytes_ofBytes]

theorem tableHash_ne {k : Nat} (hk : k < n) (hne : t k ≠ u k)
    (hsame : ∀ i < n, i ≠ k → t i = u i) :
    tableHash (fieldTable n t) ≠ tableHash (fieldTable n u) := by
  have hfront : fieldTable k t = fieldTable k u :=
    fieldTable_congr fun i hi => hsame i (by omega) (by omega)
  have hback : fieldTable (n-(k+1)) (fun i => t (k+1+i)) =
      fieldTable (n-(k+1)) fun i => u (k+1+i) :=
    fieldTable_congr fun i hi => hsame _ (by omega) (by omega)
  have hbytes : ¬ ((t k).pid.raw.extractLsb' 0 8 = (u k).pid.raw.extractLsb' 0 8 ∧
      (t k).pid.raw.extractLsb' 8 8 = (u k).pid.raw.extractLsb' 8 8 ∧ (t k).fmt = (u k).fmt) := by
    rintro ⟨h0,h1,h2⟩
    refine hne (Field.bytes_injective ?_)
    simp only [Field.bytes,bytes16,h0,h1,h2]
  rw [fieldTable_split hk t,fieldTable_split hk u,hfront,hback]
  exact crc32_three_ne hbytes _ _ _

/-- The encoder and the decoder compute this hash of the fields they hold, and it tells apart two
tables that differ in one field. -/
theorem hash_one_field {k : Nat} (hk : k < n) (hne : t k ≠ u k)
    (hsame : ∀ i < n, i ≠ k → t i = u i) :
    tableHash (fieldTable n t) ≠ tableHash (fieldTable n u) ∧
    (∀ e : TelemetryEncoder, e.slotsCnt = n → (∀ i < n, (e.slots i).field = t i) →
      e.updateFeeds.hash.hash = tableHash (fieldTable n t)) ∧
    ∀ d : TelemetryDecoder, (∀ i < n, d.fieldAt i = t i) →
      d.getHash (3*n) = tableHash (fieldTable n t) := by
  refine ⟨tableHash_ne hk hne hsame,fun e hn he => ?_,fun d hd => ?_⟩
  · rw [TelemetryEncoder.updateFeeds,Hash.hash_ofWord,← fieldTable_congr he,← hn]
    rfl
  · rw [TelemetryDecoder.getHash,d.table_fields,fieldTable_congr hd]

theorem hash_one_field_middle :
    let t : Nat → Field := fun i => ⟨⟨BitVec.ofNat 11 (8+i),0#3,0#2⟩,3#8⟩
    let u := Function.update t 1 ⟨⟨20#11,0#3,2#2⟩,7#8⟩
    tableHash (fieldTable 3 t) ≠ tableHash (fieldTable 3 u) := by
  intro t u
  refine (hash_one_field (n := 3) (t := t) (u := u) (k := 1) (by decide) (by decide) ?_).1
  intro i hi hne
  exact (Function.update_of_ne hne _ _).symm

end Change

end ApxBus.Telemetry
