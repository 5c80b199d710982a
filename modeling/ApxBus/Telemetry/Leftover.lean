import ApxBus.Telemetry.FrameTransfer
set_option autoImplicit false

/-! Whether the frames depend on what is left in the word that a value is packed into. -/

namespace ApxBus.Telemetry
open Function Mandala Real32

theorem Hdr.eq_of_fields {h h' : Hdr} (hts : h'.ts = h.ts) (hfeed : h'.feedHash = h.feedHash) :
    h' = h := by
  cases h
  cases h'
  rw [Hdr.mk.injEq]
  exact ⟨hts,hfeed⟩

theorem TelemetryEncoder.take_rawOf (casts : Casts) (garbage : BitVec 32) (s : EncSlot) :
    (bytes32 (rawOf casts garbage s)).take (wireSize s.field.fmt) =
      packValue casts s.value s.flags.type s.field.fmt := by
  have hlen := packValue_length casts s.value s.flags.type s.field.fmt
  have hle := wireSize_le s.field.fmt
  rw [rawOf,← hlen]
  exact take_fillRaw garbage (by omega)

namespace EncSlot
open TelemetryEncoder

/-- Slots that differ in no byte of the packed word that a value is written to. -/
structure Alike (s s' : EncSlot) : Prop where
  field : s'.field = s.field
  flags : s'.flags = s.flags
  value : s'.value = s.value
  packed : (bytes32 s'.packed).take (wireSize s.field.fmt) =
    (bytes32 s.packed).take (wireSize s.field.fmt)

theorem Alike.refl (s : EncSlot) : s.Alike s := ⟨rfl,rfl,rfl,rfl⟩

variable {casts : Casts} {g g' : BitVec 32} {pseq : Byte} {s s' : EncSlot}

theorem Alike.enforced (h : s.Alike s') :
    (TelemetryEncoder.enforced s).Alike (TelemetryEncoder.enforced s') := by
  refine ⟨h.field,?_,h.value,bytes32_take_add (wireSize_le _) h.packed _⟩
  unfold TelemetryEncoder.enforced
  rw [h.flags]

theorem Alike.flagged_iff (h : s.Alike s') : flagged pseq s' ↔ flagged pseq s := by
  unfold flagged
  rw [h.field,h.flags]

theorem Alike.packValue_eq (h : s.Alike s') :
    packValue casts s'.value s'.flags.type s'.field.fmt =
      packValue casts s.value s.flags.type s.field.fmt := by
  rw [h.value,h.flags,h.field]

theorem Alike.processed (h : s.Alike s') :
    (TelemetryEncoder.processed casts g pseq s).Alike
      (TelemetryEncoder.processed casts g' pseq s') := by
  unfold TelemetryEncoder.processed
  by_cases hf : flagged pseq s
  · rw [if_pos hf,if_pos (h.flagged_iff.mpr hf)]
    refine ⟨h.field,by rw [h.flags],h.value,?_⟩
    have h' := take_rawOf casts g' s'
    rw [h.packValue_eq,h.field,← take_rawOf casts g s] at h'
    exact h'
  · rw [if_neg hf,if_neg (mt h.flagged_iff.mp hf)]
    exact h

def withData (raw : BitVec 32) (type : TypeId) (s : EncSlot) : EncSlot :=
  if s.value = raw ∧ s.flags.type = type then {s with flags := {s.flags with timeout := 0#4}}
  else {s with
    value := raw
    flags := ⟨type,s.flags.upd || s.field.pid.seq ≠ seqScheduled,s.flags.aux,0#4⟩}

theorem Alike.withData (h : s.Alike s') (raw : BitVec 32) (type : TypeId) :
    (s.withData raw type).Alike (s'.withData raw type) := by
  unfold EncSlot.withData
  rw [h.field,h.flags,h.value]
  split_ifs
  · exact ⟨rfl,rfl,rfl,h.packed⟩
  · exact ⟨rfl,rfl,rfl,h.packed⟩

end EncSlot

namespace TelemetryEncoder
variable {dict : Dictionary} {casts : Casts} {e e' e1 : TelemetryEncoder}

theorem setData_eq (n : Nat) (raw : BitVec 32) (type : TypeId) :
    e.setData n raw type = e.setSlot n ((e.slots n).withData raw type) := by
  unfold setData slot
  by_cases hn : n < slotsSize
  · rw [if_pos hn]
    simp only [Option.bind_eq_bind,Option.bind_some,EncSlot.withData]
    by_cases hs : (e.slots n).value = raw ∧ (e.slots n).flags.type = type
    · rw [if_pos hs,if_pos hs]
    · rw [if_neg hs,if_neg hs]
  · rw [if_neg hn,setSlot,if_neg hn]
    rfl

/-- Encoders whose tables differ in no byte that a value is written to. -/
structure Alike (e e' : TelemetryEncoder) : Prop where
  slotsCnt : e'.slotsCnt = e.slotsCnt
  syncCnt : e'.syncCnt = e.syncCnt
  enforcedUpd : e'.enforcedUpd = e.enforcedUpd
  slots : ∀ i, (e.slots i).Alike (e'.slots i)
  behind : ∀ i, e.slotsCnt ≤ i → e'.slots i = e.slots i

theorem Alike.refl (e : TelemetryEncoder) : Alike e e :=
  ⟨rfl,rfl,rfl,fun _ => .refl _,fun _ _ => rfl⟩

theorem Alike.scan (h : Alike e e') (stop : Field → Bool) (n index : Nat) :
    e'.scan stop n index = e.scan stop n index := by
  induction n generalizing index with
  | zero => rfl
  | succ n ih =>
    unfold TelemetryEncoder.scan slot
    by_cases hi : index < slotsSize
    · rw [if_pos hi,if_pos hi]
      simp only [Option.bind_eq_bind,Option.bind_some]
      rw [(h.slots index).field,ih]
    · rw [if_neg hi,if_neg hi]
      rfl

theorem Alike.slotLookup (h : Alike e e') (uid : BitVec 11) :
    e'.slotLookup uid = e.slotLookup uid := by
  unfold TelemetryEncoder.slotLookup
  rw [h.slotsCnt,h.scan]

theorem Alike.setSlot (h : Alike e e') {n : Nat} {s s' : EncSlot} (hs : s.Alike s')
    (hb : e.slotsCnt ≤ n → s' = s) (h1 : e.setSlot n s = some e1) :
    ∃ e1', e'.setSlot n s' = some e1' ∧ Alike e1 e1' := by
  obtain ⟨hn,rfl⟩ := setSlot_some h1
  refine ⟨_,setSlot_of_lt s' hn,h.slotsCnt,h.syncCnt,h.enforcedUpd,fun i => ?_,fun i hi => ?_⟩
  · dsimp only
    by_cases hin : i = n
    · rw [hin,Function.update_self,Function.update_self]
      exact hs
    · rw [Function.update_of_ne hin,Function.update_of_ne hin]
      exact h.slots i
  · dsimp only at hi ⊢
    by_cases hin : i = n
    · rw [hin,Function.update_self,Function.update_self]
      exact hb (hin ▸ hi)
    · rw [Function.update_of_ne hin,Function.update_of_ne hin]
      exact h.behind i hi

theorem Alike.setData (h : Alike e e') {n : Nat} {raw : BitVec 32} {type : TypeId}
    (h1 : e.setData n raw type = some e1) :
    ∃ e1', e'.setData n raw type = some e1' ∧ Alike e1 e1' := by
  rw [setData_eq] at h1 ⊢
  exact h.setSlot ((h.slots n).withData raw type) (fun hn => by rw [h.behind n hn]) h1

theorem Alike.update (h : Alike e e') {pid : Pid} {raw : BitVec 32} {type : TypeId} {sync : Bool}
    {r : UpdateResult} (h1 : e.update dict pid raw type sync = some (e1,r)) :
    ∃ e1', e'.update dict pid raw type sync = some (e1',r) ∧ Alike e1 e1' := by
  unfold TelemetryEncoder.update at h1 ⊢
  rw [h.slotLookup]
  obtain ⟨idx,hidx,h1⟩ := Option.bind_eq_some_iff.mp h1
  rw [hidx]
  simp only [Option.bind_eq_bind,Option.bind_some]
  cases idx with
  | some idx =>
    obtain ⟨e2,he2,h1⟩ := Option.bind_eq_some_iff.mp h1
    cases h1
    obtain ⟨e2',he2',h2⟩ := h.setData he2
    dsimp only
    rw [he2']
    exact ⟨e2',rfl,h2⟩
  | none =>
    dsimp only at h1 ⊢
    by_cases hsync : ¬ sync
    · rw [if_pos hsync] at h1 ⊢
      cases h1
      exact ⟨e',rfl,h⟩
    rw [if_neg hsync] at h1 ⊢
    rw [h.slotsCnt,h.syncCnt,h.scan]
    obtain ⟨i,hi,h1⟩ := Option.bind_eq_some_iff.mp h1
    rw [hi]
    simp only [Option.bind_some]
    by_cases hpos : i < e.slotsCnt+e.syncCnt
    · rw [if_pos hpos] at h1 ⊢
      obtain ⟨e2,he2,h1⟩ := Option.bind_eq_some_iff.mp h1
      cases h1
      obtain ⟨e2',he2',h2⟩ := h.setData he2
      rw [he2']
      exact ⟨e2',rfl,h2⟩
    rw [if_neg hpos] at h1 ⊢
    by_cases hovf : e.slotsCnt+e.syncCnt ≥ slotsSize
    · rw [if_pos hovf] at h1 ⊢
      cases h1
      exact ⟨e',rfl,h⟩
    rw [if_neg hovf] at h1 ⊢
    by_cases haux : (dict.fmt (pid.uid.setWidth 16)).ds = dsAux
    · rw [if_pos haux] at h1 ⊢
      cases h1
      exact ⟨e',rfl,h⟩
    rw [if_neg haux] at h1 ⊢
    obtain ⟨s,hs,h1⟩ := Option.bind_eq_some_iff.mp h1
    obtain ⟨hlt,rfl⟩ := slot_some hs
    obtain ⟨e2,he2,h1⟩ := Option.bind_eq_some_iff.mp h1
    obtain ⟨e3,he3,h1⟩ := Option.bind_eq_some_iff.mp h1
    cases h1
    have h0 : Alike {e with syncCnt := e.syncCnt+1}
        {e' with slotsCnt := e.slotsCnt, syncCnt := e.syncCnt+1} :=
      ⟨rfl,rfl,h.enforcedUpd,h.slots,h.behind⟩
    have hsame := h.behind (e.slotsCnt+e.syncCnt+1) (by omega)
    obtain ⟨e2',he2',h2⟩ := h0.setSlot (.refl _) (fun _ => rfl) he2
    obtain ⟨e3',he3',h3⟩ := h2.setData he3
    rw [slot_of_lt hlt]
    simp only [Option.bind_some,hsame]
    dsimp only at he2'
    rw [he2']
    simp only [Option.bind_some]
    rw [he3']
    exact ⟨e3',rfl,h3⟩

theorem Inserted.index_eq (h : Alike e e') {f : Field} {k k' : Nat} {e1' : TelemetryEncoder}
    (hk : Inserted dict e f e1 k) (hk' : Inserted dict e' f e1' k') : k' = k := by
  have hno : ∀ i, (e.slots i).field.Before f → f.Before (e.slots i).field → False := by
    intro i h1 h2
    have h3 := h1.trans h2
    unfold Field.Before at h3
    rw [BitVec.lt_def] at h3
    omega
  have hle := hk.le
  have hle' := hk'.le
  rw [h.slotsCnt] at hle'
  rcases Nat.lt_trichotomy k k' with hlt | heq | hgt
  · have hb := hk'.before k hlt
    rw [(h.slots k).field] at hb
    exact (hno k hb (hk.after k (Nat.le_refl k) (by omega))).elim
  · exact heq.symm
  · have ha := hk'.after k' (Nat.le_refl k') (by rw [h.slotsCnt]; omega)
    rw [(h.slots k').field] at ha
    exact (hno k' (hk.before k' hgt) ha).elim

theorem Alike.add (h : Alike e e') (hi : Inv dict e) (hi' : Inv dict e') {f : Field} {r : Bool}
    (h1 : e.add dict f = some (e1,r)) :
    ∃ e1', e'.add dict f = some (e1',r) ∧ Alike e1 e1' := by
  have h0 : Alike {e with insertedIndex := none} {e' with insertedIndex := none} :=
    ⟨h.slotsCnt,h.syncCnt,h.enforcedUpd,h.slots,h.behind⟩
  have hcnt := h.slotsCnt
  rcases hi.toSorted.add_spec dict f with ⟨hfull,heq⟩ | ⟨hlt,⟨j,hj,hu⟩,heq⟩ |
    ⟨hlt,hno,k,e2,heq,hins⟩
  · rcases hi'.toSorted.add_spec dict f with ⟨-,heq'⟩ | ⟨hlt',-,-⟩ | ⟨hlt',-⟩
    · rw [heq] at h1
      cases h1
      exact ⟨_,heq',h0⟩
    · omega
    · omega
  · have hhas : ∃ k < e'.slotsCnt, (e'.slots k).field.pid.uid = f.pid.uid :=
      ⟨j,hcnt ▸ hj,by rw [(h.slots j).field]; exact hu⟩
    rcases hi'.toSorted.add_spec dict f with ⟨hfull',-⟩ | ⟨-,-,heq'⟩ | ⟨-,hno',-⟩
    · omega
    · rw [heq] at h1
      cases h1
      exact ⟨_,heq',h0⟩
    · obtain ⟨k,hk,hku⟩ := hhas
      exact absurd hku (hno' k hk)
  · rcases hi'.toSorted.add_spec dict f with ⟨hfull',-⟩ | ⟨-,⟨k',hk',hu'⟩,-⟩ |
      ⟨-,-,k',e2',heq',hins'⟩
    · omega
    · rw [(h.slots k').field] at hu'
      exact absurd hu' (hno k' (hcnt ▸ hk'))
    · rw [heq] at h1
      cases h1
      obtain rfl := hins.index_eq h hins'
      refine ⟨e2',heq',?_,?_,?_,fun i => ?_,fun i hge => ?_⟩
      · rw [hins'.slotsCnt,hins.slotsCnt,hcnt]
      · rw [hins'.syncCnt,hins.syncCnt,h.syncCnt]
      · rw [hins'.enforcedUpd,hins.enforcedUpd,h.enforcedUpd]
      · rw [hins'.slots,hins.slots,hcnt]
        unfold insertAt
        split_ifs
        · exact h.slots i
        · exact .refl _
        · exact h.slots (i-1)
        · exact h.slots i
      · have hle := hins.le
        rw [hins.slotsCnt] at hge
        rw [hins'.slots,hins.slots,hcnt]
        unfold insertAt
        rw [if_neg (by omega),if_neg (by omega),if_neg (by omega),if_neg (by omega),
          if_neg (by omega),if_neg (by omega)]
        exact h.behind i (by omega)

/-- In each comparison of the frame the bytes that are written decide: they are the whole word, or
they differ. -/
def Decided (casts : Casts) (pseq : Byte) (e : TelemetryEncoder) : Prop :=
  ∀ i < e.slotsCnt, (e.slots i).field.fmt ≠ Fmt.bit.code → flagged pseq (e.marked i) →
    wireSize (e.slots i).field.fmt = 4 ∨
      (bytes32 (e.marked i).packed).take (wireSize (e.slots i).field.fmt) ≠
        packValue casts (e.slots i).value (e.slots i).flags.type (e.slots i).field.fmt

section Encode
variable {pseq : Byte} {g g' : Nat → BitVec 32} {w : Writer} {ts : BitVec 64}

theorem sends_iff {s s' : EncSlot} {g g' : BitVec 32} (h : s.Alike s')
    (hd : flagged pseq s → wireSize s.field.fmt = 4 ∨
      (bytes32 s.packed).take (wireSize s.field.fmt) ≠
        packValue casts s.value s.flags.type s.field.fmt) :
    Sends casts g' pseq s' ↔ Sends casts g pseq s := by
  unfold Sends
  rw [h.flagged_iff]
  refine and_congr_right fun hf => ?_
  have hraw := take_rawOf casts g s
  have hraw' := take_rawOf casts g' s'
  have hpk := h.packed
  rw [h.packValue_eq,h.field] at hraw'
  rcases hd hf with h4 | hne
  · have hall : ∀ v w : BitVec 32, (bytes32 v).take 4 = (bytes32 w).take 4 → v = w := fun v w h =>
      bytes32_injective h
    rw [h4] at hpk hraw hraw'
    rw [hall _ _ hpk,hall _ _ (hraw'.trans hraw.symm)]
  · refine iff_of_true (fun heq => hne ?_) fun heq => hne ?_
    · rw [← hpk,heq,hraw']
    · rw [heq,hraw]

theorem Alike.marked (h : Alike e e') (i : Nat) : (e.marked i).Alike (e'.marked i) := by
  unfold TelemetryEncoder.marked
  rw [h.enforcedUpd]
  by_cases hi : i = e.enforcedUpd
  · rw [hi,Function.update_self,Function.update_self]
    exact (h.slots _).enforced
  · rw [Function.update_of_ne hi,Function.update_of_ne hi]
    exact h.slots i

theorem Alike.valueOf (h : Alike e e') (hd : Decided casts pseq e) {i : Nat} (hi : i < e.slotsCnt)
    (hne : (e.slots i).field.fmt ≠ Fmt.bit.code) :
    TelemetryEncoder.valueOf casts g' pseq e'.marked i =
      TelemetryEncoder.valueOf casts g pseq e.marked i := by
  obtain ⟨hf,hv,ht⟩ := e.marked_same i
  have hdi := hd i hi hne
  rw [← hf,← hv,← ht] at hdi
  have hiff : Sends casts (g' i) pseq (e'.marked i) ↔ Sends casts (g i) pseq (e.marked i) :=
    sends_iff (h.marked i) hdi
  by_cases hsize : wireSize (e.slots i).field.fmt = 0
  · have hno : ¬ Sends casts (g i) pseq (e.marked i) := by
      intro hs
      rcases hdi hs.1 with h4 | hne'
      · rw [hf,hsize] at h4
        cases h4
      · refine hne' ?_
        have hlen := packValue_length casts (e.marked i).value (e.marked i).flags.type
          (e.marked i).field.fmt
        rw [hf] at hlen ⊢
        rw [hsize] at hlen ⊢
        rw [List.length_eq_zero_iff.mp hlen]
        rfl
    rw [TelemetryEncoder.valueOf,if_neg (mt hiff.mp hno),TelemetryEncoder.valueOf,if_neg hno]
  · have hwire : wirePacked casts (e'.slots i) = wirePacked casts (e.slots i) := by
      unfold wirePacked
      rw [(h.slots i).packValue_eq,(h.slots i).field]
    rw [valueOf_marked,valueOf_marked,hwire]
    by_cases hs : Sends casts (g i) pseq (e.marked i)
    · rw [if_pos hs,if_pos (hiff.mpr hs)]
    · rw [if_neg hs,if_neg (mt hiff.mp hs)]

theorem Alike.slotsUpdCnt (h : Alike e e') (hi : Inv dict e) (hi' : Inv dict e') :
    e'.slotsUpdCnt = e.slotsUpdCnt := by
  rw [hi.upd_count,hi'.upd_count,h.slotsCnt]
  refine List.countP_congr fun i _ => ?_
  rw [(h.slots i).field]

theorem Alike.table (h : Alike e e') : e'.table = e.table := by
  unfold TelemetryEncoder.table
  rw [h.slotsCnt]
  exact List.flatMap_congr fun i _ => by rw [(h.slots i).field]

theorem stop_unique {field : Nat → Field} {n stop stop' : Nat} (hs : stop ≤ n) (hs' : stop' ≤ n)
    (hno : ∀ i < stop, (field i).fmt ≠ Fmt.bit.code)
    (hbit : stop < n → (field stop).fmt = Fmt.bit.code)
    (hno' : ∀ i < stop', (field i).fmt ≠ Fmt.bit.code)
    (hbit' : stop' < n → (field stop').fmt = Fmt.bit.code) : stop' = stop := by
  rcases Nat.lt_trichotomy stop stop' with hlt | heq | hgt
  · exact absurd (hbit (by omega)) (hno' stop hlt)
  · exact heq.symm
  · exact absurd (hbit' (by omega)) (hno stop' hgt)

/-- The frames of encoders that are alike, when the written bytes decide. -/
theorem Alike.encode (h : Alike e e') (hi : Inv dict e) (hi' : Inv dict e')
    (hd : Decided casts pseq e) (hlt : e.enforcedUpd < slotsSize)
    (hw : w.pos+(3+1+5*e.slotsCnt) ≤ w.size) :
    ∃ s s', e.encode casts g w pseq ts = some s ∧ e'.encode casts g' w pseq ts = some s' ∧
      s'.stream.out = s.stream.out ∧ Alike s.enc s'.enc := by
  obtain ⟨s,stop,wd,hdr,hs,hstop,hno,hbit,hts,hfeed,hwire,hout,-⟩ :=
    encode_frame casts g pseq hi.cnt_le hlt hw ts
  obtain ⟨s',stop',wd',hdr',hs',hstop',hno',hbit',hts',hfeed',hwire',hout',-⟩ :=
    encode_frame casts g' pseq hi'.cnt_le (by rw [h.enforcedUpd]; exact hlt)
      (by rw [h.slotsCnt]; exact hw) ts
  have hfield : ∀ i, (e'.slots i).field = (e.slots i).field := fun i => (h.slots i).field
  simp only [hfield,h.slotsCnt] at hstop' hno' hbit'
  have hst := @stop_unique (fun i => (e.slots i).field) _ _ _ hstop hstop' hno hbit hno' hbit'
  subst hst
  have hmark : (fun i => (e'.marked i).field) = fun i => (e.marked i).field :=
    funext fun i => (h.marked i).field
  have hval : ∀ i ∈ passing (fun i => (e.marked i).field) pseq 0 stop',
      TelemetryEncoder.valueOf casts g' pseq e'.marked i =
        TelemetryEncoder.valueOf casts g pseq e.marked i := by
    intro i hip
    have hlt := (mem_passing.mp hip).2.1
    exact h.valueOf hd (by omega) (hno i hlt)
  refine ⟨s,s',hs,hs',?_,?_⟩
  · have hhdr : hdr' = hdr := by
      have hhash : e'.hash = e.hash := by rw [hi'.hash,hi.hash,h.table]
      rw [hhash,← hfeed] at hfeed'
      exact Hdr.eq_of_fields (hts'.trans hts.symm) hfeed'
    have hbits : e'.bitValues stop' = e.bitValues stop' := by
      unfold bitValues
      rw [h.slotsCnt]
      exact List.map_congr_left fun i _ => by rw [(h.slots i).value]
    have hcount : counted (TelemetryEncoder.valueOf casts g' pseq e'.marked)
        (passing (fun i => (e.marked i).field) pseq 0 stop') =
        counted (TelemetryEncoder.valueOf casts g pseq e.marked)
          (passing (fun i => (e.marked i).field) pseq 0 stop') := by
      rw [counted,counted,List.filterMap_congr hval]
    rw [hmark] at hwire' hout'
    have hwd := (hwire.congr hval).unique hwire'
    rw [hout',hout,hhdr,hcount,hwd,hbits]
  · obtain ⟨n,stop,-,-,hle,hno2,hbit2,henc,-⟩ := encode_spec hs
    obtain ⟨n',stop2,-,-,hle',hno2',hbit2',henc',-⟩ := encode_spec hs'
    have hnext := encode_enforced hs hi.upd_le
    have hnext' := encode_enforced hs' hi'.upd_le
    rw [h.slotsUpdCnt hi hi',h.enforcedUpd,← hnext] at hnext'
    simp only [hfield,h.slotsCnt] at hle' hno2' hbit2'
    have hst := @stop_unique (fun i => (e.slots i).field) _ _ _ hle hle' hno2 hbit2 hno2' hbit2'
    subst hst
    rw [henc,henc'] at hnext' ⊢
    refine ⟨h.slotsCnt,h.syncCnt,hnext',fun i => ?_,fun i hge => ?_⟩
    · change (processedUpTo casts g pseq 0 stop2 e.marked i).Alike
        (processedUpTo casts g' pseq 0 stop2 e'.marked i)
      unfold processedUpTo
      split_ifs
      · exact (h.marked i).processed
      · exact h.marked i
    · change processedUpTo casts g' pseq 0 stop2 e'.marked i =
        processedUpTo casts g pseq 0 stop2 e.marked i
      dsimp only at hge
      unfold processedUpTo
      rw [if_neg (by omega),if_neg (by omega),TelemetryEncoder.marked,TelemetryEncoder.marked,
        h.enforcedUpd]
      by_cases hin : i = e.enforcedUpd
      · rw [hin] at hge ⊢
        rw [Function.update_self,Function.update_self,h.behind _ hge]
      · rw [Function.update_of_ne hin,Function.update_of_ne hin,h.behind i hge]

theorem fillRaw_take (v : BitVec 32) {k : Nat} (hk : k ≤ 4) :
    fillRaw v ((bytes32 v).take k) = v := by
  match k, hk with
  | 0, _ => exact le32_bytes v
  | 1, _ => exact le32_bytes v
  | 2, _ => exact le32_bytes v
  | 3, _ => exact le32_bytes v
  | 4, _ => exact le32_bytes v

theorem fillRaw_high (garbage : BitVec 32) {packed : List Byte} (h : packed.length < 4) :
    (fillRaw garbage packed).extractLsb' 24 8 = garbage.extractLsb' 24 8 := by
  have hb := bytes32_le32 (packed.getD 0 (garbage.extractLsb' 0 8))
    (packed.getD 1 (garbage.extractLsb' 8 8)) (packed.getD 2 (garbage.extractLsb' 16 8))
    (packed.getD 3 (garbage.extractLsb' 24 8))
  have h3 := congrArg (fun l => l.getD 3 0#8) hb
  rw [List.getD_eq_default packed _ (show packed.length ≤ 3 by omega)] at h3
  unfold fillRaw
  rw [List.getD_eq_default packed _ (show packed.length ≤ 3 by omega)]
  exact h3

theorem filterMap_succ {val val' : Nat → Option Packed} {l : List Nat} (hl : l.Nodup) {i : Nat}
    (hi : i ∈ l) (h0 : val i = none) {p : Packed} (h1 : val' i = some p)
    (hs : ∀ j, j ≠ i → val' j = val j) :
    (l.filterMap val').length = (l.filterMap val).length+1 := by
  obtain ⟨l1,l2,rfl⟩ := List.append_of_mem hi
  have hno := List.nodup_middle.mp hl
  have hni := (List.nodup_cons.mp hno).1
  have hsame : ∀ l : List Nat, i ∉ l → l.filterMap val' = l.filterMap val := by
    intro l hl
    refine List.filterMap_congr fun j hj => hs j ?_
    rintro rfl
    exact hl hj
  rw [List.mem_append,not_or] at hni
  rw [List.filterMap_append,List.filterMap_append,hsame l1 hni.1,List.filterMap_cons_some h1,
    List.filterMap_cons_none h0,hsame l2 hni.2,List.length_append,List.length_cons,
    List.length_append,Nat.add_assoc]

/-- A comparison that the written bytes leave open is decided by the others. -/
theorem encode_depends (hc : e.slotsCnt ≤ slotsSize) (hsort : e.Sorted)
    (hd : ¬ Decided casts pseq e) (hlt : e.enforcedUpd < slotsSize)
    (hw : w.pos+(3+1+5*e.slotsCnt) ≤ w.size) (ts : BitVec 64) :
    ∃ g1 g2 s1 s2, e.encode casts g1 w pseq ts = some s1 ∧ e.encode casts g2 w pseq ts = some s2 ∧
      s1.stream.out ≠ s2.stream.out := by
  unfold Decided at hd
  push Not at hd
  obtain ⟨i,hi,hne,hf,hsize,htake⟩ := hd
  have hle := wireSize_le (e.slots i).field.fmt
  obtain ⟨hfield,hvalue,htype⟩ := e.marked_same i
  have hsame : ¬ Sends casts (e.marked i).packed pseq (e.marked i) := by
    rintro ⟨-,hdiff⟩
    refine hdiff ?_
    rw [rawOf,hfield,hvalue,htype,← htake,fillRaw_take _ hle]
  have hother : Sends casts (~~~(e.marked i).packed) pseq (e.marked i) := by
    refine ⟨hf,fun heq => ?_⟩
    have hhigh := congrArg (BitVec.extractLsb' 24 8) heq
    rw [rawOf,fillRaw_high _ (by rw [packValue_length,hfield]; omega)] at hhigh
    have h0 := congrArg (BitVec.getLsbD · 0) hhigh
    simp at h0
  obtain ⟨s1,stop,wd,hdr,hs1,hstop,hno,hbit,hts,hfeed,-,hout,-⟩ :=
    encode_frame casts (fun _ => (e.marked i).packed) pseq hc hlt hw ts
  obtain ⟨s2,stop',wd',hdr',hs2,hstop',hno',hbit',hts',hfeed',-,hout',-⟩ :=
    encode_frame casts (Function.update (fun _ => (e.marked i).packed) i (~~~(e.marked i).packed))
      pseq hc hlt hw ts
  have hst := @stop_unique (fun i => (e.slots i).field) _ _ _ hstop hstop' hno hbit hno' hbit'
  subst hst
  refine ⟨_,_,s1,s2,hs1,hs2,fun heq => ?_⟩
  rw [hout,hout',Hdr.eq_of_fields (hts'.trans hts.symm) (hfeed'.trans hfeed.symm)] at heq
  have hcount := (List.cons.inj (List.append_cancel_left heq)).1
  have hmem : i ∈ passing (fun i => (e.marked i).field) pseq 0 stop' :=
    mem_passing.mpr ⟨Nat.zero_le i,(hsort.lt_stop_iff hno hbit hi).mpr hne,hf.1⟩
  have hnodup : (passing (fun i => (e.marked i).field) pseq 0 stop').Nodup :=
    List.Nodup.filter _ List.nodup_range'
  have hval : ∀ j, j ≠ i → TelemetryEncoder.valueOf casts (Function.update
      (fun _ => (e.marked i).packed) i (~~~(e.marked i).packed)) pseq e.marked j =
        TelemetryEncoder.valueOf casts (fun _ => (e.marked i).packed) pseq e.marked j := by
    intro j hj
    unfold TelemetryEncoder.valueOf
    rw [Function.update_of_ne hj]
  obtain ⟨p,hsome⟩ : ∃ p, TelemetryEncoder.valueOf casts (Function.update
      (fun _ => (e.marked i).packed) i (~~~(e.marked i).packed)) pseq e.marked i = some p := by
    unfold TelemetryEncoder.valueOf
    rw [Function.update_self,if_pos hother]
    exact ⟨_,rfl⟩
  have hnone : TelemetryEncoder.valueOf casts (fun _ => (e.marked i).packed) pseq e.marked i =
      none := if_neg hsame
  have hsucc := filterMap_succ hnodup hmem hnone hsome hval
  unfold counted at hcount
  rw [hsucc] at hcount
  have hnat := congrArg BitVec.toNat hcount
  rw [BitVec.toNat_ofNat,BitVec.toNat_ofNat] at hnat
  omega

end Encode

inductive Op.Twin : Op → Op → Prop
  | add (field : Field) : Twin (.add field) (.add field)
  | update (pid : Pid) (raw : BitVec 32) (type : TypeId) (sync : Bool) :
      Twin (.update pid raw type sync) (.update pid raw type sync)
  | encode (g g' : Nat → BitVec 32) (stream : Writer) (pseq : Byte) (ts : BitVec 64) :
      Twin (.encode g stream pseq ts) (.encode g' stream pseq ts)

def emit (dict : Dictionary) (casts : Casts) (e : TelemetryEncoder) :
    Op → Option (TelemetryEncoder × List (List Byte))
  | .encode garbage stream pseq ts =>
    (e.encode casts garbage stream pseq ts).map fun s => (s.enc,[s.stream.out])
  | op => (step dict casts e op).map fun e => (e,[])

def framesOf (dict : Dictionary) (casts : Casts) :
    List Op → TelemetryEncoder → Option (List (List Byte))
  | [], _ => some []
  | op :: ops, e => do
    let (e,l) ← emit dict casts e op
    let l' ← framesOf dict casts ops e
    some (l ++ l')

/-- `P` holds of the state, the writer and the number of each frame of a run. -/
def AtEncodes (dict : Dictionary) (casts : Casts) (P : TelemetryEncoder → Writer → Byte → Prop) :
    List Op → TelemetryEncoder → Prop
  | [], _ => True
  | op :: ops, e => (∀ g w pseq ts, op = .encode g w pseq ts → P e w pseq) ∧
    ∀ e', step dict casts e op = some e' → AtEncodes dict casts P ops e'

def Roomy (e : TelemetryEncoder) (w : Writer) : Prop := w.pos+(3+1+5*e.slotsCnt) ≤ w.size

theorem emit_fst (op : Op) : (emit dict casts e op).map Prod.fst = step dict casts e op := by
  have hfst : ∀ o : Option TelemetryEncoder,
      (o.map fun e => (e,([] : List (List Byte)))).map Prod.fst = o := by
    intro o
    cases o <;> rfl
  cases op with
  | encode garbage stream pseq ts =>
    rw [emit,step,Option.map_map]
    rfl
  | add field => exact hfst (step dict casts e (.add field))
  | clear => exact hfst (step dict casts e .clear)
  | update pid raw type sync => exact hfst (step dict casts e (.update pid raw type sync))
  | syncFlush => exact hfst (step dict casts e .syncFlush)

/-- A call of both runs. -/
theorem Alike.emit (h : Alike e e') (hi : Inv dict e) (hi' : Inv dict e') {op op' : Op}
    (ht : op.Twin op') (hs : step dict casts e op = some e1)
    (hd : ∀ g w pseq ts, op = .encode g w pseq ts → Roomy e w ∧ Decided casts pseq e) :
    ∃ e1' l, TelemetryEncoder.emit dict casts e op = some (e1,l) ∧
      TelemetryEncoder.emit dict casts e' op' = some (e1',l) ∧ Alike e1 e1' := by
  cases ht with
  | add field =>
    obtain ⟨⟨e2,r⟩,hadd,rfl⟩ := Option.map_eq_some_iff.mp hs
    obtain ⟨e1',hadd',h1⟩ := h.add hi hi' hadd
    refine ⟨e1',[],?_,?_,h1⟩
    · rw [TelemetryEncoder.emit,hs]
      · rfl
      · exact fun _ _ _ _ h => by cases h
    · rw [TelemetryEncoder.emit,step,hadd']
      · rfl
      · exact fun _ _ _ _ h => by cases h
  | update pid raw type sync =>
    obtain ⟨⟨e2,r⟩,hupd,rfl⟩ := Option.map_eq_some_iff.mp hs
    obtain ⟨e1',hupd',h1⟩ := h.update hupd
    refine ⟨e1',[],?_,?_,h1⟩
    · rw [TelemetryEncoder.emit,hs]
      · rfl
      · exact fun _ _ _ _ h => by cases h
    · rw [TelemetryEncoder.emit,step,hupd']
      · rfl
      · exact fun _ _ _ _ h => by cases h
  | encode g g' w pseq ts =>
    obtain ⟨s,henc,rfl⟩ := Option.map_eq_some_iff.mp hs
    obtain ⟨hw,hdec⟩ := hd g w pseq ts rfl
    obtain ⟨n,stop,hlt,-⟩ := encode_spec henc
    obtain ⟨s1,s',hs1,hs',hout,h1⟩ := @Alike.encode dict casts e e' pseq g g' w ts h hi hi' hdec hlt
      hw
    rw [henc,Option.some.injEq] at hs1
    subst hs1
    refine ⟨s'.enc,[s.stream.out],?_,?_,h1⟩
    · rw [TelemetryEncoder.emit,henc]
      rfl
    · rw [TelemetryEncoder.emit,hs',Option.map_some,hout]

theorem framesOf_cons {op : Op} {l : List (List Byte)} (h : emit dict casts e op = some (e1,l))
    (ops : List Op) :
    framesOf dict casts (op :: ops) e = (framesOf dict casts ops e1).map (l ++ ·) := by
  rw [framesOf,h]
  simp only [Option.bind_eq_bind,Option.bind_some]
  cases framesOf dict casts ops e1 <;> rfl

theorem emit_of_step {op : Op} (h : step dict casts e op = some e1) :
    ∃ l, emit dict casts e op = some (e1,l) := by
  rw [← emit_fst] at h
  obtain ⟨⟨e2,l⟩,hl,rfl⟩ := Option.map_eq_some_iff.mp h
  exact ⟨l,hl⟩

theorem framesOf_some {ops : List Op} (hr : run dict casts e ops = some e1) :
    ∃ l, framesOf dict casts ops e = some l := by
  induction ops generalizing e with
  | nil => exact ⟨[],rfl⟩
  | cons op ops ih =>
    obtain ⟨e2,hs,hr⟩ := run_cons hr
    obtain ⟨l,hl⟩ := emit_of_step hs
    obtain ⟨l',hl'⟩ := ih hr
    rw [framesOf_cons hl,hl']
    exact ⟨_,rfl⟩

theorem Alike.framesOf (h : Alike e e') (hi : Inv dict e) (hi' : Inv dict e') {ops ops' : List Op}
    (ht : List.Forall₂ Op.Twin ops ops') (hr : run dict casts e ops = some e1)
    (hw : AtEncodes dict casts (fun e w _ => Roomy e w) ops e)
    (hd : AtEncodes dict casts (fun e _ pseq => Decided casts pseq e) ops e) :
    TelemetryEncoder.framesOf dict casts ops' e' = TelemetryEncoder.framesOf dict casts ops e := by
  induction ht generalizing e e' with
  | nil => rfl
  | @cons op op' ops ops' hop hops ih =>
    obtain ⟨e2,hs,hr⟩ := run_cons hr
    obtain ⟨hw0,hw⟩ := hw
    obtain ⟨hd0,hd⟩ := hd
    obtain ⟨e2',l,hl,hl',h2⟩ := h.emit hi hi' hop hs fun g w pseq ts heq =>
      ⟨hw0 g w pseq ts heq,hd0 g w pseq ts heq⟩
    have hs' : step dict casts e' op' = some e2' := by
      rw [← emit_fst,hl']
      rfl
    rw [framesOf_cons hl,framesOf_cons hl',
      ih h2 (hi.step hs) (hi'.step hs') hr (hw e2 hs) (hd e2 hs)]

/-- And only then. -/
theorem decided_of_twins {ops : List Op} (hops : ∀ op ∈ ops, op.Twin op) (hi : Inv dict e)
    (hr : run dict casts e ops = some e1)
    (hw : AtEncodes dict casts (fun e w _ => Roomy e w) ops e)
    (hall : ∀ ops', List.Forall₂ Op.Twin ops ops' →
      framesOf dict casts ops' e = framesOf dict casts ops e) :
    AtEncodes dict casts (fun e _ pseq => Decided casts pseq e) ops e := by
  induction ops generalizing e with
  | nil => trivial
  | cons op ops ih =>
    have hself : List.Forall₂ Op.Twin ops ops :=
      List.forall₂_same.mpr fun op hop => hops op (List.mem_cons_of_mem _ hop)
    obtain ⟨e2,hs,hr2⟩ := run_cons hr
    refine ⟨fun g w pseq ts hop => ?_,fun e3 hs3 => ?_⟩
    · by_contra hnd
      subst hop
      obtain ⟨s,henc,-⟩ := Option.map_eq_some_iff.mp hs
      obtain ⟨n,stop,hlt,-⟩ := encode_spec henc
      obtain ⟨g1,g2,s1,s2,h1,h2,hne⟩ := encode_depends hi.cnt_le hi.toSorted hnd hlt
        (hw.1 g w pseq ts rfl) ts
      obtain ⟨l,hl⟩ := framesOf_some hr
      have hframe : ∀ g' s', e.encode casts g' w pseq ts = some s' →
          ∃ l', l = s'.stream.out :: l' := by
        intro g' s' hs'
        have hsame := hall _ (.cons (.encode g g' w pseq ts) hself)
        have hemit : emit dict casts e (.encode g' w pseq ts) = some (s'.enc,[s'.stream.out]) := by
          rw [emit,hs']
          rfl
        rw [hl,framesOf_cons hemit] at hsame
        obtain ⟨l',-,rfl⟩ := Option.map_eq_some_iff.mp hsame
        exact ⟨l',rfl⟩
      obtain ⟨l1,hl1⟩ := hframe g1 s1 h1
      obtain ⟨l2,hl2⟩ := hframe g2 s2 h2
      exact hne (List.cons.inj (hl1.symm.trans hl2)).1
    · rw [hs,Option.some.injEq] at hs3
      subst hs3
      obtain ⟨l,hl⟩ := emit_of_step hs
      refine ih (fun op hop => hops op (List.mem_cons_of_mem _ hop)) (hi.step hs) hr2 (hw.2 e2 hs)
        fun ops' hops' => ?_
      have hsame := hall _ (.cons (hops op List.mem_cons_self) hops')
      rw [framesOf_cons hl,framesOf_cons hl] at hsame
      exact Option.map_injective (List.append_right_injective l) hsame

/-- The frames of a run do not depend on what is left in the words exactly when the written bytes
decide each comparison. -/
theorem frames_twin_iff {e0 : TelemetryEncoder} {ops : List Op} (hops : ∀ op ∈ ops, op.Twin op)
    (hr : run dict casts e0.clear ops = some e)
    (hw : AtEncodes dict casts (fun e w _ => Roomy e w) ops e0.clear) :
    (∀ ops', List.Forall₂ Op.Twin ops ops' →
      framesOf dict casts ops' e0.clear = framesOf dict casts ops e0.clear) ↔
    AtEncodes dict casts (fun e _ pseq => Decided casts pseq e) ops e0.clear := by
  have hi := clear_inv dict e0
  refine ⟨fun hall => decided_of_twins hops hi hr hw hall,fun hd ops' ht => ?_⟩
  exact (Alike.refl e0.clear).framesOf hi hi ht hr hw hd

def byteFrame (raw garbage : BitVec 32) : List Op :=
  [.add ⟨⟨9#11,0#3,0#2⟩,Fmt.u8.code⟩,.update ⟨9#11,0#3,0#2⟩ raw .byte false,
    .encode (fun _ => garbage) ⟨List.replicate 9 0#8,0⟩ 0#8 0#64]

theorem byteFrame_twin (raw garbage garbage' : BitVec 32) :
    List.Forall₂ Op.Twin (byteFrame raw garbage) (byteFrame raw garbage') :=
  .cons (.add _) (.cons (.update _ _ _ _) (.cons (.encode _ _ _ _ _) .nil))

theorem byteFrame_twin_self (raw garbage : BitVec 32) :
    ∀ op ∈ byteFrame raw garbage, op.Twin op :=
  List.forall₂_same.mp (byteFrame_twin raw garbage garbage)

theorem byteFrame_atEncodes {raw garbage : BitVec 32} {P : TelemetryEncoder → Writer → Byte → Prop}
    (hr : run byteDict noCasts init.clear ((byteFrame raw garbage).take 2) = some e)
    (h : P e ⟨List.replicate 9 0#8,0⟩ 0#8) :
    AtEncodes byteDict noCasts P (byteFrame raw garbage) init.clear := by
  obtain ⟨e1,h1,hr⟩ := run_cons hr
  obtain ⟨e2,h2,hr⟩ := run_cons hr
  obtain rfl := Option.some.inj hr
  refine And.intro (fun _ _ _ _ hop => Op.noConfusion hop) fun e1' h1' => ?_
  obtain rfl := Option.some.inj (h1.symm.trans h1')
  refine And.intro (fun _ _ _ _ hop => Op.noConfusion hop) fun e2' h2' => ?_
  obtain rfl := Option.some.inj (h2.symm.trans h2')
  refine And.intro (fun g w pseq ts hop => ?_) fun _ _ => trivial
  cases hop
  exact h

/-- The first value of a byte that is not 1 is sent, whatever is left in the word. -/
theorem frames_twin_iff_one : framesOf byteDict noCasts (byteFrame 17#32 0#32) init.clear =
    framesOf byteDict noCasts (byteFrame 17#32 0xFFFFFFFF#32) init.clear := by
  have hmap : (run byteDict noCasts init.clear ((byteFrame 17#32 0xFFFFFFFF#32).take 2)).bind
      (fun e => (run byteDict noCasts init.clear (byteFrame 17#32 0xFFFFFFFF#32)).map fun _ =>
        (e.slotsCnt,(e.slots 0).field,(e.slots 0).value,(e.slots 0).flags.type,
          (e.marked 0).packed)) =
      some (1,⟨⟨9#11,0#3,0#2⟩,Fmt.u8.code⟩,17#32,.byte,0x01010101#32) := by decide +kernel
  obtain ⟨e,hr,hmap⟩ := Option.bind_eq_some_iff.mp hmap
  obtain ⟨e1,hr1,hv⟩ := Option.map_eq_some_iff.mp hmap
  simp only [Prod.mk.injEq] at hv
  obtain ⟨hcnt,hfield,hvalue,htype,hpacked⟩ := hv
  refine (frames_twin_iff (byteFrame_twin_self _ _) hr1 (byteFrame_atEncodes hr ?_)).mpr
    (byteFrame_atEncodes hr ?_) _ (byteFrame_twin _ _ _)
  · rw [Roomy,hcnt]
    decide
  · intro i hi _ _
    obtain rfl : i = 0 := by omega
    rw [hfield,hvalue,htype,hpacked]
    decide +kernel

/-- The first value 1 of a byte is sent or not by what is left in the word. -/
theorem byte_one_leftover : (∀ op ∈ byteFrame 1#32 0#32, op.Twin op) ∧
    List.Forall₂ Op.Twin (byteFrame 1#32 0#32) (byteFrame 1#32 0x01010100#32) ∧
    (∃ e, run byteDict noCasts init.clear (byteFrame 1#32 0#32) = some e) ∧
    AtEncodes byteDict noCasts (fun e w _ => Roomy e w) (byteFrame 1#32 0#32) init.clear ∧
    framesOf byteDict noCasts (byteFrame 1#32 0x01010100#32) init.clear ≠
      framesOf byteDict noCasts (byteFrame 1#32 0#32) init.clear := by
  have hmap : (run byteDict noCasts init.clear ((byteFrame 1#32 0#32).take 2)).bind
      (fun e => (run byteDict noCasts init.clear (byteFrame 1#32 0#32)).map fun _ =>
        e.slotsCnt) = some 1 := by decide +kernel
  obtain ⟨e,hr,hmap⟩ := Option.bind_eq_some_iff.mp hmap
  obtain ⟨e1,hr1,hcnt⟩ := Option.map_eq_some_iff.mp hmap
  refine ⟨byteFrame_twin_self _ _,byteFrame_twin _ _ _,⟨e1,hr1⟩,byteFrame_atEncodes hr ?_,?_⟩
  · rw [Roomy,hcnt]
    decide
  · decide +kernel

end TelemetryEncoder

end ApxBus.Telemetry
