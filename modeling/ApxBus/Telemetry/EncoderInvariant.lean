import ApxBus.Telemetry.EncoderSend
set_option autoImplicit false

/-! The table of the encoder and what is kept beside it agree in every run. -/

namespace ApxBus.Telemetry
open Function Mandala Real32

namespace TelemetryEncoder

inductive Op where
  | add (field : Field)
  | clear
  | update (pid : Pid) (raw : BitVec 32) (type : TypeId) (sync : Bool)
  | syncFlush
  | encode (garbage : Nat → BitVec 32) (stream : Writer) (pseq : Byte) (timestampMs : BitVec 64)

/-- The state behind a call; none when the call indexes an array out of its bounds. -/
def step (dict : Dictionary) (casts : Casts) (e : TelemetryEncoder) :
    Op → Option TelemetryEncoder
  | .add field => (e.add dict field).map Prod.fst
  | .clear => some e.clear
  | .update pid raw type sync => (e.update dict pid raw type sync).map Prod.fst
  | .syncFlush => e.syncFlush dict
  | .encode garbage stream pseq ts => (e.encode casts garbage stream pseq ts).map EncodeState.enc

def run (dict : Dictionary) (casts : Casts) (e : TelemetryEncoder) (ops : List Op) :
    Option TelemetryEncoder :=
  ops.foldlM (step dict casts) e

variable {dict : Dictionary} {casts : Casts} {e e' : TelemetryEncoder}

theorem run_cons {op : Op} {ops : List Op} (h : run dict casts e (op :: ops) = some e') :
    ∃ e1, step dict casts e op = some e1 ∧ run dict casts e1 ops = some e' :=
  Option.bind_eq_some_iff.mp h

/-- The sorted table, with the count of its values, its hash and the index of the transponder. -/
structure Inv (dict : Dictionary) (e : TelemetryEncoder) : Prop extends Sorted e where
  upd_le : e.slotsUpdCnt ≤ e.slotsCnt
  upd : ∀ i < e.slotsCnt, i < e.slotsUpdCnt ↔ (e.slots i).field.fmt ≠ Fmt.bit.code
  hash : e.hash = Hash.ofWord (tableHash e.table)
  xpdr : ∀ i, XpdrFound dict e i 0xFF#8 (e.xpdrSlotIdx i)

/-- The table, and all that is kept beside it, is that of `e`. -/
structure SameTable (e e' : TelemetryEncoder) : Prop where
  slotsCnt : e'.slotsCnt = e.slotsCnt
  slotsUpdCnt : e'.slotsUpdCnt = e.slotsUpdCnt
  hash : e'.hash = e.hash
  xpdrSlotIdx : e'.xpdrSlotIdx = e.xpdrSlotIdx
  field : ∀ i < e.slotsCnt, (e'.slots i).field = (e.slots i).field

theorem SameTable.refl (e : TelemetryEncoder) : SameTable e e := ⟨rfl,rfl,rfl,rfl,fun _ _ => rfl⟩

theorem SameTable.trans {e1 e2 e3 : TelemetryEncoder} (h1 : SameTable e1 e2)
    (h2 : SameTable e2 e3) : SameTable e1 e3 :=
  ⟨h2.slotsCnt.trans h1.slotsCnt,h2.slotsUpdCnt.trans h1.slotsUpdCnt,h2.hash.trans h1.hash,
    h2.xpdrSlotIdx.trans h1.xpdrSlotIdx,
    fun i hi => (h2.field i (h1.slotsCnt ▸ hi)).trans (h1.field i hi)⟩

def Has (e : TelemetryEncoder) (uid : BitVec 11) : Prop :=
  ∃ k < e.slotsCnt, (e.slots k).field.pid.uid = uid

theorem SameTable.has_iff (h : SameTable e e') (uid : BitVec 11) : e'.Has uid ↔ e.Has uid := by
  unfold Has
  rw [h.slotsCnt]
  constructor
  · rintro ⟨k,hk,hu⟩
    exact ⟨k,hk,(h.field k hk) ▸ hu⟩
  · rintro ⟨k,hk,hu⟩
    exact ⟨k,hk,(h.field k hk).symm ▸ hu⟩

theorem SameTable.table (h : SameTable e e') : e'.table = e.table := by
  unfold TelemetryEncoder.table
  rw [h.slotsCnt]
  refine List.flatMap_congr fun i hi => ?_
  rw [h.field i (List.mem_range.mp hi)]

theorem SameTable.inv (h : SameTable e e') (hi : Inv dict e) : Inv dict e' where
  cnt_le := h.slotsCnt ▸ hi.cnt_le
  before := fun i j hij hj => by
    rw [h.slotsCnt] at hj
    rw [h.field i (hij.trans hj),h.field j hj]
    exact hi.before i j hij hj
  inj := fun i j hi' hj huid => by
    rw [h.slotsCnt] at hi' hj
    rw [h.field i hi',h.field j hj] at huid
    exact hi.inj i j hi' hj huid
  upd_le := by
    rw [h.slotsUpdCnt,h.slotsCnt]
    exact hi.upd_le
  upd := fun i hi' => by
    rw [h.slotsCnt] at hi'
    rw [h.slotsUpdCnt,h.field i hi']
    exact hi.upd i hi'
  hash := by
    rw [h.hash,h.table]
    exact hi.hash
  xpdr := fun i => by
    rw [h.xpdrSlotIdx]
    rcases hi.xpdr i with ⟨j,hj,huid,hidx⟩ | ⟨hno,hidx⟩
    · exact Or.inl ⟨j,h.slotsCnt ▸ hj,(h.field j hj).symm ▸ huid,hidx⟩
    · refine Or.inr ⟨fun j hj => ?_,hidx⟩
      rw [h.slotsCnt] at hj
      rw [h.field j hj]
      exact hno j hj

theorem setSlot_sameTable {i : Nat} {s : EncSlot} (hs : e.setSlot i s = some e')
    (hf : i < e.slotsCnt → s.field = (e.slots i).field) : SameTable e e' := by
  obtain ⟨-,rfl⟩ := setSlot_some hs
  refine ⟨rfl,rfl,rfl,rfl,fun j hj => ?_⟩
  dsimp only
  by_cases hji : j = i
  · subst hji
    rw [Function.update_self]
    exact hf hj
  · rw [Function.update_of_ne hji]

theorem setData_spec {n : Nat} {raw : BitVec 32} {type : TypeId}
    (h : e.setData n raw type = some e') :
    ∃ upd, e.setSlot n {e.slots n with
      value := raw, flags := {(e.slots n).flags with type := type, upd := upd, timeout := 0#4}} =
        some e' ∧
      (upd = (e.slots n).flags.upd ∨ upd = true) ∧
      (((e.slots n).value ≠ raw ∨ (e.slots n).flags.type ≠ type) →
        (e.slots n).field.pid.seq ≠ seqScheduled → upd = true) := by
  unfold setData at h
  obtain ⟨s,hs,h⟩ := Option.bind_eq_some_iff.mp h
  obtain ⟨-,rfl⟩ := slot_some hs
  dsimp only at h
  by_cases hsame : (e.slots n).value = raw ∧ (e.slots n).flags.type = type
  · rw [if_pos hsame] at h
    refine ⟨(e.slots n).flags.upd,?_,Or.inl rfl,fun hne => ?_⟩
    · rw [← hsame.1,← hsame.2]
      exact h
    · rcases hne with hne | hne
      · exact absurd hsame.1 hne
      · exact absurd hsame.2 hne
  · rw [if_neg hsame] at h
    refine ⟨_,h,?_,fun _ hseq => ?_⟩
    · by_cases hseq : (e.slots n).field.pid.seq ≠ seqScheduled <;> simp [hseq]
    · simp [hseq]

theorem setData_sameTable {n : Nat} {raw : BitVec 32} {type : TypeId}
    (h : e.setData n raw type = some e') : SameTable e e' := by
  obtain ⟨upd,hs,-⟩ := setData_spec h
  exact setSlot_sameTable hs fun _ => rfl

/-- What `update` does: nothing, or it sets a value, or it makes a pending field behind the
slots. -/
theorem update_cases {pid : Pid} {raw : BitVec 32} {type : TypeId} {sync : Bool}
    {r : UpdateResult} (h : e.update dict pid raw type sync = some (e',r)) :
    e' = e ∨ (∃ n, e.setData n raw type = some e') ∨
    ∃ f e1, {e with syncCnt := e.syncCnt+1}.setSlot (e.slotsCnt+e.syncCnt+1)
        {e.slots (e.slotsCnt+e.syncCnt+1) with field := f} = some e1 ∧
      e1.setData (e.slotsCnt+e.syncCnt+1) raw type = some e' := by
  unfold TelemetryEncoder.update at h
  obtain ⟨idx,-,h⟩ := Option.bind_eq_some_iff.mp h
  cases idx with
  | some idx =>
    obtain ⟨e1,he1,h⟩ := Option.bind_eq_some_iff.mp h
    cases h
    exact Or.inr (Or.inl ⟨idx,he1⟩)
  | none =>
    dsimp only at h
    by_cases hsync : ¬ sync
    · rw [if_pos hsync] at h
      cases h
      exact Or.inl rfl
    rw [if_neg hsync] at h
    obtain ⟨i,-,h⟩ := Option.bind_eq_some_iff.mp h
    by_cases hpos : i < e.slotsCnt+e.syncCnt
    · rw [if_pos hpos] at h
      obtain ⟨e1,he1,h⟩ := Option.bind_eq_some_iff.mp h
      cases h
      exact Or.inr (Or.inl ⟨i,he1⟩)
    rw [if_neg hpos] at h
    by_cases hovf : e.slotsCnt+e.syncCnt ≥ slotsSize
    · rw [if_pos hovf] at h
      cases h
      exact Or.inl rfl
    rw [if_neg hovf] at h
    by_cases haux : (dict.fmt (pid.uid.setWidth 16)).ds = dsAux
    · rw [if_pos haux] at h
      cases h
      exact Or.inl rfl
    rw [if_neg haux] at h
    obtain ⟨s,hs,h⟩ := Option.bind_eq_some_iff.mp h
    obtain ⟨-,rfl⟩ := slot_some hs
    obtain ⟨e1,he1,h⟩ := Option.bind_eq_some_iff.mp h
    obtain ⟨e2,he2,h⟩ := Option.bind_eq_some_iff.mp h
    cases h
    exact Or.inr (Or.inr ⟨_,e1,he1,he2⟩)

theorem update_sameTable {pid : Pid} {raw : BitVec 32} {type : TypeId} {sync : Bool}
    {r : UpdateResult} (h : e.update dict pid raw type sync = some (e',r)) : SameTable e e' := by
  rcases update_cases h with rfl | ⟨n,hn⟩ | ⟨f,e1,h1,h2⟩
  · exact SameTable.refl _
  · exact setData_sameTable hn
  · have h0 : SameTable e {e with syncCnt := e.syncCnt+1} := ⟨rfl,rfl,rfl,rfl,fun _ _ => rfl⟩
    have h1 := setSlot_sameTable h1 fun hlt => by
      dsimp only at hlt
      omega
    exact (h0.trans h1).trans (setData_sameTable h2)

theorem processedUpTo_field {garbage : Nat → BitVec 32} {pseq : Byte} (index stop : Nat)
    (slots : Nat → EncSlot) (i : Nat) :
    (processedUpTo casts garbage pseq index stop slots i).field = (slots i).field := by
  unfold processedUpTo
  split_ifs
  · exact processed_field _ _
  · rfl

theorem enforced_field (slots : Nat → EncSlot) (n i : Nat) :
    (Function.update slots n (enforced (slots n)) i).field = (slots i).field := by
  by_cases hi : i = n
  · rw [hi,Function.update_self]
    rfl
  · rw [Function.update_of_ne hi]

theorem encode_sameTable {garbage : Nat → BitVec 32} {stream : Writer} {pseq : Byte}
    {ts : BitVec 64} {s : EncodeState} (h : e.encode casts garbage stream pseq ts = some s) :
    SameTable e s.enc := by
  obtain ⟨n,stop,-,-,-,-,-,he,-⟩ := encode_spec h
  rw [he]
  refine ⟨rfl,rfl,rfl,rfl,fun i _ => ?_⟩
  rw [processedUpTo_field,enforced_field]

theorem clear_inv (dict : Dictionary) (e : TelemetryEncoder) : Inv dict e.clear where
  cnt_le := Nat.zero_le _
  before := fun _ j _ hj => absurd hj (Nat.not_lt_zero j)
  inj := fun i _ hi => absurd hi (Nat.not_lt_zero i)
  upd_le := Nat.le_refl _
  upd := fun i hi => absurd hi (Nat.not_lt_zero i)
  hash := rfl
  xpdr := fun _ => Or.inr ⟨fun j hj => absurd hj (Nat.not_lt_zero j),rfl⟩

section Inserted
variable {f : Field} {k : Nat}

theorem insertAt_of_lt {α : Type} (s : Nat → α) (n : Nat) (x : α) {i : Nat} (h : i < k) :
    insertAt s n k x i = s i := if_pos h

theorem insertAt_self {α : Type} (s : Nat → α) (n : Nat) (x : α) : insertAt s n k x k = x := by
  rw [insertAt,if_neg (Nat.lt_irrefl k),if_pos rfl]

theorem insertAt_of_gt {α : Type} (s : Nat → α) {n : Nat} (x : α) {i : Nat} (h : k < i)
    (hn : i ≤ n) : insertAt s n k x i = s (i-1) := by
  rw [insertAt,if_neg (by omega),if_neg (by omega),if_pos hn]

theorem Inserted.cases (h : Inserted dict e f e' k) {i : Nat} (hi : i < e'.slotsCnt) :
    (i = k ∧ e'.slots i = EncSlot.new f) ∨ (i < k ∧ e'.slots i = e.slots i) ∨
      (k < i ∧ i-1 < e.slotsCnt ∧ e'.slots i = e.slots (i-1)) := by
  have hle := h.le
  rw [h.slotsCnt] at hi
  rw [h.slots]
  rcases Nat.lt_trichotomy i k with hlt | rfl | hgt
  · exact Or.inr (Or.inl ⟨hlt,insertAt_of_lt _ _ _ hlt⟩)
  · exact Or.inl ⟨rfl,insertAt_self _ _ _⟩
  · exact Or.inr (Or.inr ⟨hgt,by omega,insertAt_of_gt _ _ hgt (by omega)⟩)

theorem Inserted.kept (h : Inserted dict e f e' k) {i : Nat} (hi : i < e.slotsCnt) :
    ∃ j < e'.slotsCnt, e'.slots j = e.slots i := by
  rw [h.slots,h.slotsCnt]
  by_cases hlt : i < k
  · exact ⟨i,by omega,insertAt_of_lt _ _ _ hlt⟩
  · exact ⟨i+1,by omega,insertAt_of_gt _ _ (by omega) (by omega)⟩

theorem Inserted.sorted (h : Inserted dict e f e' k) (hs : e.Sorted)
    (hc : e.slotsCnt < slotsSize) (hno : ∀ i < e.slotsCnt, (e.slots i).field.pid.uid ≠ f.pid.uid) :
    e'.Sorted where
  cnt_le := h.slotsCnt ▸ hc
  before := fun i j hij hj => by
    have hle := h.le
    rcases h.cases (hij.trans hj) with ⟨rfl,hi'⟩ | ⟨hik,hi'⟩ | ⟨hik,hi1,hi'⟩ <;>
      rcases h.cases hj with ⟨hjk,hj'⟩ | ⟨hjk,hj'⟩ | ⟨hjk,hj1,hj'⟩ <;> rw [hi',hj']
    · omega
    · omega
    · exact h.after (j-1) (by omega) hj1
    · exact h.before i hik
    · exact hs.before i j hij (by omega)
    · exact hs.before i (j-1) (by omega) hj1
    · omega
    · omega
    · exact hs.before (i-1) (j-1) (by omega) hj1
  inj := fun i j hi hj huid => by
    have hle := h.le
    rcases h.cases hi with ⟨hik,hi'⟩ | ⟨hik,hi'⟩ | ⟨hik,hi1,hi'⟩ <;>
      rcases h.cases hj with ⟨hjk,hj'⟩ | ⟨hjk,hj'⟩ | ⟨hjk,hj1,hj'⟩ <;> rw [hi',hj'] at huid
    · omega
    · exact absurd huid.symm (hno j (by omega))
    · exact absurd huid.symm (hno (j-1) hj1)
    · exact absurd huid (hno i (by omega))
    · exact hs.inj i j (by omega) (by omega) huid
    · have := hs.inj i (j-1) (by omega) hj1 huid
      omega
    · exact absurd huid (hno (i-1) hi1)
    · have := hs.inj (i-1) j hi1 (by omega) huid
      omega
    · have := hs.inj (i-1) (j-1) hi1 hj1 huid
      omega

theorem Inserted.inv (h : Inserted dict e f e' k) (hi : Inv dict e)
    (hc : e.slotsCnt < slotsSize) (hno : ∀ i < e.slotsCnt, (e.slots i).field.pid.uid ≠ f.pid.uid) :
    Inv dict e' where
  toSorted := h.sorted hi.toSorted hc hno
  upd_le := h.upd_le
  upd := fun _ hlt => (h.sorted hi.toSorted hc hno).lt_stop_iff h.upd_lt h.upd_stop hlt
  hash := h.hash
  xpdr := fun i => by
    rcases h.xpdr i with hf | ⟨hno',hsame⟩
    · exact Or.inl hf
    · refine Or.inr ⟨hno',?_⟩
      rcases hi.xpdr i with ⟨j,hj,huid,-⟩ | ⟨-,hff⟩
      · obtain ⟨j',hj',hslot⟩ := h.kept hj
        exact absurd (hslot ▸ huid) (hno' j' hj')
      · rw [hsame,hff]

end Inserted

theorem Inv.add (h : Inv dict e) {field : Field} {r : Bool}
    (hadd : e.add dict field = some (e',r)) : Inv dict e' := by
  have h0 : SameTable e {e with insertedIndex := none} := ⟨rfl,rfl,rfl,rfl,fun _ _ => rfl⟩
  rcases h.toSorted.add_spec dict field with ⟨-,heq⟩ | ⟨-,-,heq⟩ | ⟨hlt,hno,k,e1,heq,hins⟩
  all_goals
    rw [heq] at hadd
    cases hadd
  · exact h0.inv h
  · exact h0.inv h
  · exact hins.inv h hlt hno

theorem moveData_sameTable {s : EncSlot} (h : moveData s e = some e') : SameTable e e' := by
  unfold moveData at h
  cases hd : e.insertedIndex with
  | none =>
    rw [hd] at h
    cases h
    exact SameTable.refl e
  | some dest =>
    rw [hd] at h
    obtain ⟨d,hslot,h⟩ := Option.bind_eq_some_iff.mp h
    obtain ⟨-,rfl⟩ := slot_some hslot
    exact setSlot_sameTable h fun _ => rfl

theorem flushLoop_induct {P : TelemetryEncoder → Prop}
    (hadd : ∀ e e1 f r, P e → e.add dict f = some (e1,r) → P e1)
    (hmove : ∀ e e1 s, P e → moveData s e = some e1 → P e1) (h : P e) {n i : Nat}
    (hf : flushLoop dict n i e = some e') : P e' := by
  induction n generalizing e i with
  | zero =>
    cases hf
    exact h
  | succ n ih =>
    rw [flushLoop] at hf
    obtain ⟨s,-,hf⟩ := Option.bind_eq_some_iff.mp hf
    obtain ⟨⟨e1,added⟩,he1,hf⟩ := Option.bind_eq_some_iff.mp hf
    have h1 := hadd e e1 s.field added h he1
    dsimp only at hf
    cases added with
    | false =>
      cases hf
      exact h1
    | true =>
      rw [if_neg (by decide)] at hf
      obtain ⟨e2,he2,hf⟩ := Option.bind_eq_some_iff.mp hf
      exact ih (hmove e1 e2 s h1 he2) hf

theorem Inv.flushLoop (h : Inv dict e) {n i : Nat} (hf : flushLoop dict n i e = some e') :
    Inv dict e' :=
  flushLoop_induct (fun _ _ _ _ h hadd => h.add hadd)
    (fun _ _ _ h hmove => (moveData_sameTable hmove).inv h) h hf

theorem Inv.syncFlush (h : Inv dict e) (hf : e.syncFlush dict = some e') : Inv dict e' := by
  obtain ⟨e1,he1,hf⟩ := Option.bind_eq_some_iff.mp hf
  cases hf
  have h0 : SameTable e1 {e1 with syncCnt := 0} := ⟨rfl,rfl,rfl,rfl,fun _ _ => rfl⟩
  exact h0.inv (h.flushLoop he1)

theorem Inv.step (h : Inv dict e) {op : Op} (hs : step dict casts e op = some e') :
    Inv dict e' := by
  cases op with
  | add field =>
    obtain ⟨⟨e1,r⟩,hadd,rfl⟩ := Option.map_eq_some_iff.mp hs
    exact h.add hadd
  | clear =>
    cases hs
    exact clear_inv dict e
  | update pid raw type sync =>
    obtain ⟨⟨e1,r⟩,hupd,rfl⟩ := Option.map_eq_some_iff.mp hs
    exact (update_sameTable hupd).inv h
  | syncFlush => exact h.syncFlush hs
  | encode garbage stream pseq ts =>
    obtain ⟨s,henc,rfl⟩ := Option.map_eq_some_iff.mp hs
    exact (encode_sameTable henc).inv h

theorem Inv.run (h : Inv dict e) {ops : List Op} (hr : run dict casts e ops = some e') :
    Inv dict e' := by
  induction ops generalizing e with
  | nil =>
    cases hr
    exact h
  | cons op ops ih =>
    obtain ⟨e1,h1,hr⟩ := run_cons hr
    exact ih (h.step h1) hr

theorem setSlot_enforced {i : Nat} {s : EncSlot} (h : e.setSlot i s = some e') :
    e'.enforcedUpd = e.enforcedUpd := by
  obtain ⟨-,rfl⟩ := setSlot_some h
  rfl

theorem update_enforced {pid : Pid} {raw : BitVec 32} {type : TypeId} {sync : Bool}
    {r : UpdateResult} (h : e.update dict pid raw type sync = some (e',r)) :
    e'.enforcedUpd = e.enforcedUpd := by
  rcases update_cases h with rfl | ⟨n,hn⟩ | ⟨f,e1,h1,h2⟩
  · rfl
  · obtain ⟨upd,hs,-⟩ := setData_spec hn
    exact setSlot_enforced hs
  · obtain ⟨upd,hs,-⟩ := setData_spec h2
    have hkept := setSlot_enforced h1
    exact (setSlot_enforced hs).trans hkept

theorem Sorted.add_enforced (h : e.Sorted) {field : Field} {r : Bool}
    (hadd : e.add dict field = some (e',r)) : e'.enforcedUpd = e.enforcedUpd := by
  rcases h.add_spec dict field with ⟨-,heq⟩ | ⟨-,-,heq⟩ | ⟨-,-,k,e1,heq,hins⟩
  all_goals
    rw [heq] at hadd
    cases hadd
  · rfl
  · rfl
  · exact hins.enforcedUpd

theorem moveData_enforced {s : EncSlot} (h : moveData s e = some e') :
    e'.enforcedUpd = e.enforcedUpd := by
  unfold moveData at h
  cases hd : e.insertedIndex with
  | none =>
    rw [hd] at h
    cases h
    rfl
  | some dest =>
    rw [hd] at h
    obtain ⟨d,-,h⟩ := Option.bind_eq_some_iff.mp h
    exact setSlot_enforced h

theorem Inv.flushLoop_enforced (h : Inv dict e) {n i : Nat}
    (hf : TelemetryEncoder.flushLoop dict n i e = some e') : e'.enforcedUpd = e.enforcedUpd := by
  refine (flushLoop_induct (P := fun e1 => Inv dict e1 ∧ e1.enforcedUpd = e.enforcedUpd)
    (fun e1 e2 f r h1 hadd => ?_) (fun e1 e2 s h1 hmove => ?_) ⟨h,rfl⟩ hf).2
  · exact ⟨h1.1.add hadd,(h1.1.toSorted.add_enforced hadd).trans h1.2⟩
  · exact ⟨(moveData_sameTable hmove).inv h1.1,(moveData_enforced hmove).trans h1.2⟩

theorem Inv.step_enforced (h : Inv dict e) (hlt : e.enforcedUpd < slotsSize) {op : Op}
    (hs : TelemetryEncoder.step dict casts e op = some e') : e'.enforcedUpd < slotsSize := by
  cases op with
  | add field =>
    obtain ⟨⟨e1,r⟩,hadd,rfl⟩ := Option.map_eq_some_iff.mp hs
    exact (h.toSorted.add_enforced hadd).trans_lt hlt
  | clear =>
    cases hs
    exact hlt
  | update pid raw type sync =>
    obtain ⟨⟨e1,r⟩,hupd,rfl⟩ := Option.map_eq_some_iff.mp hs
    exact (update_enforced hupd).trans_lt hlt
  | syncFlush =>
    obtain ⟨e1,he1,hf⟩ := Option.bind_eq_some_iff.mp hs
    cases hf
    exact (h.flushLoop_enforced he1).trans_lt hlt
  | encode garbage stream pseq ts =>
    obtain ⟨s,henc,rfl⟩ := Option.map_eq_some_iff.mp hs
    obtain ⟨n,stop,-,hn,-,-,-,he,-⟩ := encode_spec henc
    have hc := h.cnt_le
    rw [he]
    dsimp only
    rcases hn with rfl | hn
    · decide
    · omega

theorem Inv.run_enforced (h : Inv dict e) (hlt : e.enforcedUpd < slotsSize) {ops : List Op}
    (hr : TelemetryEncoder.run dict casts e ops = some e') : e'.enforcedUpd < slotsSize := by
  induction ops generalizing e with
  | nil =>
    cases hr
    exact hlt
  | cons op ops ih =>
    obtain ⟨e1,h1,hr⟩ := run_cons hr
    exact ih (h.step h1) (h.step_enforced hlt h1) hr

theorem Inv.upd_count (h : Inv dict e) : e.slotsUpdCnt =
    (List.range e.slotsCnt).countP fun i => (e.slots i).field.fmt ≠ Fmt.bit.code := by
  obtain ⟨d,hd⟩ := Nat.exists_eq_add_of_le h.upd_le
  have hle := h.upd_le
  rw [hd,List.range_add,List.countP_append,List.countP_eq_length.mpr fun i hi => ?_,
    List.countP_eq_zero.mpr fun i hi => ?_,List.length_range,Nat.add_zero]
  · obtain ⟨j,hj,rfl⟩ := List.mem_map.mp hi
    have hlt := List.mem_range.mp hj
    have hn := mt (h.upd (e.slotsUpdCnt+j) (by omega)).mpr (by omega)
    simpa using hn
  · have hlt := List.mem_range.mp hi
    exact decide_eq_true ((h.upd i (by omega)).mp hlt)

theorem Inv.xpdr_index (h : Inv dict e) (i : Fin xpdrDatasetSize) :
    (∃ j < e.slotsCnt, (e.slots j).field.pid.uid.setWidth 16 = (xpdrDataset dict i).uid ∧
      (e.xpdrSlotIdx i).toNat = j) ∨
    (∀ j < e.slotsCnt, (e.slots j).field.pid.uid.setWidth 16 ≠ (xpdrDataset dict i).uid) ∧
      e.slotsCnt ≤ (e.xpdrSlotIdx i).toNat := by
  have hc : e.slotsCnt ≤ 240 := h.cnt_le
  rcases h.xpdr i with ⟨j,hj,huid,hidx⟩ | ⟨hno,hidx⟩
  · refine Or.inl ⟨j,hj,huid,?_⟩
    rw [hidx,BitVec.toNat_ofNat]
    omega
  · refine Or.inr ⟨hno,?_⟩
    rw [hidx,show (0xFF#8).toNat = 255 from rfl]
    omega

/-- In every run: the table is sorted and without duplicates, the boundary counts the fields that
are no bitfields, the hash is that of the table, and the index finds the transponder fields. -/
theorem run_represented {ops : List Op} (h : run dict casts init ops = some e) :
    e.Sorted ∧
    (e.slotsUpdCnt =
      (List.range e.slotsCnt).countP fun i => (e.slots i).field.fmt ≠ Fmt.bit.code) ∧
    e.hash.hash = crc32 e.table (3*e.slotsCnt) (fmtVersion.setWidth 32) ∧
    ∀ i, (∃ j < e.slotsCnt, (e.slots j).field.pid.uid.setWidth 16 = (xpdrDataset dict i).uid ∧
        (e.xpdrSlotIdx i).toNat = j) ∨
      (∀ j < e.slotsCnt, (e.slots j).field.pid.uid.setWidth 16 ≠ (xpdrDataset dict i).uid) ∧
        e.slotsCnt ≤ (e.xpdrSlotIdx i).toNat := by
  have hi := Inv.run (clear_inv dict _) h
  refine ⟨hi.toSorted,hi.upd_count,?_,hi.xpdr_index⟩
  rw [hi.hash,Hash.hash_ofWord,tableHash,table_length]

theorem run_represented_two :
    ∃ e, run ⟨fun _ => ⟨1#3,3#6,0#2⟩,1#16,2#16,3#16,4#16,5#16,6#16,7#16,8#16⟩
      ⟨id,id,fun _ => 0#16,fun _ => 0#8⟩ init
      [.add ⟨⟨5#11,0#3,0#2⟩,Fmt.bit.code⟩,.add ⟨⟨9#11,0#3,0#2⟩,Fmt.u8.code⟩,
        .update ⟨9#11,0#3,0#2⟩ 17#32 .dword false] = some e ∧
    e.slotsCnt = 2 ∧ e.Sorted ∧ e.slotsUpdCnt =
      (List.range e.slotsCnt).countP fun i => (e.slots i).field.fmt ≠ Fmt.bit.code := by
  have hcnt : (run ⟨fun _ => ⟨1#3,3#6,0#2⟩,1#16,2#16,3#16,4#16,5#16,6#16,7#16,8#16⟩
      ⟨id,id,fun _ => 0#16,fun _ => 0#8⟩ init
      [.add ⟨⟨5#11,0#3,0#2⟩,Fmt.bit.code⟩,.add ⟨⟨9#11,0#3,0#2⟩,Fmt.u8.code⟩,
        .update ⟨9#11,0#3,0#2⟩ 17#32 .dword false]).map slotsCnt = some 2 := by decide +kernel
  obtain ⟨e,he,hc⟩ := Option.map_eq_some_iff.mp hcnt
  obtain ⟨hs,hu,-⟩ := run_represented he
  exact ⟨e,he,hc,hs,hu⟩

end TelemetryEncoder

end ApxBus.Telemetry
