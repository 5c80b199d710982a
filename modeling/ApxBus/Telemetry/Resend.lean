import ApxBus.Telemetry.PendingSync
set_option autoImplicit false

/-! Which changed values are sent, with `packed` changed on purpose to send values again. -/

namespace ApxBus.Telemetry
open Function Mandala Real32

/-- Beside the encoder: the packed value of each field that was sent last, and how often the field
was marked since to be sent again. -/
structure SendLog where
  sent : BitVec 11 → BitVec 32
  marks : BitVec 11 → Nat

namespace SendLog

def empty : SendLog := ⟨fun _ => 0#32,fun _ => 0⟩

def record (uid : Nat → BitVec 11) (l : SendLog) (x : Nat × BitVec 32) : SendLog :=
  ⟨update l.sent (uid x.1) x.2,update l.marks (uid x.1) 0⟩

/-- The mark of `encode`, if it is in the table. -/
def mark (e : TelemetryEncoder) (l : SendLog) : SendLog :=
  let uid := (e.slots e.enforcedUpd).field.pid.uid
  if e.enforcedUpd < e.slotsCnt then {l with marks := update l.marks uid (l.marks uid+1)} else l

def encode (e : TelemetryEncoder) (s : TelemetryEncoder.EncodeState) (l : SendLog) : SendLog :=
  s.sent.foldl (record fun i => (e.slots i).field.pid.uid) (l.mark e)

variable {uid : Nat → BitVec 11} {n : Nat}

theorem record_range (hinj : ∀ i j, i < n → j < n → uid i = uid j → i = j) (P : Nat → Prop)
    [DecidablePred P] (raw : Nat → BitVec 32) (l : SendLog) {stop : Nat} (hs : stop ≤ n) {i : Nat}
    (hi : i < n) :
    let l' := ((List.range stop).flatMap fun j => if P j then [(j,raw j)] else []).foldl
      (record uid) l
    l'.sent (uid i) = (if i < stop ∧ P i then raw i else l.sent (uid i)) ∧
      l'.marks (uid i) = if i < stop ∧ P i then 0 else l.marks (uid i) := by
  induction stop with
  | zero => simp
  | succ stop ih =>
    obtain ⟨hsent,hmarks⟩ := ih (by omega)
    dsimp only
    rw [List.range_succ,List.flatMap_append,List.foldl_append,List.flatMap_singleton]
    by_cases hP : P stop
    · rw [if_pos hP,List.foldl_cons,List.foldl_nil,record]
      dsimp only
      by_cases his : i = stop
      · subst his
        rw [update_self,update_self,if_pos ⟨Nat.lt_succ_self i,hP⟩,
          if_pos ⟨Nat.lt_succ_self i,hP⟩]
        exact ⟨rfl,rfl⟩
      · have hne : uid i ≠ uid stop := fun h => his (hinj i stop hi (by omega) h)
        rw [update_of_ne hne,update_of_ne hne,hsent,hmarks]
        have hlt : i < stop+1 ↔ i < stop := by omega
        simp only [hlt]
        exact ⟨trivial,trivial⟩
    · rw [if_neg hP,List.foldl_nil,hsent,hmarks]
      have hlt : i < stop+1 ∧ P i ↔ i < stop ∧ P i := by
        refine ⟨fun ⟨h,hPi⟩ => ⟨?_,hPi⟩,fun ⟨h,hPi⟩ => ⟨by omega,hPi⟩⟩
        have hne : i ≠ stop := fun h => hP (h ▸ hPi)
        omega
      simp only [hlt]
      exact ⟨trivial,trivial⟩

theorem record_other {u : BitVec 11} (x : List (Nat × BitVec 32)) (l : SendLog)
    (hx : ∀ y ∈ x, uid y.1 ≠ u) :
    (x.foldl (record uid) l).sent u = l.sent u ∧ (x.foldl (record uid) l).marks u = l.marks u := by
  induction x generalizing l with
  | nil => exact ⟨rfl,rfl⟩
  | cons y x ih =>
    obtain ⟨hsent,hmarks⟩ := ih (record uid l y) fun z hz => hx z (List.mem_cons_of_mem y hz)
    have hne : u ≠ uid y.1 := (hx y List.mem_cons_self).symm
    rw [List.foldl_cons,hsent,hmarks,record]
    exact ⟨update_of_ne hne _ _,update_of_ne hne _ _⟩

end SendLog

namespace TelemetryEncoder

/-- A call between `clear` and the next, without a flush; the packed values are compared with
nothing but zero in the bytes that `pack_value` does not write. -/
def Op.Plain : Op → Prop
  | .add _ | .update .. => True
  | .encode garbage .. => garbage = fun _ => 0#32
  | .clear | .syncFlush => False

def stepLogged (dict : Dictionary) (casts : Casts) (x : TelemetryEncoder × SendLog) :
    Op → Option (TelemetryEncoder × SendLog)
  | .encode garbage stream pseq ts =>
    (x.1.encode casts garbage stream pseq ts).map fun s => (s.enc,x.2.encode x.1 s)
  | op => (step dict casts x.1 op).map fun e => (e,x.2)

def runLogged (dict : Dictionary) (casts : Casts) (x : TelemetryEncoder × SendLog)
    (ops : List Op) : Option (TelemetryEncoder × SendLog) :=
  ops.foldlM (stepLogged dict casts) x

variable {dict : Dictionary} {casts : Casts} {e e' : TelemetryEncoder} {l l' : SendLog}

theorem stepLogged_fst (x : TelemetryEncoder × SendLog) (op : Op) :
    (stepLogged dict casts x op).map Prod.fst = step dict casts x.1 op := by
  have hfst : ∀ o : Option TelemetryEncoder, (o.map fun e => (e,x.2)).map Prod.fst = o := by
    intro o
    cases o <;> rfl
  cases op with
  | encode garbage stream pseq ts =>
    rw [stepLogged,step,Option.map_map]
    rfl
  | add field => exact hfst (step dict casts x.1 (.add field))
  | clear => exact hfst (step dict casts x.1 .clear)
  | update pid raw type sync => exact hfst (step dict casts x.1 (.update pid raw type sync))
  | syncFlush => exact hfst (step dict casts x.1 .syncFlush)

theorem runLogged_fst (x : TelemetryEncoder × SendLog) (ops : List Op) :
    (runLogged dict casts x ops).map Prod.fst = run dict casts x.1 ops := by
  induction ops generalizing x with
  | nil => rfl
  | cons op ops ih =>
    unfold runLogged run
    rw [List.foldlM_cons,List.foldlM_cons,← stepLogged_fst]
    cases stepLogged dict casts x op with
    | none => rfl
    | some y => exact ih y

def shift (n : Nat) : BitVec 32 := BitVec.ofNat 32 n*0x01010101#32

theorem shift_succ (n : Nat) : shift (n+1) = shift n+0x01010101#32 := by
  rw [shift,BitVec.ofNat_add,BitVec.add_mul,BitVec.one_mul]
  rfl

/-- Each packed value is the one sent last, moved once by each mark since. -/
structure Logged (dict : Dictionary) (e : TelemetryEncoder) (l : SendLog) : Prop where
  inv : Inv dict e
  packed : ∀ i < e.slotsCnt, (e.slots i).packed =
    l.sent (e.slots i).field.pid.uid+shift (l.marks (e.slots i).field.pid.uid)
  other : ∀ uid, ¬ e.Has uid → l.sent uid = 0#32 ∧ l.marks uid = 0

theorem clear_logged (e : TelemetryEncoder) : Logged dict e.clear SendLog.empty :=
  ⟨clear_inv dict e,fun i hi => absurd hi (Nat.not_lt_zero i),fun _ _ => ⟨rfl,rfl⟩⟩

theorem Logged.congr (h : Logged dict e l) (hs : SameTable e e')
    (hp : ∀ i < e.slotsCnt, (e'.slots i).packed = (e.slots i).packed) : Logged dict e' l := by
  refine ⟨hs.inv h.inv,fun i hi => ?_,fun uid hu => h.other uid (mt (hs.has_iff uid).mpr hu)⟩
  rw [hs.slotsCnt] at hi
  rw [hp i hi,hs.field i hi]
  exact h.packed i hi

theorem Logged.add (h : Logged dict e l) {field : Field} {r : Bool}
    (hadd : e.add dict field = some (e',r)) : Logged dict e' l := by
  have hinv := h.inv.add hadd
  have h0 : SameTable e {e with insertedIndex := none} := ⟨rfl,rfl,rfl,rfl,fun _ _ => rfl⟩
  rcases h.inv.toSorted.add_spec dict field with ⟨-,heq⟩ | ⟨-,-,heq⟩ | ⟨hlt,hno,k,e1,heq,hins⟩
  all_goals
    rw [heq] at hadd
    cases hadd
  · exact h.congr h0 fun _ _ => rfl
  · exact h.congr h0 fun _ _ => rfl
  · refine ⟨hinv,fun i hi => ?_,fun uid hu => h.other uid ?_⟩
    · rcases hins.cases hi with ⟨-,hslot⟩ | ⟨hik,hslot⟩ | ⟨-,hi1,hslot⟩
      · have hnew : ¬ e.Has field.pid.uid := by
          rintro ⟨j,hj,huid⟩
          exact hno j hj huid
        obtain ⟨hsent,hmarks⟩ := h.other _ hnew
        rw [hslot]
        show 0#32 = l.sent field.pid.uid+shift (l.marks field.pid.uid)
        rw [hsent,hmarks]
        rfl
      · rw [hslot]
        exact h.packed i (Nat.lt_of_lt_of_le hik hins.le)
      · rw [hslot]
        exact h.packed (i-1) hi1
    · rintro ⟨j,hj,rfl⟩
      obtain ⟨j',hj',hslot⟩ := hins.kept hj
      exact hu ⟨j',hj',by rw [hslot]⟩

theorem setData_packed {n : Nat} {raw : BitVec 32} {type : TypeId}
    (h : e.setData n raw type = some e') (i : Nat) :
    (e'.slots i).packed = (e.slots i).packed := by
  obtain ⟨upd,hs,-⟩ := setData_spec h
  obtain ⟨-,rfl⟩ := setSlot_some hs
  dsimp only
  by_cases hi : i = n
  · rw [hi,Function.update_self]
  · rw [Function.update_of_ne hi]

theorem update_packed {pid : Pid} {raw : BitVec 32} {type : TypeId} {sync : Bool}
    {r : UpdateResult} (h : e.update dict pid raw type sync = some (e',r)) (i : Nat) :
    (e'.slots i).packed = (e.slots i).packed := by
  rcases update_cases h with rfl | ⟨n,hn⟩ | ⟨f,e1,h1,h2⟩
  · rfl
  · exact setData_packed hn i
  · obtain ⟨-,rfl⟩ := setSlot_some h1
    rw [setData_packed h2]
    dsimp only
    by_cases hi : i = e.slotsCnt+e.syncCnt+1
    · rw [hi,Function.update_self]
    · rw [Function.update_of_ne hi]

section Encode
variable {pseq : Byte} {stream : Writer} {ts : BitVec 64} {s : EncodeState} {i : Nat}

theorem Logged.marked (h : Logged dict e l) (hi : i < e.slotsCnt) :
    (e.marked i).packed = l.sent (e.slots i).field.pid.uid+
      shift ((l.mark e).marks (e.slots i).field.pid.uid) := by
  unfold SendLog.mark
  rcases e.marked_cases i with ⟨rfl,hm⟩ | ⟨hne,hm⟩
  · dsimp only
    rw [hm,if_pos hi]
    dsimp only
    rw [Function.update_self,shift_succ,← BitVec.add_assoc,← h.packed _ hi]
    rfl
  · dsimp only
    rw [hm,h.packed i hi]
    split_ifs with hlt
    · have huid : (e.slots i).field.pid.uid ≠ (e.slots e.enforcedUpd).field.pid.uid :=
        fun huid => hne (h.inv.inj _ _ hi hlt huid)
      dsimp only
      rw [Function.update_of_ne huid]
    · rfl

theorem mark_sent (e : TelemetryEncoder) (l : SendLog) : (l.mark e).sent = l.sent := by
  unfold SendLog.mark
  dsimp only
  split_ifs <;> rfl

theorem encode_log (hi : Inv dict e)
    (h : e.encode casts (fun _ => 0#32) stream pseq ts = some s) (hlt : i < e.slotsCnt)
    (hne : (e.slots i).field.fmt ≠ Fmt.bit.code) :
    s.enc.slots i = processed casts 0#32 pseq (e.marked i) ∧
    (l.encode e s).sent (e.slots i).field.pid.uid =
      (if Sends casts 0#32 pseq (e.marked i) then rawOf casts 0#32 (e.slots i)
        else l.sent (e.slots i).field.pid.uid) ∧
    (l.encode e s).marks (e.slots i).field.pid.uid =
      if Sends casts 0#32 pseq (e.marked i) then 0
        else (l.mark e).marks (e.slots i).field.pid.uid := by
  obtain ⟨n,stop,-,-,hstop,hno,hbit,henc,hsent⟩ := encode_spec h
  have his := (hi.lt_stop_iff hno hbit hlt).mpr hne
  obtain ⟨hs,hm⟩ := SendLog.record_range hi.inj (fun j => Sends casts 0#32 pseq (e.marked j))
    (fun j => rawOf casts 0#32 (e.marked j)) (l.mark e) hstop hlt
  refine ⟨?_,?_,?_⟩
  · rw [henc]
    exact if_pos ⟨Nat.zero_le i,his⟩
  · rw [SendLog.encode,hsent]
    refine hs.trans ?_
    rw [rawOf_marked,mark_sent]
    simp only [his,true_and]
  · rw [SendLog.encode,hsent]
    refine hm.trans ?_
    simp only [his,true_and]

theorem encode_log_other
    (h : e.encode casts (fun _ => 0#32) stream pseq ts = some s) :
    (∀ i < e.slotsCnt, (e.slots i).field.fmt = Fmt.bit.code → s.enc.slots i = e.marked i) ∧
    ∀ uid, (∀ i < e.slotsCnt, (e.slots i).field.fmt ≠ Fmt.bit.code →
        (e.slots i).field.pid.uid ≠ uid) →
      (l.encode e s).sent uid = l.sent uid ∧ (l.encode e s).marks uid = (l.mark e).marks uid := by
  obtain ⟨n,stop,-,-,hstop,hno,hbit,henc,hsent⟩ := encode_spec h
  refine ⟨fun i hlt hb => ?_,fun uid hu => ?_⟩
  · have his : ¬ i < stop := fun his => hno i his hb
    rw [henc]
    exact if_neg fun hc => his hc.2
  · rw [SendLog.encode,hsent,← mark_sent e l]
    refine SendLog.record_other _ _ fun y hy => ?_
    obtain ⟨j,hj,hy⟩ := List.mem_flatMap.mp hy
    have hjs := List.mem_range.mp hj
    unfold sentNow at hy
    split_ifs at hy
    · rw [List.mem_singleton.mp hy]
      exact hu j (by omega) (hno j hjs)
    · exact absurd hy (List.not_mem_nil)

theorem Logged.encode (h : Logged dict e l)
    (he : e.encode casts (fun _ => 0#32) stream pseq ts = some s) :
    Logged dict s.enc (l.encode e s) := by
  have hs := encode_sameTable he
  obtain ⟨hbits,hother⟩ := encode_log_other (l := l) he
  refine ⟨hs.inv h.inv,fun i hi => ?_,fun uid hu => ?_⟩
  · rw [hs.slotsCnt] at hi
    rw [hs.field i hi]
    have hmarked := h.marked hi
    by_cases hb : (e.slots i).field.fmt = Fmt.bit.code
    · obtain ⟨hsent,hmarks⟩ := hother (e.slots i).field.pid.uid fun j hj hne huid => by
        have := h.inv.inj j i hj hi huid
        subst this
        exact hne hb
      rw [hbits i hi hb,hsent,hmarks]
      exact hmarked
    · obtain ⟨hslot,hsent,hmarks⟩ := encode_log (l := l) h.inv he hi hb
      rw [hslot,hsent,hmarks]
      by_cases hsend : Sends casts 0#32 pseq (e.marked i)
      · rw [if_pos hsend,if_pos hsend,processed,if_pos hsend.1]
        exact (rawOf_marked e i).trans (BitVec.add_zero _).symm
      · rw [if_neg hsend,if_neg hsend,← hmarked,processed]
        split_ifs with hf
        · exact (not_not.mp fun hne => hsend ⟨hf,hne⟩).symm
        · rfl
  · have hu' := mt (hs.has_iff uid).mpr hu
    obtain ⟨hsent,hmarks⟩ := hother uid fun i hi _ huid => hu' ⟨i,hi,huid⟩
    rw [hsent,hmarks,SendLog.mark]
    split_ifs with hlt
    · have huid : uid ≠ (e.slots e.enforcedUpd).field.pid.uid :=
        fun huid => hu' ⟨_,hlt,huid.symm⟩
      dsimp only
      rw [Function.update_of_ne huid]
      exact h.other uid hu'
    · exact h.other uid hu'

end Encode

theorem Logged.step (h : Logged dict e l) {op : Op} (hop : op.Plain)
    (hs : stepLogged dict casts (e,l) op = some (e',l')) : Logged dict e' l' := by
  cases op with
  | add field =>
    obtain ⟨e1,he1,hs⟩ := Option.map_eq_some_iff.mp hs
    obtain ⟨⟨e2,r⟩,hadd,rfl⟩ := Option.map_eq_some_iff.mp he1
    cases hs
    exact h.add hadd
  | clear => exact hop.elim
  | update pid raw type sync =>
    obtain ⟨e1,he1,hs⟩ := Option.map_eq_some_iff.mp hs
    obtain ⟨⟨e2,r⟩,hupd,rfl⟩ := Option.map_eq_some_iff.mp he1
    cases hs
    exact h.congr (update_sameTable hupd) fun i _ => update_packed hupd i
  | syncFlush => exact hop.elim
  | encode garbage stream pseq ts =>
    obtain ⟨s,henc,hs⟩ := Option.map_eq_some_iff.mp hs
    cases hs
    obtain rfl : garbage = fun _ => 0#32 := hop
    exact h.encode henc

theorem Logged.run (h : Logged dict e l) {ops : List Op} (hops : ∀ op ∈ ops, op.Plain)
    (hr : runLogged dict casts (e,l) ops = some (e',l')) : Logged dict e' l' := by
  induction ops generalizing e l with
  | nil =>
    cases hr
    exact h
  | cons op ops ih =>
    obtain ⟨⟨e1,l1⟩,h1,hr⟩ := Option.bind_eq_some_iff.mp hr
    exact ih (h.step (hops op List.mem_cons_self) h1)
      (fun op hop => hops op (List.mem_cons_of_mem _ hop)) hr

/-- In every run, when `encode` clears the flag of a value, the value it packs is the one sent last
unless it is the one sent before, moved by exactly the marks since. -/
theorem sent_current_iff {e0 : TelemetryEncoder} {ops : List Op} (hops : ∀ op ∈ ops, op.Plain)
    (hr : runLogged dict casts (e0.clear,SendLog.empty) ops = some (e,l)) {stream : Writer}
    {pseq : Byte} {ts : BitVec 64} {s : EncodeState}
    (he : e.encode casts (fun _ => 0#32) stream pseq ts = some s) {i : Nat} (hi : i < e.slotsCnt)
    (hne : (e.slots i).field.fmt ≠ Fmt.bit.code) (hp : passes (e.slots i).field pseq)
    (hu : (e.slots i).flags.upd = true ∨ i = e.enforcedUpd) :
    let uid := (e.slots i).field.pid.uid
    (l.encode e s).sent uid = rawOf casts 0#32 (s.enc.slots i) ↔
      ¬ (shift ((l.mark e).marks uid) ≠ 0#32 ∧
        rawOf casts 0#32 (e.slots i) = l.sent uid+shift ((l.mark e).marks uid)) := by
  have h := (clear_logged e0).run hops hr
  obtain ⟨hslot,hsent,-⟩ := encode_log (l := l) h.inv he hi hne
  have hmarked := h.marked hi
  have hf : flagged pseq (e.marked i) := by
    rcases e.marked_cases i with ⟨-,hm⟩ | ⟨hie,hm⟩
    · rw [hm]
      exact ⟨hp,rfl⟩
    · rw [hm]
      exact ⟨hp,hu.resolve_right hie⟩
  have hraw : rawOf casts 0#32 (s.enc.slots i) = rawOf casts 0#32 (e.slots i) := by
    rw [hslot,processed,if_pos hf,← rawOf_marked]
    rfl
  dsimp only
  rw [hsent,hraw,← hmarked]
  by_cases hsend : Sends casts 0#32 pseq (e.marked i)
  · rw [if_pos hsend]
    have hpk := hsend.2
    rw [rawOf_marked] at hpk
    exact ⟨fun _ hc => hpk hc.2.symm,fun _ => rfl⟩
  · rw [if_neg hsend]
    have hpk : (e.marked i).packed = rawOf casts 0#32 (e.slots i) := by
      rw [← rawOf_marked]
      exact not_not.mp fun hc => hsend ⟨hf,hc⟩
    rw [and_iff_left hpk.symm,not_not,← hpk,hmarked]
    exact ⟨fun h0 => BitVec.self_eq_add_right.mp h0,fun h0 => by rw [h0,BitVec.add_zero]⟩

def oneValue (raw : BitVec 32) : List Op :=
  [.add ⟨⟨9#11,0#3,0#2⟩,Fmt.u32.code⟩,.update ⟨9#11,0#3,0#2⟩ raw .dword false]

theorem oneValue_plain (raw : BitVec 32) : ∀ op ∈ oneValue raw, op.Plain :=
  List.forall_mem_cons.mpr ⟨trivial,List.forall_mem_cons.mpr ⟨trivial,List.forall_mem_nil _⟩⟩

theorem sent_current_iff_one : ∃ e l s,
    runLogged byteDict noCasts (init.clear,SendLog.empty) (oneValue 17#32) = some (e,l) ∧
    e.encode noCasts (fun _ => 0#32) ⟨List.replicate 9 0#8,0⟩ 0#8 0#64 = some s ∧
    (l.encode e s).sent (e.slots 0).field.pid.uid = rawOf noCasts 0#32 (s.enc.slots 0) := by
  have hmap : (runLogged byteDict noCasts (init.clear,SendLog.empty) (oneValue 17#32)).bind
      (fun x => (x.1.encode noCasts (fun _ => 0#32) ⟨List.replicate 9 0#8,0⟩ 0#8 0#64).map fun _ =>
        (x.1.slotsCnt,(x.1.slots 0).field,(x.1.slots 0).flags.upd,
          rawOf noCasts 0#32 (x.1.slots 0),x.2.sent 9#11,(x.2.mark x.1).marks 9#11)) =
      some (1,⟨⟨9#11,0#3,0#2⟩,Fmt.u32.code⟩,true,17#32,0#32,1) := by decide +kernel
  obtain ⟨⟨e,l⟩,hr,hmap⟩ := Option.bind_eq_some_iff.mp hmap
  obtain ⟨s,he,hv⟩ := Option.map_eq_some_iff.mp hmap
  simp only [Prod.mk.injEq] at hv
  obtain ⟨hcnt,hfield,hupd,hraw,hsent,hmarks⟩ := hv
  have hi : 0 < e.slotsCnt := hcnt ▸ Nat.one_pos
  refine ⟨e,l,s,hr,he,(sent_current_iff (oneValue_plain _) hr he hi ?_ ?_ (Or.inl hupd)).mpr ?_⟩
  · rw [hfield]
    decide
  · rw [hfield]
    decide
  · rw [hfield,hraw,hsent,hmarks]
    decide

/-- The first value of a field is what its mark makes of the zero it starts with. It is taken for
sent: the flag is cleared, and the receiver has nothing. -/
theorem first_value_dropped : ∃ e l s,
    (∀ op ∈ oneValue 0x01010101#32, op.Plain) ∧
    runLogged byteDict noCasts (init.clear,SendLog.empty) (oneValue 0x01010101#32) = some (e,l) ∧
    e.encode noCasts (fun _ => 0#32) ⟨List.replicate 9 0#8,0⟩ 0#8 0#64 = some s ∧
    e.slotsCnt = 1 ∧ (e.slots 0).field = ⟨⟨9#11,0#3,0#2⟩,Fmt.u32.code⟩ ∧
    passes (e.slots 0).field 0#8 ∧ (e.slots 0).flags.upd = true ∧
    (s.enc.slots 0).flags.upd = false ∧ s.sent = [] ∧
    rawOf noCasts 0#32 (s.enc.slots 0) = 0x01010101#32 ∧
    (l.encode e s).sent (e.slots 0).field.pid.uid ≠ rawOf noCasts 0#32 (s.enc.slots 0) := by
  have hmap : (runLogged byteDict noCasts (init.clear,SendLog.empty)
        (oneValue 0x01010101#32)).bind
      (fun x => (x.1.encode noCasts (fun _ => 0#32) ⟨List.replicate 9 0#8,0⟩ 0#8 0#64).map fun s =>
        ((x.1.slotsCnt,(x.1.slots 0).field,(x.1.slots 0).flags.upd),
          (s.enc.slots 0).flags.upd,s.sent.length,rawOf noCasts 0#32 (s.enc.slots 0),
          (x.2.encode x.1 s).sent 9#11)) =
      some ((1,⟨⟨9#11,0#3,0#2⟩,Fmt.u32.code⟩,true),false,0,0x01010101#32,0#32) := by
    decide +kernel
  obtain ⟨⟨e,l⟩,hr,hmap⟩ := Option.bind_eq_some_iff.mp hmap
  obtain ⟨s,he,hv⟩ := Option.map_eq_some_iff.mp hmap
  simp only [Prod.mk.injEq] at hv
  obtain ⟨⟨hcnt,hfield,hupd⟩,hclr,hlist,hraw,hsent⟩ := hv
  refine ⟨e,l,s,oneValue_plain _,hr,he,hcnt,hfield,?_,hupd,hclr,List.length_eq_zero_iff.mp hlist,
    hraw,
    ?_⟩
  · rw [hfield]
    decide
  · rw [hfield,hraw]
    dsimp only
    rw [hsent]
    decide

end TelemetryEncoder

end ApxBus.Telemetry
