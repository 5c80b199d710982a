import ApxBus.Telemetry.EncoderInvariant
set_option autoImplicit false

/-! What becomes of the fields that `update` keeps pending until `sync_flush`. -/

namespace ApxBus.Telemetry
open Function Mandala Real32

namespace TelemetryEncoder

/-- A call of `update` with `sync`. -/
structure SyncUpdate where
  pid : Pid
  raw : BitVec 32
  type : TypeId
  deriving DecidableEq, Repr

def syncUpdates (dict : Dictionary) (e : TelemetryEncoder) :
    List SyncUpdate → Option (TelemetryEncoder × List UpdateResult)
  | [] => some (e,[])
  | x :: us => do
    let (e,r) ← e.update dict x.pid x.raw x.type true
    let (e,rs) ← syncUpdates dict e us
    some (e,r :: rs)

def SyncedSlot (dict : Dictionary) (us : List SyncUpdate) (uid : BitVec 11) (s : EncSlot) : Prop :=
  s.field.pid.uid = uid ∧ s.field.pid.seq = (dict.fmt (uid.setWidth 16)).seq ∧
  s.field.fmt = (dict.fmt (uid.setWidth 16)).fmt.setWidth 8 ∧
  ∀ x ∈ us.reverse.find? (fun x => x.pid.uid = uid), s.value = x.raw ∧ s.flags.type = x.type

/-- After the calls and `sync_flush` the fields that were synced are in the table, and no field is
new that was not passed. No array is indexed out of its bounds. -/
def SyncArrives (dict : Dictionary) (e : TelemetryEncoder) (us : List SyncUpdate) : Prop :=
  ∃ e1 rs e2, syncUpdates dict e us = some (e1,rs) ∧ e1.syncFlush dict = some e2 ∧
    (∀ x r, (x,r) ∈ us.zip rs → r = .synced →
      ∃ k < e2.slotsCnt, SyncedSlot dict us x.pid.uid (e2.slots k)) ∧
    ∀ uid, e2.Has uid → e.Has uid ∨ ∃ x ∈ us, x.pid.uid = uid

/-- No call makes a new pending field: what is passed is in the table, or the table is full, or the
field is one that is not added by itself. -/
def NoneNew (dict : Dictionary) (e : TelemetryEncoder) (us : List SyncUpdate) : Prop :=
  ∀ x ∈ us, e.Has x.pid.uid ∨ e.slotsCnt = slotsSize ∨ (dict.fmt (x.pid.uid.setWidth 16)).ds = dsAux

variable {dict : Dictionary} {casts : Casts} {e e' : TelemetryEncoder} {us : List SyncUpdate}

theorem setData_of_lt {n : Nat} (hn : n < slotsSize) (raw : BitVec 32) (type : TypeId) :
    ∃ e', e.setData n raw type = some e' := by
  unfold setData
  rw [slot_of_lt hn]
  simp only [Option.bind_eq_bind,Option.bind_some,setSlot_of_lt _ hn]
  split_ifs <;> exact ⟨_,rfl⟩

theorem setData_frame {n : Nat} {raw : BitVec 32} {type : TypeId}
    (h : e.setData n raw type = some e') :
    e'.syncCnt = e.syncCnt ∧ ∀ i, (e'.slots i).field = (e.slots i).field := by
  obtain ⟨upd,hs,-⟩ := setData_spec h
  obtain ⟨-,rfl⟩ := setSlot_some hs
  refine ⟨rfl,fun i => ?_⟩
  dsimp only
  by_cases hi : i = n
  · rw [hi,Function.update_self]
  · rw [Function.update_of_ne hi]

theorem update_held (hs : e.slotsCnt ≤ slotsSize) (h0 : e.syncCnt = 0) {x : SyncUpdate}
    (hx : e.Has x.pid.uid ∨ e.slotsCnt = slotsSize ∨
      (dict.fmt (x.pid.uid.setWidth 16)).ds = dsAux) :
    ∃ e' r, e.update dict x.pid x.raw x.type true = some (e',r) ∧ e'.syncCnt = 0 ∧
      r ≠ .synced := by
  unfold TelemetryEncoder.update
  rcases slotLookup_spec hs x.pid.uid with ⟨hl,hno⟩ | ⟨k,hk,hl,-⟩
  · rw [hl]
    simp only [Option.bind_eq_bind,Option.bind_some,not_true_eq_false,if_false,h0,scan,
      Nat.add_zero,Nat.lt_irrefl]
    by_cases hfull : e.slotsCnt ≥ slotsSize
    · rw [if_pos hfull]
      exact ⟨e,_,rfl,h0,by decide⟩
    · have haux : (dict.fmt (x.pid.uid.setWidth 16)).ds = dsAux := by
        rcases hx with ⟨k,hk,hu⟩ | hx | hx
        · exact absurd hu (hno k hk)
        · exact absurd hx.ge hfull
        · exact hx
      rw [if_neg hfull,if_pos haux]
      exact ⟨e,_,rfl,h0,by decide⟩
  · obtain ⟨e',he'⟩ := @setData_of_lt e k (by omega) x.raw x.type
    rw [hl]
    simp only [Option.bind_eq_bind,Option.bind_some,he']
    exact ⟨e',_,rfl,(setData_frame he').1.trans h0,by decide⟩

theorem syncUpdates_held (hs : e.slotsCnt ≤ slotsSize) (h0 : e.syncCnt = 0)
    (hn : NoneNew dict e us) :
    ∃ e' rs, syncUpdates dict e us = some (e',rs) ∧ SameTable e e' ∧ e'.syncCnt = 0 ∧
      ∀ r ∈ rs, r ≠ .synced := by
  induction us generalizing e with
  | nil => exact ⟨e,[],rfl,SameTable.refl e,h0,fun _ h => absurd h List.not_mem_nil⟩
  | cons x us ih =>
    obtain ⟨e1,r,h1,h10,hr⟩ := update_held hs h0 (hn x List.mem_cons_self)
    have hsame := update_sameTable h1
    obtain ⟨e',rs,h2,hsame2,h20,hrs⟩ := ih (hsame.slotsCnt ▸ hs) h10 fun y hy => by
      rw [hsame.has_iff,hsame.slotsCnt]
      exact hn y (List.mem_cons_of_mem x hy)
    refine ⟨e',r :: rs,?_,hsame.trans hsame2,h20,fun r' hr' => ?_⟩
    · rw [syncUpdates,h1]
      simp only [Option.bind_eq_bind,Option.bind_some,h2]
    · rcases List.mem_cons.mp hr' with rfl | hr'
      · exact hr
      · exact hrs r' hr'

theorem syncArrives_held (hs : e.slotsCnt ≤ slotsSize) (h0 : e.syncCnt = 0)
    (hn : NoneNew dict e us) : SyncArrives dict e us := by
  obtain ⟨e1,rs,h1,hsame,h10,hrs⟩ := syncUpdates_held hs h0 hn
  have hflush : e1.syncFlush dict = some {e1 with syncCnt := 0} := by
    rw [TelemetryEncoder.syncFlush,h10]
    rfl
  refine ⟨e1,rs,_,h1,hflush,fun x r hxr hr => ?_,fun uid hu => Or.inl ((hsame.has_iff uid).mp hu)⟩
  exact absurd hr (hrs r (List.of_mem_zip hxr).2)

theorem update_behind {pid : Pid} {raw : BitVec 32} {type : TypeId} {sync : Bool}
    {r : UpdateResult} (h : e.update dict pid raw type sync = some (e',r)) :
    e.syncCnt ≤ e'.syncCnt ∧
      (e'.slots e.slotsCnt).field = (e.slots e.slotsCnt).field := by
  rcases update_cases h with rfl | ⟨n,hn⟩ | ⟨f,e1,h1,h2⟩
  · exact ⟨le_rfl,rfl⟩
  · exact ⟨(setData_frame hn).1.ge,(setData_frame hn).2 _⟩
  · obtain ⟨-,rfl⟩ := setSlot_some h1
    obtain ⟨hcnt,hfield⟩ := setData_frame h2
    refine ⟨hcnt ▸ Nat.le_succ _,(hfield _).trans ?_⟩
    dsimp only
    rw [Function.update_of_ne (by omega)]

theorem update_pending {x : SyncUpdate} {r : UpdateResult} (hno : ¬ e.Has x.pid.uid)
    (hlt : e.slotsCnt < slotsSize) (hds : (dict.fmt (x.pid.uid.setWidth 16)).ds ≠ dsAux)
    (h : e.update dict x.pid x.raw x.type true = some (e',r)) : 0 < e'.syncCnt := by
  by_cases h0 : e.syncCnt = 0
  · unfold TelemetryEncoder.update at h
    rcases slotLookup_spec hlt.le x.pid.uid with ⟨hl,-⟩ | ⟨k,hk,-,hu⟩
    · rw [hl] at h
      simp only [Option.bind_eq_bind,Option.bind_some,not_true_eq_false,if_false,h0,scan,
        Nat.add_zero,Nat.lt_irrefl,if_neg (Nat.not_le.mpr hlt),if_neg hds] at h
      obtain ⟨s,-,h⟩ := Option.bind_eq_some_iff.mp h
      obtain ⟨e1,he1,h⟩ := Option.bind_eq_some_iff.mp h
      obtain ⟨e2,he2,h⟩ := Option.bind_eq_some_iff.mp h
      cases h
      obtain ⟨-,rfl⟩ := setSlot_some he1
      rw [(setData_frame he2).1]
      exact Nat.succ_pos _
    · exact absurd ⟨k,hk,hu⟩ hno
  · exact Nat.lt_of_lt_of_le (Nat.pos_of_ne_zero h0) (update_behind h).1

theorem syncUpdates_frame {rs : List UpdateResult} (h : syncUpdates dict e us = some (e',rs)) :
    SameTable e e' ∧ e.syncCnt ≤ e'.syncCnt ∧
      (e'.slots e.slotsCnt).field = (e.slots e.slotsCnt).field ∧
      (e.slotsCnt ≤ slotsSize → ¬ NoneNew dict e us → 0 < e'.syncCnt) := by
  induction us generalizing e rs with
  | nil =>
    cases h
    exact ⟨SameTable.refl _,le_rfl,rfl,fun _ hn => absurd (fun x hx => absurd hx List.not_mem_nil)
      hn⟩
  | cons x us ih =>
    obtain ⟨⟨e1,r⟩,h1,h⟩ := Option.bind_eq_some_iff.mp h
    obtain ⟨⟨e2,rs'⟩,h2,h⟩ := Option.bind_eq_some_iff.mp h
    cases h
    have hsame := update_sameTable h1
    obtain ⟨hcnt,hbehind⟩ := update_behind h1
    obtain ⟨hsame2,hcnt2,hbehind2,hpend⟩ := ih h2
    rw [hsame.slotsCnt] at hbehind2
    refine ⟨hsame.trans hsame2,hcnt.trans hcnt2,hbehind2.trans hbehind,fun hs hn => ?_⟩
    by_cases hx : e.Has x.pid.uid ∨ e.slotsCnt = slotsSize ∨
        (dict.fmt (x.pid.uid.setWidth 16)).ds = dsAux
    · refine hpend (hsame.slotsCnt ▸ hs) fun hrest => hn fun y hy => ?_
      rcases List.mem_cons.mp hy with rfl | hy
      · exact hx
      · have hy' := hrest y hy
        rwa [hsame.has_iff,hsame.slotsCnt] at hy'
    · rw [not_or,not_or] at hx
      exact (update_pending hx.1 (Nat.lt_of_le_of_ne hs hx.2.1) hx.2.2 h1).trans_le hcnt2

theorem Sorted.has_add (h : e.Sorted) {field : Field} {r : Bool}
    (hadd : e.add dict field = some (e',r)) {uid : BitVec 11} (hu : e.Has uid) : e'.Has uid := by
  rcases h.add_spec dict field with ⟨-,heq⟩ | ⟨-,-,heq⟩ | ⟨-,-,k,e1,heq,hins⟩
  all_goals
    rw [heq] at hadd
    cases hadd
  · exact hu
  · exact hu
  · obtain ⟨k,hk,rfl⟩ := hu
    obtain ⟨j,hj,hslot⟩ := hins.kept hk
    exact ⟨j,hj,by rw [hslot]⟩

theorem has_flushLoop (hi : Inv dict e) {n i : Nat} (hf : flushLoop dict n i e = some e')
    {uid : BitVec 11} (hu : e.Has uid) : e'.Has uid := by
  refine (flushLoop_induct (P := fun e1 => Inv dict e1 ∧ e1.Has uid)
    (fun e1 e2 f r h1 hadd => ?_) (fun e1 e2 s h1 hmove => ?_) ⟨hi,hu⟩ hf).2
  · exact ⟨h1.1.add hadd,h1.1.toSorted.has_add hadd h1.2⟩
  · have hsame := moveData_sameTable hmove
    exact ⟨hsame.inv h1.1,(hsame.has_iff uid).mpr h1.2⟩

theorem has_syncFlush (hi : Inv dict e) (hlt : e.slotsCnt < slotsSize) (h0 : 0 < e.syncCnt)
    (hno : ¬ e.Has (e.slots e.slotsCnt).field.pid.uid) (hf : e.syncFlush dict = some e') :
    e'.Has (e.slots e.slotsCnt).field.pid.uid := by
  obtain ⟨e1,he1,hf⟩ := Option.bind_eq_some_iff.mp hf
  cases hf
  obtain ⟨n,hn⟩ := Nat.exists_eq_add_of_le' h0
  rw [hn,flushLoop,slot_of_lt hlt] at he1
  simp only [Option.bind_eq_bind,Option.bind_some] at he1
  rcases hi.toSorted.add_spec dict (e.slots e.slotsCnt).field with
    ⟨hfull,-⟩ | ⟨-,hhas,-⟩ | ⟨-,-,k,e2,heq,hins⟩
  · exact absurd hfull hlt.ne
  · exact absurd hhas hno
  · rw [heq] at he1
    simp only [Option.bind_some,not_true_eq_false,if_false] at he1
    obtain ⟨e3,he3,he1⟩ := Option.bind_eq_some_iff.mp he1
    have hsame := moveData_sameTable he3
    have hnew : e2.Has (e.slots e.slotsCnt).field.pid.uid := by
      refine ⟨k,hins.slotsCnt ▸ Nat.lt_succ_of_le hins.le,?_⟩
      rw [hins.slots,insertAt_self]
      rfl
    exact has_flushLoop (hsame.inv (hi.add heq)) he1 ((hsame.has_iff _).mpr hnew)

/-- Where no call makes a new pending field the calls and the flush do what they should. Any other
sequence goes wrong unless the field that was left behind the table happens to be one that may
be there. -/
theorem syncArrives_noneNew {ops : List Op} (h : run dict casts init ops = some e)
    (h0 : e.syncCnt = 0) (us : List SyncUpdate) :
    (NoneNew dict e us → SyncArrives dict e us) ∧
    (¬ e.Has (e.slots e.slotsCnt).field.pid.uid →
      (∀ x ∈ us, x.pid.uid ≠ (e.slots e.slotsCnt).field.pid.uid) →
      SyncArrives dict e us → NoneNew dict e us) := by
  have hi := Inv.run (clear_inv dict _) h
  refine ⟨syncArrives_held hi.cnt_le h0,fun hno hus harr => ?_⟩
  by_contra hnew
  obtain ⟨e1,rs,e2,h1,h2,-,honly⟩ := harr
  obtain ⟨hsame,-,hbehind,hpend⟩ := syncUpdates_frame h1
  have hfield : (e1.slots e1.slotsCnt).field = (e.slots e.slotsCnt).field := by
    rw [hsame.slotsCnt]
    exact hbehind
  rw [← hfield] at hno hus
  have hlt : e.slotsCnt < slotsSize := by
    refine Nat.lt_of_le_of_ne hi.cnt_le fun hfull => hnew fun _ _ => Or.inr (Or.inl hfull)
  have hhas := has_syncFlush (hsame.inv hi) (hsame.slotsCnt ▸ hlt) (hpend hi.cnt_le hnew)
    (mt (hsame.has_iff _).mp hno) h2
  rcases honly _ hhas with hold | ⟨x,hx,hxu⟩
  · exact hno hold
  · exact hus x hx hxu

def byteDict : Dictionary := ⟨fun _ => ⟨1#3,1#6,0#2⟩,1#16,2#16,3#16,4#16,5#16,6#16,7#16,8#16⟩

def noCasts : Casts := ⟨id,id,fun _ => 0#16,fun _ => 0#8⟩

theorem syncArrives_noneNew_one :
    ∃ e, run byteDict noCasts init [.add ⟨⟨9#11,0#3,0#2⟩,Fmt.u8.code⟩] = some e ∧
      SyncArrives byteDict e [⟨⟨9#11,0#3,0#2⟩,17#32,.byte⟩] := by
  have hmap : (run byteDict noCasts init [.add ⟨⟨9#11,0#3,0#2⟩,Fmt.u8.code⟩]).map
      (fun e => (e.slotsCnt,e.syncCnt,(e.slots 0).field.pid.uid)) = some (1,0,9#11) := by
    decide +kernel
  obtain ⟨e,he,hv⟩ := Option.map_eq_some_iff.mp hmap
  simp only [Prod.mk.injEq] at hv
  refine ⟨e,he,(syncArrives_noneNew he hv.2.1 _).1 fun x hx => Or.inl ?_⟩
  rw [List.mem_singleton.mp hx]
  exact ⟨0,by rw [hv.1]; decide,hv.2.2⟩

/-- A field is synced to the empty encoder. What the flush adds is not this field but the one with
all bits zero. -/
theorem synced_lost :
    run byteDict noCasts init [] = some init ∧ init.syncCnt = 0 ∧
    (∃ e1 e2, syncUpdates byteDict init [⟨⟨5#11,0#3,0#2⟩,7#32,.byte⟩] = some (e1,[.synced]) ∧
      e1.syncFlush byteDict = some e2 ∧ e2.slotsCnt = 1 ∧ (e2.slots 0).field.pid.uid = 0#11) ∧
    ¬ SyncArrives byteDict init [⟨⟨5#11,0#3,0#2⟩,7#32,.byte⟩] := by
  have hmap : (syncUpdates byteDict init [⟨⟨5#11,0#3,0#2⟩,7#32,.byte⟩]).bind (fun x =>
      (x.1.syncFlush byteDict).map fun e => (x.2,e.slotsCnt,(e.slots 0).field.pid.uid)) =
      some ([.synced],1,0#11) := by decide +kernel
  obtain ⟨⟨e1,rs⟩,h1,hmap⟩ := Option.bind_eq_some_iff.mp hmap
  obtain ⟨e2,h2,hv⟩ := Option.map_eq_some_iff.mp hmap
  simp only [Prod.mk.injEq] at hv
  obtain ⟨rfl,hcnt,huid⟩ := hv
  refine ⟨rfl,rfl,⟨e1,e2,h1,h2,hcnt,huid⟩,?_⟩
  rintro ⟨e1',rs',e2',h1',h2',-,honly⟩
  obtain ⟨rfl,rfl⟩ := Prod.mk.inj (Option.some.inj (h1.symm.trans h1'))
  obtain rfl := Option.some.inj (h2.symm.trans h2')
  rcases honly 0#11 ⟨0,by rw [hcnt]; decide,huid⟩ with ⟨k,hk,-⟩ | ⟨x,hx,hxu⟩
  · exact absurd hk (Nat.not_lt_zero k)
  · rw [List.mem_singleton.mp hx] at hxu
    exact absurd hxu (by decide)

end TelemetryEncoder

end ApxBus.Telemetry
