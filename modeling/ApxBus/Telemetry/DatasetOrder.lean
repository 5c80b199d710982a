import ApxBus.Telemetry.EncoderInvariant
set_option autoImplicit false

/-! The table of a dataset does not depend on the order in which its fields are added. -/

namespace ApxBus.Telemetry
open Mandala

theorem Field.Before.asymm {f g : Field} (h : f.Before g) : ¬ g.Before f := by
  unfold Before at *
  rw [BitVec.lt_def] at *
  omega

theorem setWidth_injective : Function.Injective fun uid : BitVec 11 => uid.setWidth 16 := by
  intro u v h
  have hn := congrArg BitVec.toNat h
  dsimp only at hn
  rw [BitVec.toNat_setWidth_of_le (by decide),BitVec.toNat_setWidth_of_le (by decide)] at hn
  exact BitVec.eq_of_toNat_eq hn

theorem insertAt_perm {α : Type} (s : Nat → α) {n k : Nat} (x : α) (hk : k ≤ n) :
    ((List.range (n+1)).map (insertAt s n k x)).Perm (x :: (List.range n).map s) := by
  obtain ⟨m,rfl⟩ := Nat.exists_eq_add_of_le hk
  have hrange : List.range (k+m+1) =
      List.range k ++ k :: (List.range m).map fun i => k+(i+1) := by
    rw [Nat.add_assoc,List.range_add,List.range_succ_eq_map,List.map_cons,List.map_map]
    rfl
  have hlow : (List.range k).map (insertAt s (k+m) k x) = (List.range k).map s :=
    List.map_congr_left fun i hi => if_pos (List.mem_range.mp hi)
  have hhigh : (List.range m).map (fun i => insertAt s (k+m) k x (k+(i+1))) =
      (List.range m).map fun i => s (k+i) := by
    refine List.map_congr_left fun i hi => ?_
    have him := List.mem_range.mp hi
    rw [insertAt,if_neg (by omega),if_neg (by omega),if_pos (by omega)]
    rfl
  have hself : insertAt s (k+m) k x k = x := by
    rw [insertAt,if_neg (Nat.lt_irrefl k),if_pos rfl]
  rw [hrange,List.range_add,List.map_append,List.map_append,hlow,List.map_cons,hself,
    List.map_map,List.map_map]
  refine List.perm_middle.trans (List.Perm.cons x ?_)
  exact List.Perm.of_eq (congrArg _ hhigh)

namespace TelemetryEncoder
variable {dict : Dictionary} {e a b : TelemetryEncoder}

def fields (e : TelemetryEncoder) : List Field :=
  (List.range e.slotsCnt).map fun i => (e.slots i).field

def addAll (dict : Dictionary) (e : TelemetryEncoder) (fs : List Field) : Option TelemetryEncoder :=
  fs.foldlM (fun e f => (e.add dict f).map Prod.fst) e

theorem fields_length (e : TelemetryEncoder) : e.fields.length = e.slotsCnt := by
  rw [fields,List.length_map,List.length_range]

theorem mem_fields {f : Field} : f ∈ e.fields ↔ ∃ i < e.slotsCnt, (e.slots i).field = f := by
  rw [fields,List.mem_map]
  exact exists_congr fun i => and_congr_left' List.mem_range

theorem table_fields (e : TelemetryEncoder) : e.table = e.fields.flatMap Field.bytes := by
  rw [table,fields,List.flatMap_map]

theorem Inserted.fields_perm {f : Field} {k : Nat} (h : Inserted dict e f a k) :
    a.fields.Perm (f :: e.fields) := by
  have hp := (insertAt_perm e.slots (EncSlot.new f) h.le).map EncSlot.field
  rw [List.map_map,List.map_cons,List.map_map] at hp
  unfold fields
  rw [h.slotsCnt,h.slots]
  exact hp

theorem Sorted.fields_pairwise (h : e.Sorted) : e.fields.Pairwise Field.Before := by
  unfold fields
  rw [List.pairwise_map]
  refine List.pairwise_lt_range.imp_of_mem fun _ hj hij => ?_
  exact h.before _ _ hij (List.mem_range.mp hj)

theorem Inv.addAll (h : Inv dict e) (fs : List Field) (hc : e.slotsCnt+fs.length ≤ slotsSize)
    (hn : (fs.map fun f => f.pid.uid).Nodup)
    (hno : ∀ f ∈ fs, ∀ g ∈ e.fields, g.pid.uid ≠ f.pid.uid) :
    ∃ a, e.addAll dict fs = some a ∧ Inv dict a ∧ a.fields.Perm (e.fields ++ fs) := by
  induction fs generalizing e with
  | nil => exact ⟨e,rfl,h,by rw [List.append_nil]⟩
  | cons f fs ih =>
    rw [List.map_cons,List.nodup_cons,List.mem_map] at hn
    rw [List.length_cons] at hc
    have hfresh : ∀ i < e.slotsCnt, (e.slots i).field.pid.uid ≠ f.pid.uid := fun i hi =>
      hno f (List.mem_cons_self) _ (mem_fields.mpr ⟨i,hi,rfl⟩)
    rcases h.toSorted.add_spec dict f with ⟨hfull,-⟩ | ⟨-,⟨i,hi,huid⟩,-⟩ | ⟨hlt,-,k,e1,hadd,hins⟩
    · omega
    · exact absurd huid (hfresh i hi)
    have hperm := hins.fields_perm
    obtain ⟨a,ha,hinv,hp⟩ := ih (hins.inv h hlt hfresh) (by rw [hins.slotsCnt]; omega) hn.2
      fun g hg f' hf' => by
        rcases List.mem_cons.mp (hperm.mem_iff.mp hf') with rfl | hf'
        · exact fun heq => hn.1 ⟨g,hg,heq.symm⟩
        · exact hno g (List.mem_cons_of_mem f hg) f' hf'
    refine ⟨a,?_,hinv,?_⟩
    · rw [TelemetryEncoder.addAll,List.foldlM_cons,hadd]
      exact ha
    · refine hp.trans ((hperm.append_right fs).trans ?_)
      rw [List.cons_append]
      exact List.perm_middle.symm

theorem Inv.sameTable (ha : Inv dict a) (hb : Inv dict b) (hf : a.fields = b.fields) :
    SameTable a b := by
  have hcnt : b.slotsCnt = a.slotsCnt := by rw [← fields_length,← fields_length,hf]
  have hfield : ∀ i < a.slotsCnt, (b.slots i).field = (a.slots i).field := by
    intro i hi
    have hget := congrArg (fun l => l[i]?) hf
    simp only [fields,List.getElem?_map,List.getElem?_range hi,
      List.getElem?_range (hcnt ▸ hi),Option.map_some,Option.some.injEq] at hget
    exact hget.symm
  have hupd : b.slotsUpdCnt = a.slotsUpdCnt := by
    rw [ha.upd_count,hb.upd_count,hcnt]
    refine List.countP_congr fun i hi => ?_
    rw [hfield i (List.mem_range.mp hi)]
  have htable : b.table = a.table := by rw [table_fields,table_fields,hf]
  refine ⟨hcnt,hupd,by rw [ha.hash,hb.hash,htable],funext fun i => ?_,hfield⟩
  rcases hb.xpdr i with ⟨j,hj,huid,hidx⟩ | ⟨hno,hidx⟩
  · rw [hcnt] at hj
    rw [hfield j hj] at huid
    rcases ha.xpdr i with ⟨j',hj',huid',hidx'⟩ | ⟨hno',-⟩
    · rw [hidx,hidx',ha.inj j j' hj hj' (setWidth_injective (huid.trans huid'.symm))]
    · exact absurd huid (hno' j hj)
  · rcases ha.xpdr i with ⟨j',hj',huid',-⟩ | ⟨-,hidx'⟩
    · rw [← hfield j' hj'] at huid'
      exact absurd huid' (hno j' (hcnt.symm ▸ hj'))
    · rw [hidx,hidx']

theorem SameTable.encodeFormat (h : SameTable a b) (stream : Writer) (part size : Byte) :
    b.encodeFormat stream part size = a.encodeFormat stream part size := by
  unfold TelemetryEncoder.encodeFormat
  rw [h.slotsCnt,h.hash,h.table]

/-- In whatever order a dataset is added to cleared encoders, all fields are accepted, and the
tables, sorted by class and then by identifier, are the same with all that is kept beside them. -/
theorem addAll_perm (dict : Dictionary) (e e' : TelemetryEncoder) (fs gs : List Field)
    (hl : fs.length ≤ slotsSize) (hn : (fs.map fun f => f.pid.uid).Nodup) (hp : fs.Perm gs) :
    ∃ a b, e.clear.addAll dict fs = some a ∧ e'.clear.addAll dict gs = some b ∧
      a.fields.Perm fs ∧ a.fields.Pairwise Field.Before ∧ b.fields = a.fields ∧
      b.slotsUpdCnt = a.slotsUpdCnt ∧ b.xpdrSlotIdx = a.xpdrSlotIdx ∧ b.hash = a.hash ∧
      ∀ stream part size, b.encodeFormat stream part size = a.encodeFormat stream part size := by
  have hempty : ∀ e : TelemetryEncoder, e.clear.fields = [] := fun _ => rfl
  have hnone : ∀ (e : TelemetryEncoder) (fs : List Field), ∀ f ∈ fs, ∀ g ∈ e.clear.fields,
      g.pid.uid ≠ f.pid.uid := fun e fs f _ g hg => absurd hg (by rw [hempty]; simp)
  have hcnt : ∀ e : TelemetryEncoder, e.clear.slotsCnt = 0 := fun _ => rfl
  obtain ⟨a,ha,hia,hpa⟩ := (clear_inv dict e).addAll fs (by rw [hcnt]; omega) hn (hnone e fs)
  obtain ⟨b,hb,hib,hpb⟩ := (clear_inv dict e').addAll gs
    (by rw [hcnt,← hp.length_eq]; omega) ((hp.map _).nodup_iff.mp hn) (hnone e' gs)
  rw [hempty,List.nil_append] at hpa hpb
  have heq : b.fields = a.fields := by
    refine List.Perm.eq_of_pairwise (fun f g _ _ hfg hgf => absurd hgf hfg.asymm)
      hib.toSorted.fields_pairwise hia.toSorted.fields_pairwise ?_
    exact hpb.trans (hp.symm.trans hpa.symm)
  have hsame := hia.sameTable hib heq.symm
  exact ⟨a,b,ha,hb,hpa,hia.toSorted.fields_pairwise,heq,hsame.slotsUpdCnt,hsame.xpdrSlotIdx,
    hsame.hash,hsame.encodeFormat⟩

theorem addAll_perm_two :
    ∃ a b, init.clear.addAll ⟨fun _ => ⟨1#3,3#6,0#2⟩,1#16,2#16,3#16,4#16,5#16,6#16,7#16,8#16⟩
        [⟨⟨5#11,0#3,0#2⟩,Fmt.bit.code⟩,⟨⟨9#11,0#3,0#2⟩,Fmt.u8.code⟩] = some a ∧
      init.clear.addAll ⟨fun _ => ⟨1#3,3#6,0#2⟩,1#16,2#16,3#16,4#16,5#16,6#16,7#16,8#16⟩
        [⟨⟨9#11,0#3,0#2⟩,Fmt.u8.code⟩,⟨⟨5#11,0#3,0#2⟩,Fmt.bit.code⟩] = some b ∧
      b.fields = a.fields ∧ b.hash = a.hash := by
  obtain ⟨a,b,ha,hb,-,-,hf,-,-,hh,-⟩ := addAll_perm
    ⟨fun _ => ⟨1#3,3#6,0#2⟩,1#16,2#16,3#16,4#16,5#16,6#16,7#16,8#16⟩ init init
    [⟨⟨5#11,0#3,0#2⟩,Fmt.bit.code⟩,⟨⟨9#11,0#3,0#2⟩,Fmt.u8.code⟩]
    [⟨⟨9#11,0#3,0#2⟩,Fmt.u8.code⟩,⟨⟨5#11,0#3,0#2⟩,Fmt.bit.code⟩] (by decide) (by decide)
    (List.Perm.swap _ _ _)
  exact ⟨a,b,ha,hb,hf,hh⟩

end TelemetryEncoder

end ApxBus.Telemetry
