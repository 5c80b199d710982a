import ApxBus.Telemetry.Encoder
set_option autoImplicit false

/-! What the operations of the encoder do to its table of fields. -/

namespace ApxBus.Telemetry
open Function Mandala

def Field.rank (f : Field) : Nat :=
  if f.fmt = Fmt.bit.code then 2 else if f.fmt = Fmt.u4.code then 1 else 0

def Field.Before (f g : Field) : Prop :=
  f.rank < g.rank ∨ f.rank = g.rank ∧ f.pid.uid < g.pid.uid

theorem Field.Before.trans {f g h : Field} (h1 : f.Before g) (h2 : g.Before h) : f.Before h := by
  unfold Before at *
  rw [BitVec.lt_def] at *
  omega

theorem Field.rank_bit {f : Field} : f.rank = 2 ↔ f.fmt = Fmt.bit.code := by
  unfold rank
  split_ifs <;> simp_all

theorem Field.rank_le (f : Field) : f.rank ≤ 2 := by
  unfold rank
  split_ifs <;> omega

theorem Field.rank_zero {f : Field} :
    f.rank = 0 ↔ f.fmt ≠ Fmt.bit.code ∧ f.fmt ≠ Fmt.u4.code := by
  unfold rank
  split_ifs <;> simp_all

theorem Field.Before.of_not {f g : Field} (hu : g.pid.uid ≠ f.pid.uid) (h : ¬ f.Before g) :
    g.Before f := by
  have hne := mt BitVec.eq_of_toNat_eq hu
  unfold Before at *
  rw [BitVec.lt_def] at *
  omega

theorem Field.before_bit {f g : Field} (hf : f.rank = 2) (hg : 2 ≤ g.rank) :
    f.Before g ↔ f.pid.uid < g.pid.uid := by
  have hle := g.rank_le
  have hr : f.rank = g.rank := by omega
  unfold Before
  rw [hr,and_iff_right rfl,or_iff_right (Nat.lt_irrefl _)]

theorem Field.before_u4 {f g : Field} (hf : f.rank = 1) (hg : 1 ≤ g.rank) :
    f.Before g ↔ g.fmt = Fmt.bit.code ∨ f.pid.uid < g.pid.uid := by
  have hle := g.rank_le
  rw [Before,← Field.rank_bit,hf]
  by_cases h : g.rank = 2
  · exact iff_of_true (Or.inl (by omega)) (Or.inl h)
  · rw [or_iff_right h,or_iff_right (by omega)]
    exact and_iff_right (by omega)

theorem Field.before_ordinary {f g : Field} (hf : f.rank = 0) :
    f.Before g ↔ g.fmt = Fmt.bit.code ∨ g.fmt = Fmt.u4.code ∨ f.pid.uid < g.pid.uid := by
  rw [Before,hf,← or_assoc,Nat.pos_iff_ne_zero,Ne,Field.rank_zero,← not_or,not_not]
  by_cases h : g.fmt = Fmt.bit.code ∨ g.fmt = Fmt.u4.code
  · exact iff_of_true (Or.inl h) (Or.inl h)
  · rw [or_iff_right h,or_iff_right h]
    exact and_iff_right (Field.rank_zero.mpr (not_or.mp h)).symm

/-- What stands at an index after an element was inserted at `k`, the last of `n` moved up. -/
def insertAt {α : Type} (s : Nat → α) (n k : Nat) (x : α) (i : Nat) : α :=
  if i < k then s i else if i = k then x else if i ≤ n then s (i-1) else s i

namespace TelemetryEncoder
variable {e e' : TelemetryEncoder}

theorem slot_of_lt {i : Nat} (h : i < slotsSize) : e.slot i = some (e.slots i) := if_pos h

theorem slot_some {i : Nat} {s : EncSlot} (h : e.slot i = some s) :
    i < slotsSize ∧ s = e.slots i := by
  unfold slot at h
  split_ifs at h with hi
  exact ⟨hi,(Option.some.inj h).symm⟩

theorem setSlot_of_lt {i : Nat} (s : EncSlot) (h : i < slotsSize) :
    e.setSlot i s = some {e with slots := Function.update e.slots i s} := if_pos h

theorem setSlot_some {i : Nat} {s : EncSlot} (h : e.setSlot i s = some e') :
    i < slotsSize ∧ e' = {e with slots := Function.update e.slots i s} := by
  unfold setSlot at h
  split_ifs at h with hi
  exact ⟨hi,(Option.some.inj h).symm⟩

theorem scan_spec (e : TelemetryEncoder) (stop : Field → Bool) (n index : Nat)
    (h : index+n ≤ slotsSize) :
    ∃ k, e.scan stop n index = some k ∧ index ≤ k ∧ k ≤ index+n ∧
      (∀ i, index ≤ i → i < k → stop (e.slots i).field = false) ∧
      (k < index+n → stop (e.slots k).field = true) := by
  induction n generalizing index with
  | zero => exact ⟨index,rfl,by omega,by omega,fun i h1 h2 => by omega,fun h => by omega⟩
  | succ n ih =>
    rw [scan,slot_of_lt (by omega)]
    cases hs : stop (e.slots index).field with
    | true =>
      refine ⟨index,by simp [hs],by omega,by omega,fun i h1 h2 => by omega,fun _ => hs⟩
    | false =>
      obtain ⟨k,hk,h1,h2,h3,h4⟩ := ih (index+1) (by omega)
      refine ⟨k,by simp [hs,hk],by omega,by omega,fun i hi hik => ?_,fun h => h4 (by omega)⟩
      rcases Nat.eq_or_lt_of_le hi with rfl | hlt
      · exact hs
      · exact h3 i hlt hik

theorem slotLookup_spec (h : e.slotsCnt ≤ slotsSize) (uid : BitVec 11) :
    (e.slotLookup uid = some none ∧ ∀ i < e.slotsCnt, (e.slots i).field.pid.uid ≠ uid) ∨
    ∃ k < e.slotsCnt, e.slotLookup uid = some (some k) ∧ (e.slots k).field.pid.uid = uid := by
  obtain ⟨k,hk,-,h2,h3,h4⟩ := e.scan_spec (fun f => f.pid.uid = uid) e.slotsCnt 0 (by omega)
  by_cases hlt : k < e.slotsCnt
  · exact Or.inr ⟨k,hlt,by simp [slotLookup,hk,hlt],by simpa using h4 (by omega)⟩
  · refine Or.inl ⟨by simp [slotLookup,hk,hlt],fun i hi => ?_⟩
    simpa using h3 i (Nat.zero_le i) (by omega)

/-- The table is sorted; no identifier is in it twice. -/
structure Sorted (e : TelemetryEncoder) : Prop where
  cnt_le : e.slotsCnt ≤ slotsSize
  before : ∀ i j, i < j → j < e.slotsCnt → (e.slots i).field.Before (e.slots j).field
  inj : ∀ i j, i < e.slotsCnt → j < e.slotsCnt →
    (e.slots i).field.pid.uid = (e.slots j).field.pid.uid → i = j

theorem Sorted.rank_mono (h : e.Sorted) {i j : Nat} (hij : i ≤ j) (hj : j < e.slotsCnt) :
    (e.slots i).field.rank ≤ (e.slots j).field.rank := by
  rcases Nat.eq_or_lt_of_le hij with rfl | hlt
  · exact Nat.le_refl _
  · rcases h.before i j hlt hj with h | h <;> omega

theorem Sorted.lt_stop_iff (h : e.Sorted) {stop i : Nat}
    (hno : ∀ i < stop, (e.slots i).field.fmt ≠ Fmt.bit.code)
    (hbit : stop < e.slotsCnt → (e.slots stop).field.fmt = Fmt.bit.code) (hi : i < e.slotsCnt) :
    i < stop ↔ (e.slots i).field.fmt ≠ Fmt.bit.code := by
  refine ⟨hno i,fun hne => ?_⟩
  by_contra hge
  have hb := Field.rank_bit.mpr (hbit (by omega))
  have hmono := h.rank_mono (Nat.le_of_not_lt hge) hi
  have hle := (e.slots i).field.rank_le
  exact hne (Field.rank_bit.mp (by omega))

theorem Sorted.scan_place (h : e.Sorted) {f : Field} {stop : Field → Bool} {m : Nat}
    (hf : ∀ i < e.slotsCnt, (e.slots i).field.pid.uid ≠ f.pid.uid) (hm : m ≤ e.slotsCnt)
    (hlow : ∀ i < m, (e.slots i).field.rank < f.rank)
    (hrank : m < e.slotsCnt → f.rank ≤ (e.slots m).field.rank)
    (hstop : ∀ g : Field, f.rank ≤ g.rank → (stop g = true ↔ f.Before g)) :
    ∃ k ≤ e.slotsCnt, e.scan stop (e.slotsCnt-m) m = some k ∧
      (∀ i < k, (e.slots i).field.Before f) ∧
      ∀ i, k ≤ i → i < e.slotsCnt → f.Before (e.slots i).field := by
  have hc := h.cnt_le
  obtain ⟨k,hk,hk1,hk2,hk3,hk4⟩ := e.scan_spec stop (e.slotsCnt-m) m (by omega)
  have hclass : ∀ i, m ≤ i → i < e.slotsCnt → f.rank ≤ (e.slots i).field.rank :=
    fun i hmi hi => (hrank (by omega)).trans (h.rank_mono hmi hi)
  refine ⟨k,by omega,hk,fun i hi => ?_,fun i hki hi => ?_⟩
  · by_cases him : i < m
    · exact Or.inl (hlow i him)
    · have hno := hk3 i (by omega) hi
      refine Field.Before.of_not (hf i (by omega)) fun hb => ?_
      rw [(hstop _ (hclass i (by omega) (by omega))).mpr hb] at hno
      cases hno
  · have hb := (hstop _ (hclass k hk1 (by omega))).mp (hk4 (by omega))
    rcases Nat.eq_or_lt_of_le hki with rfl | hlt
    · exact hb
    · exact hb.trans (h.before k i hlt hi)

/-- A field not in the table is inserted behind all those before it. -/
theorem Sorted.sortedIndex_spec (h : e.Sorted) {f : Field}
    (hf : ∀ i < e.slotsCnt, (e.slots i).field.pid.uid ≠ f.pid.uid) :
    ∃ k ≤ e.slotsCnt, e.sortedIndex f = some k ∧
      (∀ i < k, (e.slots i).field.Before f) ∧
      ∀ i, k ≤ i → i < e.slotsCnt → f.Before (e.slots i).field := by
  have hc := h.cnt_le
  unfold sortedIndex
  split_ifs with hbit hu4
  · obtain ⟨m,hm,-,hm2,hm3,hm4⟩ :=
      e.scan_spec (fun f => f.fmt = Fmt.bit.code) e.slotsCnt 0 (by omega)
    have hfr : f.rank = 2 := Field.rank_bit.mpr hbit
    rw [hm]
    refine h.scan_place hf (by omega) (fun i hi => ?_) (fun hlt => ?_) fun g hg => ?_
    · have hno := hm3 i (Nat.zero_le i) hi
      have hr := mt Field.rank_bit.mp (of_decide_eq_false hno)
      have hle := (e.slots i).field.rank_le
      omega
    · exact hfr.trans_le (Field.rank_bit.mpr (of_decide_eq_true (hm4 (by omega)))).ge
    · rw [decide_eq_true_iff,Field.before_bit hfr (hfr ▸ hg)]
  · obtain ⟨m,hm,-,hm2,hm3,hm4⟩ := e.scan_spec
      (fun f => f.fmt = Fmt.bit.code ∨ f.fmt = Fmt.u4.code) e.slotsCnt 0 (by omega)
    have hfr : f.rank = 1 := by rw [Field.rank,if_neg hbit,if_pos hu4]
    rw [hm]
    refine h.scan_place hf (by omega) (fun i hi => ?_) (fun hlt => ?_) fun g hg => ?_
    · have hno := of_decide_eq_false (hm3 i (Nat.zero_le i) hi)
      rw [hfr,Field.rank_zero.mpr (not_or.mp hno)]
      exact Nat.one_pos
    · have hstop := of_decide_eq_true (hm4 (by omega))
      rw [hfr,Nat.one_le_iff_ne_zero,Ne,Field.rank_zero,← not_or,not_not]
      exact hstop
    · rw [decide_eq_true_iff,Field.before_u4 hfr (hfr ▸ hg)]
  · have hfr : f.rank = 0 := Field.rank_zero.mpr ⟨hbit,hu4⟩
    refine h.scan_place hf (Nat.zero_le _) (fun i hi => absurd hi (Nat.not_lt_zero i))
      (fun _ => hfr.trans_le (Nat.zero_le _)) fun g _ => ?_
    rw [decide_eq_true_iff,Field.before_ordinary hfr]

theorem shiftUp_eq (e : TelemetryEncoder) (index dest : Nat) (h : dest < slotsSize) :
    shiftUp index dest e = some {e with
      slots := fun i => if index < i ∧ i ≤ dest then e.slots (i-1) else e.slots i} := by
  induction dest generalizing e with
  | zero =>
    have hs : (fun i => if index < i ∧ i ≤ 0 then e.slots (i-1) else e.slots i) = e.slots := by
      funext i
      rw [if_neg (by omega)]
    rw [shiftUp,hs]
  | succ dest ih =>
    rw [shiftUp]
    by_cases hd : dest+1 > index
    · rw [if_pos hd,slot_of_lt (by omega)]
      simp only [Option.bind_eq_bind,Option.bind_some,setSlot_of_lt _ h]
      rw [ih _ (by omega)]
      congr 2
      funext i
      dsimp only
      by_cases h1 : index < i ∧ i ≤ dest
      · rw [if_pos h1,if_pos ⟨h1.1,by omega⟩,Function.update_of_ne (by omega)]
      · rw [if_neg h1]
        by_cases h2 : i = dest+1
        · subst h2
          rw [Function.update_self,if_pos ⟨by omega,Nat.le_refl _⟩,Nat.add_sub_cancel]
        · rw [Function.update_of_ne h2,if_neg (by omega)]
    · have hs : (fun i => if index < i ∧ i ≤ dest+1 then e.slots (i-1) else e.slots i) =
          e.slots := by
        funext i
        rw [if_neg (by omega)]
      rw [if_neg hd,hs]

theorem insert_eq (e : TelemetryEncoder) {k : Nat} (f : Field) (hk : k ≤ e.slotsCnt)
    (hc : e.slotsCnt < slotsSize) :
    e.insert k f = some {e with
      slots := insertAt e.slots e.slotsCnt k (EncSlot.new f)
      slotsCnt := e.slotsCnt+1}.updateFeeds := by
  have hslots : ∀ s : Nat → EncSlot, (∀ i, i ≠ k → s i =
      if k < i ∧ i ≤ e.slotsCnt then e.slots (i-1) else e.slots i) →
      Function.update s k (EncSlot.new f) = insertAt e.slots e.slotsCnt k (EncSlot.new f) := by
    intro s hs
    funext i
    unfold insertAt
    by_cases hik : i = k
    · subst hik
      rw [Function.update_self,if_neg (by omega),if_pos rfl]
    · rw [Function.update_of_ne hik,hs i hik]
      by_cases hlt : i < k
      · rw [if_neg (by omega),if_pos hlt]
      · rw [if_neg hlt,if_neg hik]
        by_cases hle : i ≤ e.slotsCnt
        · rw [if_pos ⟨by omega,hle⟩,if_pos hle]
        · rw [if_neg (by omega),if_neg hle]
  unfold insert
  by_cases hlt : k < e.slotsCnt
  · rw [if_pos hlt,shiftUp_eq e k _ hc]
    simp only [Option.bind_eq_bind,Option.bind_some]
    rw [setSlot_of_lt _ (by omega)]
    simp only [Option.bind_some]
    rw [hslots _ fun i _ => rfl]
  · rw [if_neg hlt]
    simp only [Option.bind_eq_bind,Option.bind_some]
    rw [setSlot_of_lt _ (by omega)]
    simp only [Option.bind_some]
    rw [hslots _ fun i hi => by rw [if_neg (by omega)]]

/-- The entry of the transponder index for `i` is as it is after a search of the table. -/
def XpdrFound (dict : Dictionary) (e : TelemetryEncoder) (i : Fin xpdrDatasetSize)
    (old new : Byte) :
    Prop :=
  (∃ j < e.slotsCnt, (e.slots j).field.pid.uid.setWidth 16 = (xpdrDataset dict i).uid ∧
    new = BitVec.ofNat 8 j) ∨
  (∀ j < e.slotsCnt, (e.slots j).field.pid.uid.setWidth 16 ≠ (xpdrDataset dict i).uid) ∧ new = old

theorem resyncXpdr_spec (dict : Dictionary) (e : TelemetryEncoder) (h : e.slotsCnt ≤ slotsSize)
    (i : Fin xpdrDatasetSize) :
    ∃ x, e.resyncXpdr dict i = some {e with xpdrSlotIdx := x} ∧
      (∀ j ≠ i, x j = e.xpdrSlotIdx j) ∧ XpdrFound dict e i (e.xpdrSlotIdx i) (x i) := by
  obtain ⟨k,hk,-,h2,h3,h4⟩ := e.scan_spec
    (fun f => f.pid.uid.setWidth 16 = (xpdrDataset dict i).uid) e.slotsCnt 0 (by omega)
  unfold resyncXpdr
  rw [hk]
  simp only [Option.bind_eq_bind,Option.bind_some]
  by_cases hlt : k < e.slotsCnt
  · rw [if_pos hlt]
    refine ⟨_,rfl,fun j hj => Function.update_of_ne hj _ _,Or.inl ⟨k,hlt,?_,?_⟩⟩
    · simpa using h4 (by omega)
    · rw [Function.update_self]
  · rw [if_neg hlt]
    refine ⟨e.xpdrSlotIdx,rfl,fun _ _ => rfl,Or.inr ⟨fun j hj => ?_,rfl⟩⟩
    simpa using h3 j (Nat.zero_le j) (by omega)

theorem resyncXpdr_foldlM (dict : Dictionary) (e : TelemetryEncoder) (h : e.slotsCnt ≤ slotsSize)
    (is : List (Fin xpdrDatasetSize)) (hn : is.Nodup) :
    ∃ x, is.foldlM (resyncXpdr dict) e = some {e with xpdrSlotIdx := x} ∧
      (∀ i ∉ is, x i = e.xpdrSlotIdx i) ∧
      ∀ i ∈ is, XpdrFound dict e i (e.xpdrSlotIdx i) (x i) := by
  induction is generalizing e with
  | nil => exact ⟨e.xpdrSlotIdx,rfl,fun _ _ => rfl,by simp⟩
  | cons i is ih =>
    obtain ⟨hi,hn⟩ := List.nodup_cons.mp hn
    obtain ⟨x,hx,hx1,hx2⟩ := resyncXpdr_spec dict e h i
    obtain ⟨y,hy,hy1,hy2⟩ := ih {e with xpdrSlotIdx := x} h hn
    refine ⟨y,?_,fun j hj => ?_,fun j hj => ?_⟩
    · rw [List.foldlM_cons,hx]
      exact hy
    · rw [List.mem_cons,not_or] at hj
      rw [hy1 j hj.2]
      exact hx1 j hj.1
    · rcases List.mem_cons.mp hj with rfl | hj
      · rw [hy1 j hi]
        exact hx2
      · have hne : j ≠ i := fun h => hi (h ▸ hj)
        have hf := hy2 j hj
        dsimp only at hf
        rw [hx1 j hne] at hf
        exact hf

theorem refresh_spec (dict : Dictionary) (e : TelemetryEncoder) (h : e.slotsCnt ≤ slotsSize) :
    ∃ m x, (do
        let updCnt ← e.scan (fun f => f.fmt = Fmt.bit.code) e.slotsCnt 0
        let e ← (List.finRange xpdrDatasetSize).foldlM (resyncXpdr dict)
          {e with slotsUpdCnt := updCnt}
        some (e,true)) = some ({e with slotsUpdCnt := m, xpdrSlotIdx := x},true) ∧
      m ≤ e.slotsCnt ∧ (∀ i < m, (e.slots i).field.fmt ≠ Fmt.bit.code) ∧
      (m < e.slotsCnt → (e.slots m).field.fmt = Fmt.bit.code) ∧
      ∀ i, XpdrFound dict e i (e.xpdrSlotIdx i) (x i) := by
  obtain ⟨m,hm,-,hm2,hm3,hm4⟩ := e.scan_spec (fun f => f.fmt = Fmt.bit.code) e.slotsCnt 0 (by omega)
  obtain ⟨x,hx,-,hx2⟩ := resyncXpdr_foldlM dict {e with slotsUpdCnt := m} h
    (List.finRange xpdrDatasetSize) (List.nodup_finRange _)
  refine ⟨m,x,?_,by omega,fun i hi => by simpa using hm3 i (Nat.zero_le i) hi,
    fun hlt => by simpa using hm4 (by omega),fun i => hx2 i (List.mem_finRange i)⟩
  rw [hm]
  simp only [Option.bind_eq_bind,Option.bind_some]
  rw [hx]
  rfl

/-- `f` was not in the table of `e`, and stands at `k` in that of `e'`. -/
structure Inserted (dict : Dictionary) (e : TelemetryEncoder) (f : Field) (e' : TelemetryEncoder)
    (k : Nat) : Prop where
  le : k ≤ e.slotsCnt
  before : ∀ i < k, (e.slots i).field.Before f
  after : ∀ i, k ≤ i → i < e.slotsCnt → f.Before (e.slots i).field
  slots : e'.slots = insertAt e.slots e.slotsCnt k (EncSlot.new f)
  slotsCnt : e'.slotsCnt = e.slotsCnt+1
  insertedIndex : e'.insertedIndex = some k
  enforcedUpd : e'.enforcedUpd = e.enforcedUpd
  syncCnt : e'.syncCnt = e.syncCnt
  hash : e'.hash = Hash.ofWord (tableHash e'.table)
  upd_le : e'.slotsUpdCnt ≤ e'.slotsCnt
  upd_lt : ∀ i < e'.slotsUpdCnt, (e'.slots i).field.fmt ≠ Fmt.bit.code
  upd_stop : e'.slotsUpdCnt < e'.slotsCnt → (e'.slots e'.slotsUpdCnt).field.fmt = Fmt.bit.code
  xpdr : ∀ i, XpdrFound dict e' i (e.xpdrSlotIdx i) (e'.xpdrSlotIdx i)

/-- `add` on a sorted table: it is full, or has the field, or the field is inserted. -/
theorem Sorted.add_spec (h : e.Sorted) (dict : Dictionary) (f : Field) :
    (e.slotsCnt = slotsSize ∧ e.add dict f = some ({e with insertedIndex := none},false)) ∨
    (e.slotsCnt < slotsSize ∧ (∃ k < e.slotsCnt, (e.slots k).field.pid.uid = f.pid.uid) ∧
      e.add dict f = some ({e with insertedIndex := none},true)) ∨
    (e.slotsCnt < slotsSize ∧ (∀ k < e.slotsCnt, (e.slots k).field.pid.uid ≠ f.pid.uid) ∧
      ∃ k e', e.add dict f = some (e',true) ∧ Inserted dict e f e' k) := by
  have hc := h.cnt_le
  unfold add
  dsimp only
  by_cases hfull : e.slotsCnt ≥ slotsSize
  · rw [if_pos hfull]
    exact Or.inl ⟨by omega,rfl⟩
  · rw [if_neg hfull]
    have h' : Sorted {e with insertedIndex := none} := ⟨h.cnt_le,h.before,h.inj⟩
    rcases slotLookup_spec h'.cnt_le f.pid.uid with ⟨hl,hno⟩ | ⟨k,hk,hl,huid⟩
    · obtain ⟨k,hk,hidx,hbef,haft⟩ := h'.sortedIndex_spec hno
      have hlt : e.slotsCnt < slotsSize := by omega
      have hins := insert_eq {e with insertedIndex := none} f hk hlt
      obtain ⟨e1,he1⟩ : ∃ e1 : TelemetryEncoder, e1 = {e with
          slots := insertAt e.slots e.slotsCnt k (EncSlot.new f)
          slotsCnt := e.slotsCnt+1} := ⟨_,rfl⟩
      have he1c : e1.slotsCnt ≤ slotsSize := by
        rw [he1]
        exact hlt
      obtain ⟨m,x,href,hm,hm1,hm2,hx⟩ := refresh_spec dict
        {e1.updateFeeds with insertedIndex := some k} he1c
      refine Or.inr (Or.inr ⟨hlt,hno,k,{e1.updateFeeds with
        insertedIndex := some k, slotsUpdCnt := m, xpdrSlotIdx := x},?_,?_⟩)
      · rw [hl]
        simp only [Option.bind_eq_bind,Option.bind_some,Option.isSome_none,Bool.false_eq_true,
          if_false]
        rw [hidx]
        simp only [Option.bind_some]
        rw [hins]
        subst he1
        exact href
      · subst he1
        exact ⟨hk,hbef,haft,rfl,rfl,rfl,rfl,rfl,rfl,hm,hm1,hm2,hx⟩
    · refine Or.inr (Or.inl ⟨by omega,⟨k,hk,huid⟩,?_⟩)
      rw [hl]
      rfl

end TelemetryEncoder

end ApxBus.Telemetry
