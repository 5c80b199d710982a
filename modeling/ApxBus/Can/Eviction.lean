import ApxBus.Can.Durability
import Mathlib.Data.Fintype.Card
set_option autoImplicit false

/-! When a packet that gets no more messages is released. -/

namespace ApxBus.Can
open Function

def Opens (extid : Extid) (dlc : Byte) : Prop :=
  extid.frm = frmStart ∧ dlc = 8#8 ∨ extid.frm = frmSingle

def Carries (extid : Extid) (dlc : Byte) : Prop :=
  extid.frm = frmEnd ∧ dlc ≠ 0#8 ∨
    extid.frm ≠ frmEnd ∧ extid.frm ≠ frmStart ∧ extid.frm ≠ frmSingle ∧ dlc = 8#8

instance (extid : Extid) (dlc : Byte) : Decidable (Opens extid dlc) :=
  inferInstanceAs (Decidable (_ ∨ _))

instance (extid : Extid) (dlc : Byte) : Decidable (Carries extid dlc) :=
  inferInstanceAs (Decidable (_ ∨ _))

/-- The message comes out of sequence for the packet of `id`. -/
def OutOfSeq (id extid : Extid) (dlc : Byte) : Prop :=
  Pool.checkSeq id extid (if extid.frm = frmEnd then dlc else 0#8) = .error .errorOrphan

instance (id extid : Extid) (dlc : Byte) : Decidable (OutOfSeq id extid dlc) :=
  inferInstanceAs (Decidable (_ = _))

theorem checkSeq_error {id extid : Extid} {dlc : Byte} {rv : ErrorType}
    (h : Pool.checkSeq id extid dlc = .error rv) : rv = .errorOrphan ∨ rv = .msgDropped := by
  unfold Pool.checkSeq at h
  dsimp only at h
  split_ifs at h <;> cases h <;> simp

theorem not_opens_end {extid : Extid} {dlc : Byte} (h : extid.frm = frmEnd) :
    ¬ Opens extid dlc := by
  rintro (⟨hs,-⟩ | hs)
  · exact absurd (h.symm.trans hs) (by decide)
  · exact absurd (h.symm.trans hs) (by decide)

namespace Pool

/-- The push runs `timeout()`: there is no free item, or no tree for a first message, or no packet
that the message continues. -/
def pushAges (p : Pool) (extid : Extid) (dlc : Byte) : Bool :=
  if p.free = maxIdx then true
  else if Opens extid dlc then
    match p.remove extid with
    | none => false
    | some p => ((List.finRange sizeTrees).find? fun k => (p.trees k).head = maxIdx).isNone
  else if Carries extid dlc then
    match (List.finRange sizeTrees).find? (fun k => (p.trees k).head ≠ maxIdx ∧
      (p.trees k).dlc = 0#8 ∧ (p.trees k).extid.sameId extid) with
    | none => true
    | some k => OutOfSeq (p.trees k).extid extid dlc
  else false

/-- The push drops the packet of `id`: there is no free item, or a new packet of this identifier
begins, or the message comes out of sequence. -/
def PushDiscards (id : Extid) (p : Pool) (extid : Extid) (dlc : Byte) : Prop :=
  extid.sameId id ∧ (p.free = maxIdx ∨ Opens extid dlc ∨
    Carries extid dlc ∧ OutOfSeq id extid dlc)

def ages (p : Pool) : Op → Bool
  | .push extid _ dlc => p.pushAges extid dlc
  | .readPacket .. => false
  | .timeout => true

def Discards (id : Extid) (p : Pool) : Op → Prop
  | .push extid _ dlc => PushDiscards id p extid dlc
  | _ => False

def Op.Begins (id : Extid) : Op → Prop
  | .push extid _ dlc => Opens extid dlc ∧ extid.sameId id
  | _ => False

/-- A push took a further message into the packet of `id`. -/
def Op.Continues (id : Extid) : Op → Result → Prop
  | .push extid _ dlc, .pushed rv =>
    extid.sameId id ∧ Carries extid dlc ∧ (rv = .msgAccepted ∨ rv = .packetAvailable)
  | _, _ => False

/-- A push completed a packet of several messages that is not the one of `id`. -/
def Op.completes (id : Extid) : Op → Result → Bool
  | .push extid _ _, .pushed rv => ¬ extid.sameId id ∧ extid.frm = frmEnd ∧ rv = .packetAvailable
  | _, _ => false

end Pool

namespace Assemblies
variable {a : Assemblies} {k : Fin sizeTrees} {s : Assembly} {extid : Extid}
  {data : Vector Byte 8} {dlc : Byte}

def pushAges (a : Assemblies) (extid : Extid) (dlc : Byte) : Bool :=
  if a.used = sizeItems then true
  else if Opens extid dlc then (a.remove extid).firstFree.isNone
  else if Carries extid dlc then
    match a.firstAwaiting extid with
    | none => true
    | some (_,s) => OutOfSeq s.extid extid dlc
  else false

def PushDiscards (id : Extid) (a : Assemblies) (extid : Extid) (dlc : Byte) : Prop :=
  extid.sameId id ∧ (a.used = sizeItems ∨ Opens extid dlc ∨
    Carries extid dlc ∧ OutOfSeq id extid dlc)

theorem remove_other (hk : a k = some s) (h : ¬ extid.sameId s.extid) :
    a.remove extid k = some s := by
  have haw : ¬ s.Awaits extid := fun haw => h haw.2.symm
  rw [remove,hk,discard,if_neg haw]

theorem remove_same (hk : a k = some s) (hd : s.dlc = 0#8) (h : extid.sameId s.extid) :
    a.remove extid k = none := by
  have haw : s.Awaits extid := ⟨hd,h.symm⟩
  rw [remove,hk,discard,if_pos haw]

theorem timeout_eq (hk : a k = some s) : a.timeout k = age (some s) := by rw [timeout,hk]

theorem pushNew_other (hk : a k = some s) (hid : ¬ extid.sameId s.extid) :
    (a.pushNew extid data dlc).1 k =
      if (a.remove extid).firstFree.isNone then age (some s) else some s := by
  have hr := remove_other hk hid
  rcases a.pushNew_cases extid data dlc with ⟨hf,heq⟩ | ⟨j,u,hf,heq,-⟩
  · rw [heq,hf]
    exact timeout_eq hr
  · have hj : k ≠ j := by
      rintro rfl
      rw [firstFree_some hf] at hr
      cases hr
    rw [heq,hf,update_of_ne hj]
    exact hr

/-- What a push that goes on with a packet does to one in assembly that it does not continue. -/
theorem pushNext_unfinished (hk : a k = some s) (hd : s.dlc = 0#8)
    (hno : ¬ (extid.sameId s.extid ∧ ((a.pushNext extid data dlc).2 = .msgAccepted ∨
      (a.pushNext extid data dlc).2 = .packetAvailable))) :
    (a.pushNext extid data dlc).1 k =
      match a.firstAwaiting extid with
      | none => age (some s)
      | some (_,u) =>
        if Pool.checkSeq u.extid extid dlc = .error .errorOrphan then
          if extid.sameId s.extid then none else age (some s)
        else some s := by
  have hsame : extid.sameId s.extid → (a.remove extid).timeout k = none := fun hid => by
    rw [timeout,remove_same hk hd hid]
    rfl
  have hother : ¬ extid.sameId s.extid → (a.remove extid).timeout k = age (some s) := fun hid =>
    timeout_eq (remove_other hk hid)
  revert hno
  unfold pushNext
  cases hf : a.firstAwaiting extid with
  | none =>
    intro _
    exact hother fun hid => firstAwaiting_none hf hk ⟨hd,hid.symm⟩
  | some ju =>
    obtain ⟨j,u⟩ := ju
    obtain ⟨hu,haw⟩ := firstAwaiting_some hf
    dsimp only
    cases hc : Pool.checkSeq u.extid extid dlc with
    | error rv =>
      intro _
      rcases checkSeq_error hc with rfl | rfl
      · rw [if_pos rfl]
        by_cases hid : extid.sameId s.extid
        · rw [if_pos hid]
          exact hsame hid
        · rw [if_neg hid]
          exact hother hid
      · exact hk.trans (if_neg (by simp)).symm
    | ok tFrm =>
      intro hno
      have hj : k ≠ j := by
        rintro rfl
        rw [hk] at hu
        refine hno ⟨(Option.some.inj hu ▸ haw.2).symm,?_⟩
        by_cases h0 : dlc ≠ 0#8
        · exact Or.inr (if_pos h0)
        · exact Or.inl (if_neg h0)
      exact ((update_of_ne hj _ _).trans hk).trans (if_neg (by simp)).symm

theorem push_opens (hu : a.used ≠ sizeItems) (ho : Opens extid dlc) :
    ∃ dlc', a.push extid data dlc = a.pushNew extid data dlc' := by
  have hend : extid.frm ≠ frmEnd := fun h => not_opens_end h ho
  unfold push
  rw [if_neg hu,if_neg hend]
  rcases ho with ⟨hs,h8⟩ | h1
  · rw [if_pos hs,if_neg (not_not.mpr h8)]
    exact ⟨_,rfl⟩
  · rw [if_neg (by rw [h1]; decide),if_pos h1]
    exact ⟨_,rfl⟩

theorem push_carries (hu : a.used ≠ sizeItems) (hc : Carries extid dlc) :
    a.push extid data dlc =
      a.pushNext extid data (if extid.frm = frmEnd then dlc else 0#8) := by
  unfold push
  rw [if_neg hu]
  rcases hc with ⟨he,h0⟩ | ⟨he,hs,h1,h8⟩
  · rw [if_pos he,if_neg h0,if_pos he]
  · rw [if_neg he,if_neg hs,if_neg h1,if_neg (not_not.mpr h8),if_neg he]

theorem push_neither (hu : a.used ≠ sizeItems) (ho : ¬ Opens extid dlc)
    (hc : ¬ Carries extid dlc) : a.push extid data dlc = (a,.errorDLC) := by
  unfold push
  rw [if_neg hu]
  by_cases he : extid.frm = frmEnd
  · rw [if_pos he,if_pos]
    by_contra h0
    exact hc (Or.inl ⟨he,h0⟩)
  rw [if_neg he]
  by_cases hs : extid.frm = frmStart
  · rw [if_pos hs,if_pos]
    exact fun h8 => ho (Or.inl ⟨hs,h8⟩)
  have h1 : extid.frm ≠ frmSingle := fun h1 => ho (Or.inr h1)
  rw [if_neg hs,if_neg h1,if_pos]
  exact fun h8 => hc (Or.inr ⟨he,hs,h1,h8⟩)

theorem remove_none {k : Fin sizeTrees} (h : a k = none) : a.remove extid k = none := by
  rw [remove,h]
  rfl

theorem age_cases (s : Assembly) :
    age (some s) = none ∨ ∃ n, age (some s) = some {s with timeout := n} := by
  unfold age
  dsimp only
  split_ifs
  · exact Or.inr ⟨s.timeout,rfl⟩
  · exact Or.inl rfl
  · exact Or.inr ⟨s.timeout-1,rfl⟩

/-- A push drops a packet in assembly, or ages it, or leaves it, when it does not go on with it. -/
theorem push_unfinished (hdist : a.Distinct) (hk : a k = some s) (hd : s.dlc = 0#8)
    (hno : ¬ (Pool.Op.push extid data dlc).Continues s.extid
      (.pushed (a.push extid data dlc).2)) :
    (PushDiscards s.extid a extid dlc →
      (a.push extid data dlc).1 k = none ∨ Opens extid dlc ∧ extid.sameId s.extid) ∧
    (¬ PushDiscards s.extid a extid dlc →
      (a.push extid data dlc).1 k =
        if a.pushAges extid dlc then age (some s) else some s) := by
  unfold PushDiscards pushAges
  by_cases hu : a.used = sizeItems
  · have hpush : (a.push extid data dlc).1 k = a.timeout.remove extid k := by
      rw [push,if_pos hu]
    rw [hpush,if_pos hu,if_pos rfl]
    rcases age_cases s with ha | ⟨n,ha⟩
    · have hn : a.timeout.remove extid k = none := remove_none ((timeout_eq hk).trans ha)
      rw [hn,ha]
      exact ⟨fun _ => Or.inl rfl,fun _ => rfl⟩
    · rw [ha]
      have ht := (timeout_eq hk).trans ha
      exact ⟨fun h => Or.inl (remove_same ht hd h.1),
        fun h => remove_other ht fun hid => h ⟨hid,Or.inl hu⟩⟩
  rw [if_neg hu]
  by_cases ho : Opens extid dlc
  · rw [if_pos ho]
    refine ⟨fun h => Or.inr ⟨ho,h.1⟩,fun h => ?_⟩
    obtain ⟨dlc',hpush⟩ := @push_opens _ _ data _ hu ho
    rw [hpush]
    exact pushNew_other hk fun hid => h ⟨hid,Or.inr (Or.inl ho)⟩
  rw [if_neg ho]
  by_cases hc : Carries extid dlc
  · rw [push_carries hu hc] at hno ⊢
    rw [if_pos hc]
    have hnext := pushNext_unfinished hk hd fun h => hno ⟨h.1,hc,h.2⟩
    constructor
    · rintro ⟨hid,h | h | ⟨-,hseq⟩⟩
      · exact absurd h hu
      · exact absurd h ho
      · refine Or.inl ?_
        rw [hnext,firstAwaiting_eq hdist hk ⟨hd,hid.symm⟩]
        exact (if_pos hseq).trans (if_pos hid)
    · intro h
      rw [hnext]
      cases hf : a.firstAwaiting extid with
      | none => rfl
      | some ju =>
        obtain ⟨j,u⟩ := ju
        dsimp only
        by_cases hseq : OutOfSeq u.extid extid dlc
        · have hid : ¬ extid.sameId s.extid := by
            intro hid
            rw [firstAwaiting_eq hdist hk ⟨hd,hid.symm⟩] at hf
            cases hf
            exact h ⟨hid,Or.inr (Or.inr ⟨hc,hseq⟩)⟩
          rw [if_pos (decide_eq_true hseq)]
          exact (if_pos hseq).trans (if_neg hid)
        · exact (if_neg hseq).trans (if_neg (by simpa using hseq)).symm
  · rw [push_neither hu ho hc,if_neg hc]
    refine ⟨fun h => ?_,fun _ => hk⟩
    rcases h.2 with h | h | h
    · exact absurd h hu
    · exact absurd h ho
    · exact absurd h.1 hc

theorem readFrom_unfinished {dest : List Byte} {src : BitVec 7} {ks : List (Fin sizeTrees)}
    (hk : a k = some s) (hd : s.dlc = 0#8) : (readFrom dest src ks a).1 k = some s := by
  induction ks generalizing a dest src with
  | nil => exact hk
  | cons j ks ih =>
    unfold readFrom
    cases hj : a j with
    | none => exact ih hk
    | some u =>
      dsimp only
      by_cases hu : u.dlc = 0#8
      · rw [if_pos hu]
        exact ih hk
      · have hne : k ≠ j := by
          rintro rfl
          rw [hk] at hj
          exact hu (Option.some.inj hj ▸ hd)
        have hkj : update a j none k = some s := (update_of_ne hne _ _).trans hk
        rw [if_neg hu]
        by_cases hw : (u.read dest).pos > 0
        · rw [if_pos hw]
          exact hkj
        · rw [if_neg hw]
          exact ih hkj

def ages (a : Assemblies) : Pool.Op → Bool
  | .push extid _ dlc => a.pushAges extid dlc
  | .readPacket .. => false
  | .timeout => true

def Discards (id : Extid) (a : Assemblies) : Pool.Op → Prop
  | .push extid _ dlc => PushDiscards id a extid dlc
  | _ => False

theorem step_unfinished (hdist : a.Distinct) (hk : a k = some s) (hd : s.dlc = 0#8)
    {op : Pool.Op} (hno : ¬ op.Continues s.extid (a.step op).2) :
    (Discards s.extid a op → (a.step op).1 k = none ∨ op.Begins s.extid) ∧
    (¬ Discards s.extid a op →
      (a.step op).1 k = (if a.ages op then age (some s) else some s) ∧ ¬ op.Begins s.extid) := by
  cases op with
  | push extid data dlc =>
    rw [step_push] at hno ⊢
    dsimp only at hno ⊢
    obtain ⟨hdrop,hage⟩ := push_unfinished hdist hk hd hno
    exact ⟨hdrop,fun h => ⟨hage h,fun hb => h ⟨hb.2,Or.inr (Or.inl hb.1)⟩⟩⟩
  | readPacket dest src =>
    rw [step_readPacket,readPacket]
    dsimp only
    refine ⟨False.elim,fun _ => ⟨?_,id⟩⟩
    exact (readFrom_unfinished hk hd).trans (if_neg Bool.false_ne_true).symm
  | timeout =>
    rw [step_timeout]
    exact ⟨False.elim,fun _ => ⟨timeout_eq hk,id⟩⟩

def finished (a : Assemblies) : Finset (Fin sizeTrees) :=
  Finset.univ.filter fun k => (a k).any fun s => s.dlc ≠ 0#8

theorem mem_finished : k ∈ a.finished ↔ ∃ s, a k = some s ∧ s.dlc ≠ 0#8 := by
  unfold finished
  rw [Finset.mem_filter]
  simp only [Finset.mem_univ,true_and,Option.any_eq_true,decide_eq_true_eq]

theorem finished_subset : a.finished ⊆ (a.push extid data dlc).1.finished := by
  intro k hk
  obtain ⟨s,hs,hd⟩ := mem_finished.mp hk
  exact mem_finished.mpr ⟨s,push_finished hs hd,hd⟩

theorem pushNext_completes (h0 : dlc ≠ 0#8)
    (hp : (a.pushNext extid data dlc).2 = .packetAvailable) :
    ∃ j u, a j = some u ∧ u.dlc = 0#8 ∧ ∃ s, (a.pushNext extid data dlc).1 j = some s ∧
      s.dlc ≠ 0#8 := by
  revert hp
  unfold pushNext
  cases hf : a.firstAwaiting extid with
  | none =>
    intro hp
    cases hp
  | some ju =>
    obtain ⟨j,u⟩ := ju
    obtain ⟨hu,haw⟩ := firstAwaiting_some hf
    dsimp only
    cases hc : Pool.checkSeq u.extid extid dlc with
    | error rv =>
      unfold Pool.checkSeq at hc
      rw [if_neg h0] at hc
      cases hc
    | ok tFrm => exact fun _ => ⟨j,u,hu,haw.1,_,update_self ..,h0⟩

theorem finished_completes {id : Extid} (hc : (Pool.Op.push extid data dlc).completes id
    (.pushed (a.push extid data dlc).2)) :
    a.finished.card < (a.push extid data dlc).1.finished.card := by
  obtain ⟨-,hend,hp⟩ := of_decide_eq_true hc
  refine Finset.card_lt_card ((Finset.ssubset_iff_of_subset finished_subset).mpr ?_)
  by_cases hu : a.used = sizeItems
  · rw [push,if_pos hu] at hp
    cases hp
  have h0 : dlc ≠ 0#8 := by
    intro h0
    rw [push,if_neg hu,if_pos hend,if_pos h0] at hp
    cases hp
  rw [push_carries hu (Or.inl ⟨hend,h0⟩),if_pos hend] at hp ⊢
  obtain ⟨j,u,hu,hd,s,hs,hds⟩ := pushNext_completes h0 hp
  refine ⟨j,mem_finished.mpr ⟨s,hs,hds⟩,fun hm => ?_⟩
  obtain ⟨u',hu',hd'⟩ := mem_finished.mp hm
  rw [hu] at hu'
  exact hd' (Option.some.inj hu' ▸ hd)

end Assemblies

namespace Pool
variable {p q : Pool} {a : Assemblies} {k : Fin sizeTrees} {s : Assembly} {op : Op}

theorem Refines.pushAges (h : p.Refines a) (extid : Extid) (dlc : Byte) :
    p.pushAges extid dlc = a.pushAges extid dlc := by
  obtain ⟨q,hq,hqr⟩ := h.remove extid
  obtain ⟨chains,hr⟩ := h
  obtain ⟨chains',hr'⟩ := hqr
  unfold Pool.pushAges Assemblies.pushAges
  rw [hq,hr.firstAwaiting]
  dsimp only
  rw [hr'.firstFree]
  simp only [hr.free_eq]
  split_ifs
  · rfl
  · rfl
  · cases hf : a.firstAwaiting extid with
    | none => rfl
    | some ju =>
      obtain ⟨j,u⟩ := ju
      obtain ⟨-,hext,-⟩ := Refines.tree ⟨chains,hr⟩ (Assemblies.firstAwaiting_some hf).1
      dsimp only [Option.map_some]
      rw [hext]
  · rfl

theorem Refines.ages (h : p.Refines a) (op : Op) : p.ages op = a.ages op := by
  cases op with
  | push extid data dlc => exact h.pushAges extid dlc
  | readPacket dest src => rfl
  | timeout => rfl

theorem Refines.discards (h : p.Refines a) (id : Extid) (op : Op) :
    Discards id p op ↔ Assemblies.Discards id a op := by
  obtain ⟨chains,hr⟩ := h
  cases op with
  | push extid data dlc =>
    unfold Pool.Discards Assemblies.Discards PushDiscards Assemblies.PushDiscards
    dsimp only
    rw [hr.free_eq]
  | readPacket dest src => exact Iff.rfl
  | timeout => exact Iff.rfl

theorem Refines.tree_timeout (h : p.Refines a) (hk : a k = some s) :
    (p.trees k).timeout = s.timeout := by
  obtain ⟨chains,hr⟩ := h
  have hold := hr.holds k
  rw [hk] at hold
  exact hold.2.2.2.2

def During (p : Pool) (ops : List Op) (P : Pool → Op → Prop) : Prop :=
  ∃ ops1 op ops2 q, ops = ops1 ++ op :: ops2 ∧ p.run ops1 = some q ∧ P q op

theorem during_cons {r : Result} {ops : List Op} {P : Pool → Op → Prop}
    (h : p.step op = some (q,r)) : p.During (op :: ops) P ↔ P p op ∨ q.During ops P := by
  constructor
  · rintro ⟨ops1,op',ops2,q',hops,hq',hP⟩
    cases ops1 with
    | nil =>
      cases hops
      cases hq'
      exact Or.inl hP
    | cons op1 ops1 =>
      cases hops
      rw [run_cons_eq ops1 h] at hq'
      exact Or.inr ⟨ops1,op',ops2,q',rfl,hq',hP⟩
  · rintro (hP | ⟨ops1,op',ops2,q',rfl,hq',hP⟩)
    · exact ⟨[],op,ops,p,rfl,rfl,hP⟩
    · exact ⟨op :: ops1,op',ops2,q',rfl,(run_cons_eq ops1 h).trans hq',hP⟩

def Unfinished (p : Pool) (k : Fin sizeTrees) : Prop :=
  (p.trees k).head ≠ maxIdx ∧ (p.trees k).dlc = 0#8

def Releases (p : Pool) (k : Fin sizeTrees) (op : Op) : Prop :=
  ∃ q r, p.step op = some (q,r) ∧ ((q.trees k).head = maxIdx ∨ op.Begins (p.trees k).extid)

def Released (p : Pool) (k : Fin sizeTrees) (ops : List Op) : Prop :=
  p.During ops fun q op => p.Kept q k ∧ q.Releases k op

/-- No message is taken into the packet in a tree while it is there. -/
def Abandoned (p : Pool) (k : Fin sizeTrees) (ops : List Op) : Prop :=
  ¬ p.During ops fun q op => p.Kept q k ∧
    ∃ q' r, q.step op = some (q',r) ∧ op.Continues (p.trees k).extid r

/-- The number of calls that run `timeout()`. -/
def agings : Pool → List Op → Nat
  | _, [] => 0
  | p, op :: ops => (if p.ages op then 1 else 0)+
    match p.step op with
    | none => 0
    | some (p,_) => agings p ops

/-- The number of packets of several messages that are completed, that of `id` apart. -/
def completions (id : Extid) : Pool → List Op → Nat
  | _, [] => 0
  | p, op :: ops =>
    match p.step op with
    | none => 0
    | some (p,r) => (if op.completes id r then 1 else 0)+completions id p ops

theorem Kept.trans {r : Pool} (h : p.Kept q k) (h' : q.Kept r k) : p.Kept r k :=
  ⟨h'.head,h'.extid.trans h.extid,h'.dlc.trans h.dlc,h'.chain.trans h.chain⟩

theorem Kept.kept_iff {r : Pool} (h : p.Kept q k) : q.Kept r k ↔ p.Kept r k :=
  ⟨h.trans,fun h' => ⟨h'.head,h'.extid.trans h.extid.symm,h'.dlc.trans h.dlc.symm,
    h'.chain.trans h.chain.symm⟩⟩

theorem Refines.kept_aged {b : Assemblies} {n : Nat} (hp : p.Refines a) (hq : q.Refines b)
    (ha : a k = some s) (hb : b k = some {s with timeout := n}) : p.Kept q k := by
  obtain ⟨-,he,hd,hc⟩ := hp.tree ha
  obtain ⟨hh',he',hd',hc'⟩ := hq.tree hb
  exact ⟨hh',he'.trans he.symm,hd'.trans hd.symm,hc'.trans hc.symm⟩

theorem Refines.releases (h : p.Refines a) (hk : a k = some s) :
    p.Releases k op ↔ (a.step op).1 k = none ∨ op.Begins s.extid := by
  obtain ⟨-,hext,-⟩ := h.tree hk
  obtain ⟨q,hq,chains,hr⟩ := h.step op
  rw [← hr.head_eq,← hext]
  constructor
  · rintro ⟨q',r,hq',hrel⟩
    rw [hq,Option.some.injEq,Prod.mk.injEq] at hq'
    rw [hq'.1]
    exact hrel
  · exact fun hrel => ⟨q,_,hq,hrel⟩

theorem released_cons {r : Result} {ops : List Op} (h : p.step op = some (q,r))
    (hk : p.Kept q k) (hrel : ¬ p.Releases k op) :
    p.Released k (op :: ops) ↔ q.Released k ops := by
  unfold Released
  rw [during_cons h]
  simp only [hk.kept_iff,hrel,and_false,false_or]

theorem abandoned_cons {r : Result} {ops : List Op} (h : p.step op = some (q,r))
    (hk : p.Kept q k) (hab : p.Abandoned k (op :: ops)) : q.Abandoned k ops := by
  unfold Abandoned at *
  rw [during_cons h,not_or] at hab
  simp only [hk.kept_iff,hk.extid]
  exact hab.2

theorem Refines.not_continues {ops : List Op} (h : p.Refines a) (hk : a k = some s)
    (hq : p.step op = some (q,(a.step op).2)) (hab : p.Abandoned k (op :: ops)) :
    ¬ op.Continues s.extid (a.step op).2 := by
  obtain ⟨-,hext,-⟩ := h.tree hk
  unfold Abandoned at hab
  rw [during_cons hq,not_or] at hab
  exact fun hc => hab.1 ⟨h.kept h hk hk,q,_,hq,hext ▸ hc⟩

theorem Refines.released_abandoned {ops : List Op} (h : p.Refines a) (hdist : a.Distinct)
    (hk : a k = some s) (hd : s.dlc = 0#8) (hab : p.Abandoned k ops) :
    p.Released k ops ↔
      p.During ops (Discards s.extid) ∨ s.timeout+1 ≤ p.agings ops := by
  induction ops generalizing p a s with
  | nil =>
    have hnone : ∀ P, ¬ p.During [] P := by
      rintro P ⟨ops1,op,ops2,q,hops,-⟩
      simp at hops
    refine iff_of_false (hnone _) ?_
    rw [not_or]
    exact ⟨hnone _,Nat.not_succ_le_zero _⟩
  | cons op ops ih =>
    obtain ⟨q,hq,hqr⟩ := h.step op
    have hself : p.Kept p k := h.kept h hk hk
    have hcont := h.not_continues hk hq hab
    obtain ⟨hdrop,hage⟩ := Assemblies.step_unfinished hdist hk hd hcont
    have hag : p.agings (op :: ops) = (if a.ages op then 1 else 0)+q.agings ops := by
      rw [agings,hq,h.ages]
    rw [during_cons hq,h.discards,hag]
    by_cases hdis : Assemblies.Discards s.extid a op
    · refine iff_of_true ?_ (Or.inl (Or.inl hdis))
      exact (during_cons hq).mpr (Or.inl ⟨hself,(h.releases hk).mpr (hdrop hdis)⟩)
    obtain ⟨hstep,hbeg⟩ := hage hdis
    rw [or_iff_right hdis]
    have hrest : ∀ n, (a.step op).1 k = some {s with timeout := n} →
        (p.Released k (op :: ops) ↔ q.During ops (Discards s.extid) ∨ n+1 ≤ q.agings ops) := by
      intro n hn
      have hkept := h.kept_aged hqr hk hn
      have hrel : ¬ p.Releases k op := by
        rw [h.releases hk,hn]
        rintro (h0 | h0)
        · cases h0
        · exact hbeg h0
      rw [released_cons hq hkept hrel]
      exact ih hqr (hdist.step op) hn hd (abandoned_cons hq hkept hab)
    by_cases hages : a.ages op
    · rw [if_pos hages] at hstep ⊢
      by_cases h0 : s.timeout = 0
      · refine iff_of_true ?_ (Or.inr (by omega))
        refine (during_cons hq).mpr (Or.inl ⟨hself,(h.releases hk).mpr (Or.inl ?_)⟩)
        rw [hstep,Assemblies.age,if_neg (not_not.mpr hd),if_pos h0]
      · rw [Assemblies.age,if_neg (not_not.mpr hd),if_neg h0] at hstep
        rw [hrest _ hstep]
        refine or_congr_right ?_
        omega
    · rw [if_neg hages] at hstep ⊢
      rw [hrest s.timeout hstep,Nat.zero_add]

/-- Without reads, completed packets fill the trees, and one that gets no more messages has to
give way. -/
theorem Refines.released_of_pushes {ops : List Op} (h : p.Refines a) (hdist : a.Distinct)
    (hk : a k = some s) (hd : s.dlc = 0#8) (hab : p.Abandoned k ops)
    (hpush : ∀ op ∈ ops, ∃ extid data dlc, op = .push extid data dlc)
    (hc : sizeTrees ≤ a.finished.card+p.completions s.extid ops) : p.Released k ops := by
  induction ops generalizing p a s with
  | nil =>
    have hlt := Finset.card_lt_univ_of_notMem (s := a.finished) (x := k) fun hm => by
      obtain ⟨u,hu,hdu⟩ := Assemblies.mem_finished.mp hm
      rw [hk] at hu
      exact hdu (Option.some.inj hu ▸ hd)
    rw [Fintype.card_fin] at hlt
    exact absurd hc (Nat.not_le.mpr hlt)
  | cons op ops ih =>
    obtain ⟨q,hq,hqr⟩ := h.step op
    have hself : p.Kept p k := h.kept h hk hk
    have hcont := h.not_continues hk hq hab
    by_cases hrel : p.Releases k op
    · exact (during_cons hq).mpr (Or.inl ⟨hself,hrel⟩)
    rw [h.releases hk,not_or] at hrel
    obtain ⟨n,hn⟩ : ∃ n, (a.step op).1 k = some {s with timeout := n} := by
      obtain ⟨hdrop,hage⟩ := Assemblies.step_unfinished hdist hk hd hcont
      by_cases hdis : Assemblies.Discards s.extid a op
      · exact absurd (hdrop hdis) (not_or.mpr hrel)
      · have hstep := (hage hdis).1
        split_ifs at hstep
        · rcases Assemblies.age_cases s with h0 | ⟨n,hn⟩
          · exact absurd (hstep.trans h0) hrel.1
          · exact ⟨n,hstep.trans hn⟩
        · exact ⟨s.timeout,hstep⟩
    have hkept := h.kept_aged hqr hk hn
    have hcard : (if op.completes s.extid (a.step op).2 then 1 else 0)+a.finished.card ≤
        (a.step op).1.finished.card := by
      obtain ⟨extid,data,dlc,rfl⟩ := hpush op List.mem_cons_self
      rw [Assemblies.step_push]
      dsimp only
      split_ifs with hcomp
      · rw [Nat.add_comm]
        exact Assemblies.finished_completes hcomp
      · rw [Nat.zero_add]
        exact Finset.card_le_card Assemblies.finished_subset
    rw [completions,hq] at hc
    dsimp only at hc
    rw [released_cons hq hkept (by rw [h.releases hk]; exact not_or.mpr hrel)]
    refine ih hqr (hdist.step op) hn hd (abandoned_cons hq hkept hab)
      (fun op hm => hpush op (List.mem_cons_of_mem _ hm)) ?_
    dsimp only
    omega

theorem run_unfinished {ops : List Op} (hp : init.run ops = some p) (hu : p.Unfinished k) :
    ∃ a s, p.Refines a ∧ a.Distinct ∧ a k = some s ∧ s.dlc = 0#8 ∧
      (p.trees k).extid = s.extid ∧ (p.trees k).timeout = s.timeout := by
  obtain ⟨p',hp',hr⟩ := init_refines.run ops
  rw [hp,Option.some.injEq] at hp'
  subst hp'
  cases hk : Assemblies.run Assemblies.empty ops k with
  | none =>
    obtain ⟨chains,hrep⟩ := hr
    exact absurd ((hrep.head_eq k).mpr hk) hu.1
  | some s =>
    obtain ⟨-,hext,hdlc,-⟩ := hr.tree hk
    exact ⟨_,s,hr,Assemblies.empty_distinct.run ops,hk,hdlc.symm.trans hu.2,hext,
      hr.tree_timeout hk⟩

theorem released_of_pushes (ops ops' : List Op) (hp : init.run ops = some p) (hu : p.Unfinished k)
    (hab : p.Abandoned k ops') (hpush : ∀ op ∈ ops', ∃ extid data dlc, op = .push extid data dlc)
    (hc : sizeTrees ≤ p.completions (p.trees k).extid ops') : p.Released k ops' := by
  obtain ⟨a,s,hr,hdist,hk,hd,hext,-⟩ := run_unfinished hp hu
  rw [hext] at hc
  exact hr.released_of_pushes hdist hk hd hab hpush (Nat.le_add_left_of_le hc)

/-- A packet in assembly that gets no more messages is released by a run exactly when some push
drops it for its identifier, or `timeout()` runs often enough; that packets are completed does not
count. -/
theorem released_iff (ops ops' : List Op) (hp : init.run ops = some p) (hu : p.Unfinished k)
    (hab : p.Abandoned k ops') :
    p.Released k ops' ↔ p.During ops' (Discards (p.trees k).extid) ∨
      (p.trees k).timeout+1 ≤ p.agings ops' := by
  obtain ⟨a,s,hr,hdist,hk,hd,hext,hto⟩ := run_unfinished hp hu
  rw [hext,hto]
  exact hr.released_abandoned hdist hk hd hab

theorem released_iff_orphans :
    ∃ p, init.run [.push ⟨frmStart,9#16,5#7,0#3,0#3⟩ (Vector.replicate 8 7#8) 8#8] = some p ∧
      p.Released 0 (List.replicate 8
        (.push ⟨0#3,9#16,6#7,0#3,0#3⟩ (Vector.replicate 8 1#8) 8#8)) := by
  have hmap : (init.run [.push ⟨frmStart,9#16,5#7,0#3,0#3⟩ (Vector.replicate 8 7#8) 8#8]).map
      (fun p => (p.trees 0,p.agings (List.replicate 8
        (.push ⟨0#3,9#16,6#7,0#3,0#3⟩ (Vector.replicate 8 1#8) 8#8)))) =
      some (⟨⟨0#3,9#16,5#7,0#3,0#3⟩,0,0#8,7⟩,8) := by decide +kernel
  obtain ⟨p,hp,hv⟩ := Option.map_eq_some_iff.mp hmap
  rw [Prod.mk.injEq] at hv
  have hu : p.Unfinished 0 := by
    unfold Unfinished
    rw [hv.1]
    decide
  have hab : p.Abandoned 0 (List.replicate 8
      (.push ⟨0#3,9#16,6#7,0#3,0#3⟩ (Vector.replicate 8 1#8) 8#8)) := by
    rintro ⟨ops1,op,ops2,q,hops,-,-,q',r,-,hc⟩
    have hop : op ∈ ops1 ++ op :: ops2 := by simp
    rw [← hops] at hop
    rw [List.eq_of_mem_replicate hop,hv.1] at hc
    cases r with
    | pushed rv => exact absurd hc.1 (by decide)
    | read r => exact hc
    | aged => exact hc
  refine ⟨p,hp,(released_iff _ _ hp hu hab).mpr (Or.inr ?_)⟩
  rw [hv.1,hv.2]

def traffic : List Op :=
  (List.replicate 8 [.push ⟨frmStart,9#16,6#7,0#3,0#3⟩ (Vector.replicate 8 1#8) 8#8,
    .push ⟨frmEnd,9#16,6#7,0#3,0#3⟩ (Vector.replicate 8 1#8) 2#8,
    .readPacket (List.replicate 610 0#8) 0#7]).flatten

theorem mem_traffic {op : Op} (h : op ∈ traffic) :
    (∃ dest src, op = .readPacket dest src) ∨
      ∃ frm data dlc, op = .push ⟨frm,9#16,6#7,0#3,0#3⟩ data dlc := by
  unfold traffic at h
  obtain ⟨l,hl,hop⟩ := List.mem_flatten.mp h
  rw [List.eq_of_mem_replicate hl] at hop
  rcases List.mem_cons.mp hop with rfl | hop
  · exact Or.inr ⟨_,_,_,rfl⟩
  rcases List.mem_cons.mp hop with rfl | hop
  · exact Or.inr ⟨_,_,_,rfl⟩
  rw [List.mem_singleton.mp hop]
  exact Or.inl ⟨_,_,rfl⟩

/-- Behind the first message of a packet that is never continued, all of `traffic` is completed
and that packet keeps its tree. -/
theorem orphan_stays :
    ∃ p, init.run [.push ⟨frmStart,9#16,5#7,0#3,0#3⟩ (Vector.replicate 8 7#8) 8#8] = some p ∧
      p.Unfinished 0 ∧ p.Abandoned 0 traffic ∧
      p.completions (p.trees 0).extid traffic = xcanCodecTimeout+1 ∧ ¬ p.Released 0 traffic := by
  obtain ⟨p,hp,hr⟩ := init_refines.run
    [.push ⟨frmStart,9#16,5#7,0#3,0#3⟩ (Vector.replicate 8 7#8) 8#8]
  have hk : Assemblies.run Assemblies.empty
      [.push ⟨frmStart,9#16,5#7,0#3,0#3⟩ (Vector.replicate 8 7#8) 8#8] 0 =
      some ⟨⟨0#3,9#16,5#7,0#3,0#3⟩,0#8,7,[Vector.replicate 8 7#8]⟩ := by decide +kernel
  obtain ⟨hhead,hext,hdlc,-⟩ := hr.tree hk
  have hmap : (init.run [.push ⟨frmStart,9#16,5#7,0#3,0#3⟩ (Vector.replicate 8 7#8) 8#8]).map
      (fun p => (p.completions ⟨0#3,9#16,5#7,0#3,0#3⟩ traffic,p.agings traffic)) =
      some (8,0) := by decide +kernel
  rw [hp,Option.map_some,Option.some.injEq,Prod.mk.injEq] at hmap
  have hother : ∀ frm, ¬ Extid.sameId ⟨frm,9#16,6#7,0#3,0#3⟩ ⟨0#3,9#16,5#7,0#3,0#3⟩ := by decide
  have hmem : ∀ {ops1 ops2 : List Op} {op : Op}, traffic = ops1 ++ op :: ops2 → op ∈ traffic :=
    fun h => h ▸ by simp
  have hab : p.Abandoned 0 traffic := by
    rintro ⟨ops1,op,ops2,q,hops,-,-,q',r,-,hc⟩
    rw [hext] at hc
    rcases mem_traffic (hmem hops) with ⟨dest,src,rfl⟩ | ⟨frm,data,dlc,rfl⟩
    · exact hc
    · cases r with
      | pushed rv => exact hother frm hc.1
      | read r => exact hc
      | aged => exact hc
  refine ⟨p,hp,⟨hhead,hdlc⟩,hab,by rw [hext]; exact hmap.1,?_⟩
  rw [hr.released_abandoned (Assemblies.empty_distinct.run _) hk rfl hab,hmap.2]
  rintro (⟨ops1,op,ops2,q,hops,-,hc⟩ | hc)
  · rcases mem_traffic (hmem hops) with ⟨dest,src,rfl⟩ | ⟨frm,data,dlc,rfl⟩
    · exact hc
    · exact hother frm hc.1
  · exact absurd hc (by decide)

end Pool

end ApxBus.Can
