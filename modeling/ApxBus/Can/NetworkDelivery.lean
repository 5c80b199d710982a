import ApxBus.Can.Network
import ApxBus.Cursor
import Mathlib.Data.Fintype.Sigma
import Mathlib.Data.List.OfFn
set_option autoImplicit false

/-!
The network seen from one node is the shared bus: among nodes of distinct addresses each packet
is read exactly once by every other node.
-/

namespace ApxBus.Can
open Function Callsigns

theorem sendFrames_taken (extid : Extid) (crc16 : BitVec 16) (take : Nat → Bool) (fuel cnt : Nat)
    (src : List Byte) (frm : BitVec 3) (tx : XcanMsg) (n : Nat)
    (h : (sendFrames extid crc16 take fuel cnt src frm tx n).1 = true) :
    sendFrames extid crc16 take fuel cnt src frm tx n =
      sendFrames extid crc16 (fun _ => true) fuel cnt src frm tx n := by
  induction fuel generalizing cnt src frm tx n with
  | zero => rfl
  | succ fuel ih =>
    unfold sendFrames at h ⊢
    by_cases h0 : cnt = 0
    · simp [h0]
    simp only [if_neg h0,if_true] at h ⊢
    by_cases ht : take n = true
    · rw [if_pos ht] at h ⊢
      rw [ih _ _ _ _ _ h]
    · rw [if_neg ht] at h
      simp at h

theorem sendPacket_taken (e : Extid) (tx : XcanMsg) (take : Nat → Bool) (data : List Byte)
    (h : (sendPacket e tx take data).1 = true) :
    sendPacket e tx take data = sendPacket e tx (fun _ => true) data := by
  unfold sendPacket at h ⊢
  split_ifs at h ⊢ with h2
  · rfl
  · dsimp only at h ⊢
    by_cases h8 : (Reader.mk data 0).read16.2.available ≤ 8
    · rw [if_pos h8] at h ⊢
      rw [if_pos h8,show take 0 = true from h]
    · rw [if_neg h8] at h ⊢
      rw [if_neg h8]
      exact sendFrames_taken _ _ _ _ _ _ _ _ _ h

namespace Network
variable {ι : Type} [DecidableEq ι]

/-- Among nodes of distinct addresses nobody hears its own, and each message is from the node
whose address it bears. -/
structure Known (c : ι → Codec) (s : Network ι) : Prop where
  src : ∀ i, (s.codec i).extidDefaults.src = (c i).extidDefaults.src
  tx : ∀ i, ∀ m ∈ s.tx i, m.src = (c i).extidDefaults.src
  rx : ∀ i, ∀ m ∈ s.rx i, ∃ j, j ≠ i ∧ m.src = (c j).extidDefaults.src

theorem known_run {c : ι → Codec} (hc : Injective fun i => (c i).extidDefaults.src)
    {l : List ι} {s : Network ι} (h : Trace Step (start c) l s) : l = [] ∧ s.Known c := by
  have ht := h.simulates signs fun _ _ _ hs => hs.signs
  rw [signs_start] at ht
  obtain ⟨hl,hsign,hk⟩ := State.known_run hc ht
  have hsrc : ∀ i, (s.codec i).extidDefaults.src = (c i).extidDefaults.src := congrFun hsign
  refine ⟨hl,hsrc,fun i m hm => ?_,fun i m hm => ?_⟩
  · rw [← hsrc]
    exact hk.sending i m.src (List.mem_map_of_mem hm)
  · obtain ⟨j,hj,he⟩ := hk.inbox i m.src (List.mem_map_of_mem hm)
    exact ⟨j,hj,he.trans (hsrc j)⟩

variable [Fintype ι]

/-- Of the packets `F` that the nodes send, those that node `k` is to receive. -/
abbrev Packets (F : ι → List Sending) (k : ι) := Σ i : {i // i ≠ k}, Fin (F i.1).length

def packet {F : ι → List Sending} {k : ι} (a : Packets F k) : Sending := (F a.1.1).get a.2

noncomputable def family (F : ι → List Sending) (k : ι) (j : Fin (Fintype.card (Packets F k))) :
    Sending := packet ((Fintype.equivFin (Packets F k)).symm j)

/-- How many messages of a packet have been handled, when `cur i` tells how far the packets of
`i` have. -/
def handled {F : ι → List Sending} {k : ι} (cur : ι → Cursor) (a : Packets F k) : Nat :=
  (cur a.1.1).behind a.2 (packet a).msgs.length

noncomputable def seen (c : Codec) (F : ι → List Sending) (k : ι) (cur : ι → Cursor)
    (s : Network ι) : Bus (Fintype.card (Packets F k)) where
  codec := {c with pool := (s.codec k).pool}
  pushed := fun j => handled cur ((Fintype.equivFin (Packets F k)).symm j)
  returned := s.returned k

/-- What `k` has still to handle of the packets of `i` is what waits on the way. -/
structure View (c : ι → Codec) (F : ι → List Sending) (k : ι) (s : Network ι)
    (cur : ι → Cursor) : Prop where
  place : ∀ i, i ≠ k → (cur i).At ((s.sent i).map Sending.msgs)
  left : ∀ i, i ≠ k → (cur i).left ((s.sent i).map Sending.msgs) =
    (s.rx k).filter (fun m => m.src = (c i).extidDefaults.src) ++ s.tx i
  run : Relation.ReflTransGen (Bus.Step (family F k)) (Bus.start (c k)) (seen (c k) F k cur s)

variable {c : ι → Codec} {F : ι → List Sending} {k : ι} {s s' : Network ι} {cur : ι → Cursor}

theorem seen_congr (c : Codec) (cur : ι → Cursor) (hp : (s'.codec k).pool = (s.codec k).pool)
    (hr : s'.returned k = s.returned k) : seen c F k cur s' = seen c F k cur s := by
  simp only [seen,hp,hr]

theorem View.congr (h : View c F k s cur) (hsent : ∀ i, i ≠ k → s'.sent i = s.sent i)
    (hrx : s'.rx k = s.rx k) (htx : ∀ i, i ≠ k → s'.tx i = s.tx i)
    (hp : (s'.codec k).pool = (s.codec k).pool) (hr : s'.returned k = s.returned k) :
    View c F k s' cur where
  place := fun i hi => by rw [hsent i hi]; exact h.place i hi
  left := fun i hi => by rw [hsent i hi,hrx,htx i hi]; exact h.left i hi
  run := by rw [seen_congr (c k) cur hp hr]; exact h.run

theorem View.send (h : View c F k s cur) {i : ι} {data : List Byte} {hd : 2 ≤ data.length}
    {take : Nat → Bool} (ha : (s.send i data hd take).aborted i = false) :
    View c F k (s.send i data hd take) cur := by
  have hone : (sendPacket (s.codec i).extidDefaults (s.codec i).txmsg take data).1 = true := by
    have hboth : s.aborted i = false ∧
        (sendPacket (s.codec i).extidDefaults (s.codec i).txmsg take data).1 = true := by
      simpa [Network.send] using ha
    exact hboth.2
  have hpool : ((s.send i data hd take).codec k).pool = (s.codec k).pool := by
    by_cases hik : k = i
    · subst hik
      simp [Network.send]
    · simp [Network.send,update_of_ne hik]
  have hne : ∀ j, j ≠ i → (s.send i data hd take).sent j = s.sent j ∧
      (s.send i data hd take).tx j = s.tx j := by
    intro j hj
    simp [Network.send,hone,update_of_ne hj]
  obtain ⟨x,hx,htx⟩ : ∃ x : Sending, (s.send i data hd take).sent i = s.sent i ++ [x] ∧
      (s.send i data hd take).tx i = s.tx i ++ x.msgs := by
    refine ⟨⟨(s.codec i).extidDefaults,(s.codec i).txmsg,data,hd⟩,by simp [Network.send,hone],?_⟩
    have heq := sendPacket_taken _ _ _ _ hone
    rw [heq] at hone
    simp [Network.send,queued,Sending.msgs,heq,hone]
  refine ⟨fun j hj => ?_,fun j hj => ?_,by rw [seen_congr (c k) cur hpool rfl]; exact h.run⟩
  · by_cases hji : j = i
    · subst hji
      rw [hx,List.map_append]
      exact Cursor.at_append (List.ne_nil_of_length_pos x.msgs_length_pos) (h.place j hj)
    · rw [(hne j hji).1]
      exact h.place j hj
  · by_cases hji : j = i
    · subst hji
      rw [hx,List.map_append,htx,← List.append_assoc]
      exact (Cursor.left_append (h.place j hj)).trans (by rw [h.left j hj]; rfl)
    · rw [(hne j hji).1,(hne j hji).2]
      exact h.left j hj

theorem View.carry (h : View c F k s cur) (hc : Injective fun i => (c i).extidDefaults.src)
    (hk : s.Known c) {i : ι} {m : XcanMsg} {rest : List XcanMsg} (hq : s.tx i = m :: rest) :
    View c F k (s.carry i m rest) cur := by
  have hm := hk.tx i m (by simp [hq])
  refine ⟨h.place,fun j hj => ?_,h.run⟩
  have hl := h.left j hj
  by_cases hik : i = k
  · subst hik
    simpa [Network.carry,update_of_ne hj] using hl
  · by_cases hji : j = i
    · subst hji
      simpa [Network.carry,Ne.symm hik,hm,hq] using hl
    · have hne : m.src ≠ (c j).extidDefaults.src := fun he => hji (hc (he.symm.trans hm))
      simpa [Network.carry,Ne.symm hik,update_of_ne hji,hne] using hl

theorem seen_pushed (a : Packets F k) :
    (seen (c k) F k cur s).pushed (Fintype.equivFin _ a) = handled cur a :=
  congrArg (handled cur) ((Fintype.equivFin (Packets F k)).symm_apply_apply a)

theorem family_equiv (a : Packets F k) : family F k (Fintype.equivFin _ a) = packet a := by
  simp [family]

omit [DecidableEq ι] [Fintype ι] in
theorem packet_mem (a : Packets F k) : packet a ∈ F a.1.1 := List.get_mem _ _

theorem place_of_open {a : Packets F k}
    (h : (seen (c k) F k cur s).Open (family F k) (Fintype.equivFin _ a)) :
    a.2.val = (cur a.1.1).done := by
  rw [Bus.Open,seen_pushed,family_equiv,handled,Cursor.behind] at h
  split_ifs at h <;> omega

omit [Fintype ι] in
theorem handled_next (cur : ι → Cursor) (a : Packets F k) (ha : a.2.val = (cur a.1.1).done)
    (b : Packets F k) :
    handled (update cur a.1.1 ((cur a.1.1).next (packet a).msgs.length)) b =
      if b = a then (cur a.1.1).part+1 else handled cur b := by
  obtain ⟨⟨i,hi⟩,p⟩ := a
  obtain ⟨⟨j,hj⟩,q⟩ := b
  by_cases hij : j = i
  · subst hij
    have hpq : (⟨⟨j,hj⟩,q⟩ : Packets F k) = ⟨⟨j,hi⟩,p⟩ ↔ q.val = (cur j).done := by
      rw [← ha]
      constructor
      · intro h
        simpa using congrArg Fin.val (eq_of_heq (Sigma.mk.inj h).2)
      · exact fun h => congrArg _ (Fin.ext h)
    simp only [handled,update_self,hpq]
    refine Cursor.behind_next _ _ _ fun hq => ?_
    rw [hpq.mpr hq]
  · have hne : (⟨⟨j,hj⟩,q⟩ : Packets F k) ≠ ⟨⟨i,hi⟩,p⟩ := fun h =>
      hij (congrArg (fun a : Packets F k => a.1.1) h)
    simp only [handled,if_neg hne,update_of_ne hij]

theorem View.handle (h : View c F k s cur) (hc : Injective fun i => (c i).extidDefaults.src)
    (hk : s.Known c) (hF : ∀ i, s.sent i <+: F i)
    (hsrc : ∀ i, ∀ x ∈ F i, x.defaults.src = (c i).extidDefaults.src)
    (hfilter : (s.codec k).acceptFilter = (c k).acceptFilter) {m : XcanMsg} {rest : List XcanMsg}
    {own take : Bool} {d : Codec} {rv : ErrorType} {out : List XcanMsg} (hq : s.rx k = m :: rest)
    (hp : (s.codec k).pushMessage m = some (d,rv,out))
    (hl : (s.handle k rest own d rv (if take then out else [])).lost k = false) :
    ∃ cur', View c F k (s.handle k rest own d rv (if take then out else [])) cur' := by
  obtain ⟨j,hj,hm⟩ := hk.rx k m (by simp [hq])
  have hne : m.src ≠ (s.codec k).extidDefaults.src := by
    rw [hm,hk.src]
    exact fun he => hj (hc he)
  obtain ⟨rfl,-,hpool⟩ := Codec.pushMessage_other hne hp
  have hleft := h.left j hj
  rw [hq,List.filter_cons_of_pos (by simp [hm]),List.cons_append] at hleft
  have hmsgs : ∀ x ∈ (s.sent j).map Sending.msgs, x ≠ [] := by
    intro x hx
    obtain ⟨y,-,rfl⟩ := List.mem_map.mp hx
    exact List.ne_nil_of_length_pos y.msgs_length_pos
  obtain ⟨x,hx,hxm,hat,hnext⟩ := Cursor.left_cons hmsgs (h.place j hj) hleft
  rw [List.getElem?_map,Option.map_eq_some_iff] at hx
  obtain ⟨y,hy,rfl⟩ := hx
  obtain ⟨hlt,rfl⟩ := List.getElem?_eq_some_iff.mp hy
  let a : Packets F k := ⟨⟨j,hj⟩,⟨(cur j).done,hlt.trans_le (hF j).length_le⟩⟩
  have hay : packet a = (s.sent j)[(cur j).done] := ((hF j).getElem hlt).symm
  have hpa : (seen (c k) F k cur s).pushed (Fintype.equivFin _ a) = (cur j).part := by
    rw [seen_pushed]
    simp [handled,a,Cursor.behind]
  rw [← hay] at hxm hat hnext
  have hturn : (seen (c k) F k cur s).Turn (family F k) (Fintype.equivFin _ a) := by
    intro j' hj' hopen hid
    obtain ⟨b,rfl⟩ := (Fintype.equivFin (Packets F k)).surjective j'
    rw [family_equiv,family_equiv,Extid.sameId_iff] at hid
    have hb : (packet b).defaults.src = (packet a).defaults.src := hid.2.1
    rw [hsrc _ _ (packet_mem b),hsrc _ _ (packet_mem a)] at hb
    obtain ⟨⟨jb,hjb⟩,p⟩ := b
    obtain rfl : jb = j := hc hb
    have hpl := place_of_open hopen
    exact hj' (congrArg _ (congrArg _ (Fin.ext hpl)))
  have hrv : ¬ (rv = .errorSlotsOverflow ∨ rv = .errorTreeOverflow) := by
    have hboth : s.lost k = false ∧ ¬ (rv = .errorSlotsOverflow ∨ rv = .errorTreeOverflow) := by
      simpa [Network.handle] using hl
    exact hboth.2
  have hstep := h.run.tail (Bus.Step.push (i := Fintype.equivFin _ a) (m := m)
    (by rw [family_equiv,hpa]; exact hxm) hturn
    (hpool (seen (c k) F k cur s).codec rfl (hk.src k).symm hfilter.symm)
    (fun he => hrv (Or.inl he)) fun he => hrv (Or.inr he))
  refine ⟨update cur j ((cur j).next (packet a).msgs.length),fun i hi => ?_,fun i hi => ?_,?_⟩
  · by_cases hij : i = j
    · subst hij
      rw [update_self]
      exact hat
    · rw [update_of_ne hij]
      exact h.place i hi
  · by_cases hij : i = j
    · subst hij
      rw [update_self]
      simpa [Network.handle,update_of_ne hi] using hnext
    · have hmi : m.src ≠ (c i).extidDefaults.src := fun he => hij (hc (he.symm.trans hm))
      have hli := h.left i hi
      rw [hq,List.filter_cons_of_neg (by simpa using hmi)] at hli
      simpa [Network.handle,update_of_ne hi,update_of_ne hij] using hli
  · convert hstep using 1
    rw [seen]
    congr 1
    · simp [Network.handle,seen]
    · funext j'
      obtain ⟨b,rfl⟩ := (Fintype.equivFin (Packets F k)).surjective j'
      have hb := handled_next cur a rfl b
      by_cases hba : b = a
      · subst hba
        rw [update_self,hpa,Equiv.symm_apply_apply,hb,if_pos rfl]
      · rw [update_of_ne (fun he => hba ((Fintype.equivFin _).injective he)),seen_pushed,
          Equiv.symm_apply_apply,hb,if_neg hba]

theorem View.read (h : View c F k s cur) {dest : List Byte} {src : BitVec 7} {d : Codec}
    {r : Pool.ReadResult} (hp : (s.codec k).readPacket dest src = some (d,r))
    (hl : (s.read k dest.length d r).lost k = false) :
    View c F k (s.read k dest.length d r) cur := by
  have hd : 610 ≤ dest.length := by
    have hboth : s.lost k = false ∧ 610 ≤ dest.length := by simpa [Network.read] using hl
    exact hboth.2
  have hread : (seen (c k) F k cur s).codec.readPacket dest src =
      some ({c k with pool := d.pool},r) :=
    @Codec.readPacket_congr (s.codec k) d (seen (c k) F k cur s).codec dest src r rfl hp
  have hstep := h.run.tail (.read hd hread)
  refine ⟨h.place,h.left,?_⟩
  convert hstep using 1
  rw [seen]
  congr 1
  · simp [Network.read]
  · by_cases h0 : r.cnt = 0 <;> simp [Network.read,seen,h0]

omit [Fintype ι] in
/-- What happened earlier in a run without losses was without losses. -/
theorem Step.lossless {o : Option ι} (hs : s.Step o s') (i : ι) :
    (s'.aborted i = false → s.aborted i = false) ∧ (s'.lost i = false → s.lost i = false) ∧
      s.sent i <+: s'.sent i := by
  cases hs with
  | choose j f => exact ⟨id,id,List.prefix_rfl⟩
  | carry h => exact ⟨id,id,List.prefix_rfl⟩
  | send j data h take =>
    refine ⟨?_,id,?_⟩
    · by_cases hij : i = j
      · subst hij
        simp only [Network.send,update_self,Bool.or_eq_false_iff]
        exact And.left
      · simp [Network.send,update_of_ne hij]
    · simp only [Network.send]
      split_ifs
      · by_cases hij : i = j
        · subst hij
          simp
        · simp [update_of_ne hij]
      · exact List.prefix_rfl
  | @handle j m rest d rv out h hp take =>
    refine ⟨id,?_,List.prefix_rfl⟩
    by_cases hij : i = j
    · subst hij
      simp only [Network.handle,update_self,Bool.or_eq_false_iff]
      exact And.left
    · simp [Network.handle,update_of_ne hij]
  | @read j dest src d r h =>
    refine ⟨id,?_,List.prefix_rfl⟩
    by_cases hij : i = j
    · subst hij
      simp only [Network.read,update_self,Bool.or_eq_false_iff]
      exact And.left
    · simp [Network.read,update_of_ne hij]

omit [Fintype ι] in
theorem Step.filter {o : Option ι} (hs : s.Step o s') (i : ι) :
    (s'.codec i).acceptFilter = (s.codec i).acceptFilter := by
  cases hs with
  | carry h => rfl
  | choose j f =>
    by_cases hij : i = j
    · subst hij
      simp
    · simp [update_of_ne hij]
  | send j data h take =>
    by_cases hij : i = j
    · subst hij
      simp [Network.send]
    · simp [Network.send,update_of_ne hij]
  | @handle j m rest d rv out h hp take =>
    by_cases hij : i = j
    · subst hij
      simp only [Network.handle,update_self]
      by_cases hm : m.src = (s.codec i).extidDefaults.src
      · rw [(Codec.pushMessage_own hm hp).1]
      · rw [(Codec.pushMessage_other hm hp).2.1]
    · simp [Network.handle,update_of_ne hij]
  | @read j dest src d r h =>
    by_cases hij : i = j
    · subst hij
      simp only [Network.read,update_self]
      rw [Codec.readPacket_pool h]
    · simp [Network.read,update_of_ne hij]

omit [Fintype ι] in
theorem sent_src (hc : Injective fun i => (c i).extidDefaults.src) {l : List ι}
    (h : Trace Step (start c) l s) :
    ∀ i, ∀ x ∈ s.sent i, x.defaults.src = (c i).extidDefaults.src := by
  induction h with
  | refl => simp [start]
  | @tail l t u o h hs ih =>
    have hk := (known_run hc h).2
    intro i x hx
    cases hs with
    | choose j f => exact ih i x hx
    | carry hq => exact ih i x hx
    | handle hq hp take => exact ih i x hx
    | read hr => exact ih i x hx
    | send j data hd take =>
      simp only [Network.send] at hx
      split_ifs at hx
      · by_cases hij : i = j
        · subst hij
          rw [update_self,List.mem_append,List.mem_singleton] at hx
          rcases hx with hx | rfl
          · exact ih i x hx
          · exact hk.src i
        · exact ih i x (by simpa [update_of_ne hij] using hx)
      · exact ih i x hx

/-- Without losses, every run of the network is a run of the bus as a node sees it. -/
theorem view_run (hc : Injective fun i => (c i).extidDefaults.src)
    (hpool : (c k).pool = Pool.init) {l : List ι} (h : Trace Step (start c) l s)
    (ha : ∀ i, s.aborted i = false) (hl : s.lost k = false) (hF : ∀ i, s.sent i <+: F i)
    (hsrc : ∀ i, ∀ x ∈ F i, x.defaults.src = (c i).extidDefaults.src) :
    (s.codec k).acceptFilter = (c k).acceptFilter ∧ ∃ cur, View c F k s cur := by
  induction h with
  | refl =>
    refine ⟨rfl,fun _ => Cursor.start,fun i _ => Or.inr ⟨rfl,rfl⟩,fun i _ => rfl,?_⟩
    have hs : seen (c k) F k (fun _ => Cursor.start) (start c) = Bus.start (c k) := by
      rw [seen,Bus.start,start,hpool]
      congr 1
      funext j
      exact Cursor.behind_start _ _
    rw [hs]
  | @tail l t u o h hs ih =>
    have hless := fun i => hs.lossless i
    obtain ⟨hfilter,cur,hv⟩ := ih (fun i => (hless i).1 (ha i)) ((hless k).2.1 hl)
      fun i => (hless i).2.2.trans (hF i)
    have hk := (known_run hc h).2
    refine ⟨(hs.filter k).trans hfilter,?_⟩
    cases hs with
    | choose i f =>
      refine ⟨cur,hv.congr (fun _ _ => rfl) rfl (fun _ _ => rfl) ?_ rfl⟩
      by_cases hik : k = i
      · subst hik
        simp
      · simp [update_of_ne hik]
    | send i data hd take => exact ⟨cur,hv.send (ha i)⟩
    | carry hq => exact ⟨cur,hv.carry hc hk hq⟩
    | @handle i m rest d rv out hq hp take =>
      by_cases hik : k = i
      · subst hik
        exact hv.handle hc hk (fun i => (hless i).2.2.trans (hF i)) hsrc hfilter hq hp hl
      · obtain ⟨j,hj,hm⟩ := hk.rx i m (by simp [hq])
        have hne : m.src ≠ (t.codec i).extidDefaults.src := by
          rw [hm,hk.src]
          exact fun he => hj (hc he)
        obtain ⟨rfl,-⟩ := Codec.pushMessage_other hne hp
        refine ⟨cur,hv.congr (fun _ _ => rfl) ?_ (fun j _ => ?_) ?_ rfl⟩
        · simp [Network.handle,update_of_ne hik]
        · simp [Network.handle]
        · simp [Network.handle,update_of_ne hik]
    | @read i dest src d r hr =>
      by_cases hik : k = i
      · subst hik
        exact ⟨cur,hv.read hr hl⟩
      · refine ⟨cur,hv.congr (fun _ _ => rfl) rfl (fun _ _ => rfl) ?_ ?_⟩
        · simp [Network.read,update_of_ne hik]
        · simp only [Network.read]
          split_ifs
          · rfl
          · rw [update_of_ne hik]

def sentByOthers (s : Network ι) (k : ι) : Multiset (BitVec 7 × List Byte) :=
  ∑ i ∈ Finset.univ.erase k, ((s.sent i).map Sending.received : Multiset (BitVec 7 × List Byte))

theorem sum_family (F : ι → List Sending) (k : ι) :
    ∑ j, ({(family F k j).received} : Multiset (BitVec 7 × List Byte)) =
      ∑ i ∈ Finset.univ.erase k,
        ((F i).map Sending.received : Multiset (BitVec 7 × List Byte)) := by
  have hrow : ∀ l : List Sending, ∑ p : Fin l.length,
      ({(l.get p).received} : Multiset (BitVec 7 × List Byte)) = ↑(l.map Sending.received) := by
    intro l
    induction l with
    | nil => rfl
    | cons x l ih =>
      have hs := Fin.sum_univ_succ fun p : Fin (l.length+1) =>
        ({((x :: l).get p).received} : Multiset (BitVec 7 × List Byte))
      refine hs.trans ?_
      have hx := congrArg ({x.received}+·) ih
      simpa using hx
  calc ∑ j, ({(family F k j).received} : Multiset (BitVec 7 × List Byte))
      = ∑ a : Packets F k, {(packet a).received} :=
        (Fintype.equivFin (Packets F k)).symm.sum_comp fun a => {(packet a).received}
    _ = ∑ i : {i // i ≠ k}, ∑ p : Fin (F i.1).length, {((F i.1).get p).received} :=
        Fintype.sum_sigma _
    _ = ∑ i : {i // i ≠ k}, ((F i.1).map Sending.received : Multiset _) :=
        Finset.sum_congr rfl fun i _ => hrow (F i.1)
    _ = _ := (Finset.sum_subtype (p := fun i => i ≠ k) (Finset.univ.erase k) (by simp)
        fun i => ((F i).map Sending.received : Multiset (BitVec 7 × List Byte))).symm

/-- Among nodes of distinct addresses nobody ever changes its own. In every run without losses
what a node has read and can still read are packets of the others, each at most once, and all of
them once nothing is on its way. -/
theorem network_exact (c : ι → Codec) (hc : Injective fun i => (c i).extidDefaults.src)
    (hpool : (c k).pool = Pool.init) (hfilter : ∀ e, (c k).acceptFilter e = true)
    {l : List ι} (h : Trace Step (start c) l s) :
    (l = [] ∧ ∀ i, (s.codec i).extidDefaults.src = (c i).extidDefaults.src) ∧
    ((∀ i, s.aborted i = false) → s.lost k = false → ∀ dest src, 610 ≤ dest.length →
      ∃ p, (s.codec k).drain (sizeTrees+1) dest src = some p ∧
        (s.returned k : Multiset (BitVec 7 × List Byte))+p ≤ s.sentByOthers k ∧
        ((∀ i, s.tx i = [] ∧ s.rx i = []) →
          (s.returned k : Multiset (BitVec 7 × List Byte))+p = s.sentByOthers k)) := by
  obtain ⟨hl0,hk⟩ := known_run hc h
  refine ⟨⟨hl0,hk.src⟩,fun ha hl dest src hd => ?_⟩
  have hsent := sent_src hc h
  obtain ⟨-,cur,hv⟩ := view_run hc hpool h ha hl (fun i => List.prefix_rfl) hsent
  have hsrc : ∀ j, (family s.sent k j).defaults.src ≠ (c k).extidDefaults.src := by
    intro j
    obtain ⟨a,rfl⟩ := (Fintype.equivFin (Packets s.sent k)).surjective j
    rw [family_equiv,hsent _ _ (packet_mem a)]
    exact fun he => a.1.2 (hc he)
  obtain ⟨b,hinv⟩ := Bus.Inv.reach (family s.sent k) (c k) hsrc (fun _ _ _ => hfilter _) hv.run
  have hr : (s.codec k).pool.Refines b := hinv.refines
  obtain ⟨p,hp,hm⟩ := Codec.drain_spec hr hinv.intact src hd (Nat.lt_succ_of_le b.contents_card)
  have hex : (s.returned k : Multiset (BitVec 7 × List Byte))+p =
      (seen (c k) s.sent k cur s).completed (family s.sent k) := by
    rw [hm]
    exact hinv.exact
  refine ⟨p,hp,?_,fun hq => ?_⟩
  · rw [hex,sentByOthers,← sum_family]
    refine Finset.sum_le_sum fun j _ => ?_
    split_ifs
    · exact Multiset.zero_le _
    · exact le_rfl
  · rw [hex,sentByOthers,← sum_family]
    refine Finset.sum_congr rfl fun j _ => if_neg ?_
    obtain ⟨a,rfl⟩ := (Fintype.equivFin (Packets s.sent k)).surjective j
    have hleft := hv.left a.1.1 a.1.2
    rw [(hq k).2,(hq a.1.1).1] at hleft
    have hdone := Cursor.done_of_left_nil (hv.place a.1.1 a.1.2) hleft
    have hlt := a.2.isLt
    rw [List.length_map] at hdone
    rw [seen_pushed,family_equiv,handled,Cursor.behind,if_pos (by omega)]
    omega

def pair (i : Fin 2) : Codec :=
  ⟨Pool.init,⟨0#3,0#16,BitVec.ofNat 7 (i.val+5),0#3,0#3⟩,emptyMsg,fun _ => true,id⟩

def pairMsg : XcanMsg :=
  (sendPacket (pair ⟨0,Nat.two_pos⟩).extidDefaults emptyMsg (fun _ => true)
    [1#8,2#8,3#8]).2.1.headD emptyMsg

theorem network_exact_pair : ∃ s : Network (Fin 2), (s.sent 0).map Sending.data = [[1#8,2#8,3#8]] ∧
    ∃ p, (s.codec 1).drain (sizeTrees+1) (List.replicate 610 0#8) 0#7 = some p ∧
      (s.returned 1 : Multiset (BitVec 7 × List Byte))+p = s.sentByOthers 1 := by
  have h : Trace Step (start pair) _ _ := .tail (.tail (.tail .refl
    (.send 0 [1#8,2#8,3#8] (by decide) fun _ => true))
    (@Step.carry _ _ _ 0 pairMsg [] (by rfl)))
    (@Step.handle _ _ _ 1 pairMsg [] _ _ _ (by rfl) (by rfl) true)
  obtain ⟨p,hp,-,he⟩ := (network_exact pair (by decide) (k := 1) rfl (fun _ => rfl) h).2
    (by decide) (by decide) (List.replicate 610 0#8) 0#7 List.length_replicate.ge
  exact ⟨_,by rfl,p,hp,he (by decide)⟩

end Network

end ApxBus.Can
