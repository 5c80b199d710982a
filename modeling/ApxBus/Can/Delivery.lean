import ApxBus.Can.Transport
import Mathlib.Logic.Relation
set_option autoImplicit false

/-! A shared bus: every packet sent over it is read exactly once, whatever the interleaving. -/

namespace ApxBus.Can
open Function LinkedCells

namespace Assemblies

def offered : Option Assembly → Multiset (BitVec 7 × List Byte)
  | none => 0
  | some s => if s.dlc = 0#8 then 0 else {s.packet}

def contents (a : Assemblies) : Multiset (BitVec 7 × List Byte) := ∑ k, offered (a k)

def Intact (a : Assemblies) : Prop := ∀ k s, a k = some s → s.dlc ≠ 0#8 → s.Intact

theorem contents_update (a : Assemblies) (k : Fin sizeTrees) (s : Option Assembly) :
    contents (update a k s)+offered (a k) = contents a+offered s := by
  have h := sum_update_add (fun k => offered (a k)) k (offered s)
  rwa [show update (fun k => offered (a k)) k (offered s) = fun j => offered (update a k s j) from
    (comp_update offered a k s).symm] at h

theorem contents_read {a : Assemblies} {k : Fin sizeTrees} {s : Assembly} (hk : a k = some s)
    (hd : s.dlc ≠ 0#8) : contents (update a k none)+{s.packet} = a.contents := by
  have h := a.contents_update k none
  have hoff : offered (a k) = {s.packet} := by
    rw [hk]
    exact if_neg hd
  rwa [hoff,offered,add_zero] at h

theorem of_update_none {a : Assemblies} {k k' : Fin sizeTrees} {s : Assembly}
    (h : update a k none k' = some s) : a k' = some s := by
  by_cases hk : k' = k
  · subst hk
    simp at h
  · rwa [update_of_ne hk] at h

theorem Intact.update {a : Assemblies} (h : a.Intact) (k : Fin sizeTrees) {s : Assembly}
    (hs : s.dlc ≠ 0#8 → s.Intact) : Intact (update a k (some s)) := by
  intro k' u hu hd
  by_cases hk : k' = k
  · subst hk
    rw [update_self,Option.some.injEq] at hu
    subst hu
    exact hs hd
  · rw [update_of_ne hk] at hu
    exact h k' u hu hd

theorem contents_card (a : Assemblies) : a.contents.card ≤ sizeTrees := by
  have h : ∀ o, (offered o).card ≤ 1 := by
    intro o
    cases o with
    | none => simp [offered]
    | some s => by_cases hd : s.dlc = 0#8 <;> simp [offered,hd]
  calc a.contents.card = ∑ k, (offered (a k)).card := by simp [contents]
    _ ≤ ∑ _k : Fin sizeTrees, 1 := Finset.sum_le_sum fun k _ => h (a k)
    _ = sizeTrees := by simp

theorem contents_eq_zero {a : Assemblies} (h : ∀ k s, a k = some s → s.dlc = 0#8) :
    a.contents = 0 := by
  refine Finset.sum_eq_zero fun k _ => ?_
  cases hk : a k with
  | none => rfl
  | some s => simp [offered,h k s hk]

theorem readFrom_spec (a : Assemblies) (dest : List Byte) (src : BitVec 7)
    (ks : List (Fin sizeTrees)) (h : ∀ k s, a k = some s → s.bytes.length ≤ dest.length) :
    ((∀ k ∈ ks, ∀ s, a k = some s → s.dlc = 0#8) ∧ readFrom dest src ks a = (a,⟨0,dest,src⟩)) ∨
    ∃ k s buf, a k = some s ∧ s.dlc ≠ 0#8 ∧ buf.length = dest.length ∧
      buf.take s.bytes.length = s.bytes ∧
      readFrom dest src ks a = (update a k none,⟨s.bytes.length,buf,s.extid.src⟩) := by
  induction ks with
  | nil => exact Or.inl ⟨by simp,rfl⟩
  | cons k ks ih =>
    unfold readFrom
    cases hk : a k with
    | none =>
      rcases ih with ⟨hall,hr⟩ | hr
      · refine Or.inl ⟨fun j hj s hs => ?_,hr⟩
        rcases List.mem_cons.mp hj with rfl | hj
        · simp [hk] at hs
        · exact hall j hj s hs
      · exact Or.inr hr
    | some s =>
      by_cases hd : s.dlc = 0#8
      · simp only [hd,if_true]
        rcases ih with ⟨hall,hr⟩ | hr
        · refine Or.inl ⟨fun j hj u hu => ?_,hr⟩
          rcases List.mem_cons.mp hj with rfl | hj
          · rw [hk] at hu
            rwa [← Option.some.inj hu]
          · exact hall j hj u hu
        · exact Or.inr hr
      · obtain ⟨hb,hp,hl⟩ := s.read_out dest (h k s hk)
        refine Or.inr ⟨k,s,(s.read dest).buf,hk,hd,hl,hb,?_⟩
        simp only [hd,if_false,hp]
        rw [if_pos (by rw [s.bytes_length]; omega)]

end Assemblies

theorem Codec.checkCrc_take {dest : List Byte} {sz : Nat} (h2 : 2 ≤ sz) :
    checkCrc (dest.take sz) sz = checkCrc dest sz := by
  have h0 : (dest.take sz).getD (sz-2) 0#8 = dest.getD (sz-2) 0#8 := by
    simp [List.getD_eq_getElem?_getD,show sz-2 < sz by omega]
  have h1 : (dest.take sz).getD (sz-2+1) 0#8 = dest.getD (sz-2+1) 0#8 := by
    simp [List.getD_eq_getElem?_getD,show sz-2+1 < sz by omega]
  have hc : crc32 (dest.take sz) (sz-2) crcInit = crc32 dest (sz-2) crcInit := by
    rw [← crc32_take,List.take_take,Nat.min_eq_left (by omega),crc32_take]
  simp only [checkCrc,h0,h1,hc]

theorem Pool.Refines.chunks_le {p : Pool} {a : Assemblies} (h : p.Refines a) {k : Fin sizeTrees}
    {s : Assembly} (hk : a k = some s) : s.chunks.length ≤ sizeItems := by
  obtain ⟨chains,hr⟩ := h
  have hl := hr.length_eq k
  rw [hk] at hl
  exact hl ▸ hr.part.length_le (some k)

theorem Pool.Refines.room {p : Pool} {a : Assemblies} (h : p.Refines a) {dest : List Byte}
    (hd : 2+8*sizeItems ≤ dest.length) {k : Fin sizeTrees} {s : Assembly} (hk : a k = some s) :
    s.bytes.length ≤ dest.length := by
  have hc := h.chunks_le hk
  have hb := s.bytes_length_le
  omega

/-- One `read_packet` of the codec with room for the packets, when all checksums are right. -/
theorem Codec.readPacket_spec {c : Codec} {a : Assemblies} (hr : c.pool.Refines a)
    (hi : a.Intact) {dest : List Byte} (src : BitVec 7)
    (hroom : ∀ k s, a k = some s → s.bytes.length ≤ dest.length) :
    ∃ p r b, c.readPacket dest src = some ({c with pool := p},r) ∧ p.Refines b ∧
      r.dest.length = dest.length ∧
      ((r.cnt = 0 ∧ b = a ∧ a.contents = 0) ∨
        (r.cnt ≠ 0 ∧ ∃ k s, a k = some s ∧ s.dlc ≠ 0#8 ∧ b = update a k none ∧
          (r.srcId,r.dest.take r.cnt) = s.packet)) := by
  obtain ⟨p,hp,hq⟩ := hr.readPacket dest src
  rcases a.readFrom_spec dest src (List.finRange sizeTrees) hroom with
    ⟨hall,hnone⟩ | ⟨k,s,buf,hk,hdlc,hlen,hbuf,hsome⟩
  · rw [Assemblies.readPacket,hnone] at hp hq
    refine ⟨p,⟨0,dest,src⟩,a,?_,hq,rfl,Or.inl ⟨rfl,rfl,?_⟩⟩
    · simp [readPacket,readLoop,hp]
    · exact Assemblies.contents_eq_zero fun k s hk => hall k (List.mem_finRange k) s hk
  · rw [Assemblies.readPacket,hsome] at hp hq
    have hpos := s.bytes_length
    have hfit : s.bytes.length ≤ dest.length := by
      rw [← hlen,← hbuf]
      simp
    by_cases h10 : s.bytes.length ≤ 10
    · refine ⟨p,⟨s.bytes.length,buf,s.extid.src⟩,_,?_,hq,hlen,Or.inr ⟨?_,k,s,hk,hdlc,rfl,?_⟩⟩
      · simp [readPacket,readLoop,hp,h10]
      · dsimp only
        omega
      · rw [Assembly.packet,if_pos h10,hbuf]
    · have hcrc : checkCrc buf s.bytes.length = s.bytes.length-2 := by
        rw [← checkCrc_take (by omega),hbuf]
        exact hi k s hk hdlc (by omega)
      have h2 : 0 < s.bytes.length-2 := by omega
      refine ⟨p,⟨s.bytes.length-2,buf,s.extid.src⟩,_,?_,hq,hlen,
        Or.inr ⟨by dsimp only; omega,k,s,hk,hdlc,rfl,?_⟩⟩
      · simp [readPacket,readLoop,hp,h10,hcrc,h2]
      · rw [Assembly.packet,if_neg h10,← hbuf,List.take_take]
        simp [hbuf]

def Codec.drain : Nat → Codec → List Byte → BitVec 7 → Option (List (BitVec 7 × List Byte))
  | 0, _, _, _ => none
  | fuel+1, c, dest, src => do
    let (c,r) ← c.readPacket dest src
    if r.cnt = 0 then some []
    else
      let l ← drain fuel c r.dest r.srcId
      some ((r.srcId,r.dest.take r.cnt) :: l)

theorem Codec.drain_spec {c : Codec} {a : Assemblies} (hr : c.pool.Refines a)
    (hi : a.Intact) {dest : List Byte} (src : BitVec 7) (hd : 2+8*sizeItems ≤ dest.length)
    {fuel : Nat} (hf : a.contents.card < fuel) :
    ∃ l, c.drain fuel dest src = some l ∧ (l : Multiset (BitVec 7 × List Byte)) = a.contents := by
  induction fuel generalizing c a dest src with
  | zero => omega
  | succ fuel ih =>
    obtain ⟨p,r,b,hread,hp,hlen,⟨h0,-,hz⟩ | ⟨hcnt,k,s,hk,hdlc,rfl,hpkt⟩⟩ :=
      readPacket_spec hr hi src fun k s hk => hr.room hd hk
    · exact ⟨[],by simp [drain,hread,h0],by simp [hz]⟩
    · have hcont := Assemblies.contents_read hk hdlc
      have hi' : Assemblies.Intact (update a k none) :=
        fun j u hu => hi j u (Assemblies.of_update_none hu)
      have hcard := congrArg Multiset.card hcont
      rw [Multiset.card_add,Multiset.card_singleton] at hcard
      obtain ⟨l,hl,hml⟩ := @ih {c with pool := p} _ hp hi' r.dest r.srcId (by omega) (by omega)
      refine ⟨s.packet :: l,by simp [drain,hread,hcnt,hl,hpkt],?_⟩
      rw [← hcont,← hml,← Multiset.cons_coe,← Multiset.singleton_add,add_comm]

theorem Frames.id {extid : Extid} {frm : BitVec 3} {todo : List Byte} {ms : List XcanMsg}
    (h : Frames extid frm todo ms) {m : XcanMsg} (hm : m ∈ ms) :
    ∃ f, m.id = {extid with frm := f}.raw := by
  induction h with
  | last h0 h8 hid hdlc hdata =>
    rw [List.mem_singleton.mp hm]
    exact ⟨_,hid⟩
  | more h8 hid hdlc hdata h ih =>
    rcases List.mem_cons.mp hm with rfl | hm
    · exact ⟨_,hid⟩
    · exact ih hm

theorem Sending.msgs_src (x : Sending) {m : XcanMsg} (hm : m ∈ x.msgs) :
    (Extid.ofRaw m.id).src = x.defaults.src := by
  have hid : ∃ f, m.id = {x.extid with frm := f}.raw := by
    by_cases h10 : x.data.length ≤ 10
    · obtain ⟨m',hms,hid,-⟩ := x.msgs_single h10
      rw [hms,List.mem_singleton] at hm
      exact ⟨_,hm ▸ hid⟩
    · exact (x.msgs_frames (by omega)).id hm
  obtain ⟨f,hf⟩ := hid
  rw [hf,Extid.ofRaw_raw]
  rfl

theorem Sending.Waiting.sameId {x : Sending} {u : Assembly} {rest : List XcanMsg}
    (h : x.Waiting u rest) : x.extid.sameId u.extid := by
  rw [h.extid]
  exact (Extid.sameId_iff _ _).mpr ⟨rfl,rfl,rfl⟩

theorem Sending.Progress.unfinished {x : Sending} {u : Assembly} {rest : List XcanMsg}
    (h : x.Progress u rest) (hd : u.dlc = 0#8) : rest ≠ [] ∧ x.Waiting u rest := by
  unfold Sending.Progress at h
  split_ifs at h with hr
  · exact absurd hd h.dlc
  · exact ⟨hr,h⟩

theorem Sending.Progress.intact {x : Sending} {u : Assembly} {rest : List XcanMsg}
    (h : x.Progress u rest) (hd : u.dlc ≠ 0#8) : u.Intact := by
  unfold Sending.Progress at h
  split_ifs at h
  · exact Complete.intact h
  · exact absurd h.dlc hd

theorem Sending.msgs_length_pos (x : Sending) : 0 < x.msgs.length := by
  by_cases h10 : x.data.length ≤ 10
  · obtain ⟨m,hms,-⟩ := x.msgs_single h10
    simp [hms]
  · have hf := x.msgs_frames (by omega)
    cases hms : x.msgs with
    | nil =>
      rw [hms] at hf
      cases hf
    | cons m ms => simp

/-- The receiver, how many messages of each packet have been pushed, and the packets read. -/
structure Bus (n : Nat) where
  codec : Codec
  pushed : Fin n → Nat
  returned : List (BitVec 7 × List Byte)

namespace Bus
variable {n : Nat} (xs : Fin n → Sending)

def start (c : Codec) : Bus n := ⟨{c with pool := Pool.init},fun _ => 0,[]⟩

def Open (s : Bus n) (i : Fin n) : Prop := 0 < s.pushed i ∧ s.pushed i < (xs i).msgs.length

def Turn (s : Bus n) (i : Fin n) : Prop :=
  ∀ j, j ≠ i → s.Open xs j → ¬ (xs j).extid.sameId (xs i).extid

inductive Step : Bus n → Bus n → Prop where
  | push {s : Bus n} {i : Fin n} {m : XcanMsg} {c : Codec} {rv : ErrorType}
      {sent : List XcanMsg} (hm : (xs i).msgs[s.pushed i]? = some m) (hturn : s.Turn xs i)
      (h : s.codec.pushMessage m = some (c,rv,sent))
      (hslots : rv ≠ .errorSlotsOverflow) (htree : rv ≠ .errorTreeOverflow) :
      Step s ⟨c,update s.pushed i (s.pushed i+1),s.returned⟩
  | read {s : Bus n} {dest : List Byte} {src : BitVec 7} {c : Codec} {r : Pool.ReadResult}
      (hd : 610 ≤ dest.length) (h : s.codec.readPacket dest src = some (c,r)) :
      Step s ⟨c,s.pushed,
        if r.cnt = 0 then s.returned else s.returned ++ [(r.srcId,r.dest.take r.cnt)]⟩

def completed (s : Bus n) : Multiset (BitVec 7 × List Byte) :=
  ∑ i, if s.pushed i < (xs i).msgs.length then 0 else {(xs i).received}

/-- The assemblies of the pool are the open packets and those complete and not yet read. -/
structure Inv (c : Codec) (s : Bus n) (a : Assemblies) : Prop where
  codec : s.codec = {c with pool := s.codec.pool}
  refines : s.codec.pool.Refines a
  distinct : a.Distinct
  intact : a.Intact
  waiting : ∀ i, s.Open xs i →
    ∃ k u, a k = some u ∧ (xs i).Waiting u ((xs i).msgs.drop (s.pushed i))
  known : ∀ k u, a k = some u → u.dlc = 0#8 → ∃ i, s.Open xs i ∧ (xs i).extid.sameId u.extid
  apart : ∀ i j, s.Open xs i → s.Open xs j → (xs i).extid.sameId (xs j).extid → i = j
  exact : (s.returned : Multiset (BitVec 7 × List Byte))+a.contents = s.completed xs

variable {xs} {c : Codec} {s : Bus n} {a : Assemblies}

theorem inv_start (xs : Fin n → Sending) (c : Codec) : Inv xs c (start c) Assemblies.empty where
  codec := rfl
  refines := Pool.init_refines
  distinct := Assemblies.empty_distinct
  intact := fun _ _ h => by simp [Assemblies.empty] at h
  waiting := fun i h => absurd h.1 (by simp [start])
  known := fun _ _ h => by simp [Assemblies.empty] at h
  apart := fun i _ h => absurd h.1 (by simp [start])
  exact := by
    have hc : completed xs (start c) = 0 :=
      Finset.sum_eq_zero fun i _ => if_pos (xs i).msgs_length_pos
    rw [hc]
    simp [start,Assemblies.contents,Assemblies.empty,Assemblies.offered]

theorem Inv.push_spec (hinv : Inv xs c s a) {i : Fin n} {m : XcanMsg}
    (hm : (xs i).msgs[s.pushed i]? = some m) (hturn : s.Turn xs i)
    (hslots : (a.push (Extid.ofRaw m.id) m.data (m.dlc.setWidth 8)).2 ≠ .errorSlotsOverflow)
    (htree : (a.push (Extid.ofRaw m.id) m.data (m.dlc.setWidth 8)).2 ≠ .errorTreeOverflow) :
    ∃ k u, (a k = none ∧ ¬ s.Open xs i ∨
        ∃ u', a k = some u' ∧ u'.dlc = 0#8 ∧ (xs i).extid.sameId u'.extid) ∧
      (xs i).Progress u ((xs i).msgs.drop (s.pushed i+1)) ∧
      a.push (Extid.ofRaw m.id) m.data (m.dlc.setWidth 8) =
        (update a k (some u),Sending.code ((xs i).msgs.drop (s.pushed i+1))) := by
  obtain ⟨hlt,hget⟩ := List.getElem?_eq_some_iff.mp hm
  have hdrop : (xs i).msgs.drop (s.pushed i) = m :: (xs i).msgs.drop (s.pushed i+1) := by
    rw [List.drop_eq_getElem_cons hlt,hget]
  have hused : a.used ≠ sizeItems := fun hu => hslots (by simp [Assemblies.push,hu])
  rcases Nat.eq_zero_or_pos (s.pushed i) with h0 | hpos
  · have hopen : ¬ s.Open xs i := fun h => by have h1 := h.1; omega
    have hn : ∀ k u, a k = some u → ¬ u.Awaits (xs i).extid := by
      intro k u hk haw
      obtain ⟨j,hj,hid⟩ := hinv.known k u hk haw.1
      refine hturn j ?_ hj (hid.trans haw.2)
      rintro rfl
      exact hopen hj
    have hms : (xs i).msgs = m :: (xs i).msgs.drop (s.pushed i+1) := by
      rw [← hdrop,h0,List.drop_zero]
    obtain ⟨k,u,hk,hprog,hpush⟩ := Sending.push_first hms hn hused htree
    exact ⟨k,u,Or.inl ⟨hk,hopen⟩,hprog,hpush⟩
  · obtain ⟨k,u',hk,hw⟩ := hinv.waiting i ⟨hpos,hlt⟩
    have hid := hw.sameId
    rw [hdrop] at hw
    obtain ⟨u,hprog,hpush⟩ := Sending.push_next hinv.distinct hk hw hused
    exact ⟨k,u,Or.inr ⟨u',hk,hw.dlc,hid⟩,hprog,hpush⟩

theorem completed_push (s : Bus n) (c : Codec) {i : Fin n} (hi : s.pushed i < (xs i).msgs.length)
    {u : Assembly} (hu : (xs i).Progress u ((xs i).msgs.drop (s.pushed i+1))) :
    completed xs ⟨c,update s.pushed i (s.pushed i+1),s.returned⟩ =
      completed xs s+Assemblies.offered (some u) := by
  have hoff : Assemblies.offered (some u) =
      if s.pushed i+1 < (xs i).msgs.length then 0 else {(xs i).received} := by
    unfold Sending.Progress at hu
    split_ifs at hu with hr
    · rw [List.drop_eq_nil_iff] at hr
      rw [if_neg (by omega),← hu.packet]
      exact if_neg hu.dlc
    · rw [List.drop_eq_nil_iff] at hr
      rw [if_pos (by omega)]
      exact if_pos hu.dlc
  have h := sum_update_add
    (fun j => if s.pushed j < (xs j).msgs.length then 0 else {(xs j).received}) i
    (Assemblies.offered (some u))
  rw [if_pos hi,add_zero] at h
  rw [completed,completed,← h]
  refine Finset.sum_congr rfl fun j _ => ?_
  by_cases hj : j = i
  · subst hj
    simp [hoff]
  · simp [update_of_ne hj]

theorem Inv.apart_push (hinv : Inv xs c s a) {i : Fin n} (hturn : s.Turn xs i) {s' : Bus n}
    (hopen : ∀ j, j ≠ i → (s'.Open xs j ↔ s.Open xs j)) {j j' : Fin n} (hj : s'.Open xs j)
    (hj' : s'.Open xs j') (hid : (xs j).extid.sameId (xs j').extid) : j = j' := by
  by_cases hji : j = i
  · by_contra hne
    have hj'i : j' ≠ i := fun h => hne (hji.trans h.symm)
    exact hturn j' hj'i ((hopen j' hj'i).mp hj') (hji ▸ hid.symm)
  · by_cases hj'i : j' = i
    · exact absurd (hj'i ▸ hid) (hturn j hji ((hopen j hji).mp hj))
    · exact hinv.apart j j' ((hopen j hji).mp hj) ((hopen j' hj'i).mp hj') hid

theorem Inv.push (hinv : Inv xs c s a) {i : Fin n} {m : XcanMsg} {p : Pool} {b : Assemblies}
    (hm : (xs i).msgs[s.pushed i]? = some m) (hturn : s.Turn xs i) (hp : p.Refines b)
    (hb : b = (a.push (Extid.ofRaw m.id) m.data (m.dlc.setWidth 8)).1)
    (hslots : (a.push (Extid.ofRaw m.id) m.data (m.dlc.setWidth 8)).2 ≠ .errorSlotsOverflow)
    (htree : (a.push (Extid.ofRaw m.id) m.data (m.dlc.setWidth 8)).2 ≠ .errorTreeOverflow) :
    Inv xs c ⟨{s.codec with pool := p},update s.pushed i (s.pushed i+1),s.returned⟩ b := by
  obtain ⟨hlt,-⟩ := List.getElem?_eq_some_iff.mp hm
  obtain ⟨k,u,hold,hprog,hpush⟩ := hinv.push_spec hm hturn hslots htree
  have hdist : b.Distinct := hb ▸ hinv.distinct.push _ _ _
  rw [hpush] at hb
  dsimp only at hb
  subst hb
  have hoff : Assemblies.offered (a k) = 0 := by
    rcases hold with ⟨hk,-⟩ | ⟨u',hk,hd,-⟩
    · rw [hk]; rfl
    · rw [hk]
      exact if_pos hd
  have hother : ∀ j k' w, j ≠ i → s.Open xs j → a k' = some w → w.dlc = 0#8 →
      (xs j).extid.sameId w.extid → k' ≠ k := by
    rintro j k' w hj hjo hk' hwd hw rfl
    rcases hold with ⟨hk,-⟩ | ⟨u',hk,-,hu'⟩
    · simp [hk] at hk'
    · rw [hk] at hk'
      rw [← Option.some.inj hk'] at hw
      exact hturn j hj hjo (hw.trans hu'.symm)
  have hopen : ∀ j, j ≠ i →
      (Open xs ⟨{s.codec with pool := p},update s.pushed i (s.pushed i+1),s.returned⟩ j ↔
        s.Open xs j) := by
    intro j hj
    simp [Open,update_of_ne hj]
  refine ⟨?_,hp,hdist,?_,?_,?_,?_,?_⟩
  · rw [hinv.codec]
  · exact hinv.intact.update k hprog.intact
  · intro j hj
    by_cases hji : j = i
    · subst hji
      have hl : s.pushed j+1 < (xs j).msgs.length := by simpa using hj.2
      have hne : (xs j).msgs.drop (s.pushed j+1) ≠ [] := by
        rw [ne_eq,List.drop_eq_nil_iff]; omega
      rw [Sending.Progress,if_neg hne] at hprog
      exact ⟨k,u,by simp,by simpa using hprog⟩
    · obtain ⟨k',w,hk',hw⟩ := hinv.waiting j ((hopen j hji).mp hj)
      have hne := hother j k' w hji ((hopen j hji).mp hj) hk' hw.dlc hw.sameId
      exact ⟨k',w,by rw [update_of_ne hne,hk'],by simpa [update_of_ne hji] using hw⟩
  · intro k' w hk' hd
    by_cases hk : k' = k
    · subst hk
      rw [update_self,Option.some.injEq] at hk'
      subst hk'
      obtain ⟨hr,hw⟩ := hprog.unfinished hd
      rw [ne_eq,List.drop_eq_nil_iff] at hr
      exact ⟨i,⟨by simp,by simpa using hr⟩,hw.sameId⟩
    · rw [update_of_ne hk] at hk'
      obtain ⟨j,hjo,hid⟩ := hinv.known k' w hk' hd
      have hji : j ≠ i := by
        rintro rfl
        rcases hold with ⟨-,hno⟩ | ⟨u',hku,hdu,hu'⟩
        · exact hno hjo
        · exact hk (hinv.distinct k' k w u' hk' hku hd ⟨hdu,hu'.symm.trans hid⟩)
      exact ⟨j,(hopen j hji).mpr hjo,hid⟩
  · exact fun j j' => hinv.apart_push hturn hopen
  · have hcont := a.contents_update k (some u)
    rw [hoff,add_zero] at hcont
    rw [completed_push s _ hlt hprog,hcont,← add_assoc,hinv.exact]

theorem Inv.read (hinv : Inv xs c s a) {dest : List Byte} (src : BitVec 7)
    (hd : 610 ≤ dest.length) :
    ∃ d r b, s.codec.readPacket dest src = some (d,r) ∧ Inv xs c ⟨d,s.pushed,
      if r.cnt = 0 then s.returned else s.returned ++ [(r.srcId,r.dest.take r.cnt)]⟩ b := by
  obtain ⟨p,r,b,hread,hp,-,⟨h0,rfl,-⟩ | ⟨hcnt,k,u,hk,hdlc,rfl,hpkt⟩⟩ :=
    Codec.readPacket_spec hinv.refines hinv.intact src fun k s hk => hinv.refines.room hd hk
  · refine ⟨_,r,b,hread,?_,hp,hinv.distinct,hinv.intact,hinv.waiting,hinv.known,hinv.apart,?_⟩
    · rw [hinv.codec]
    · rw [if_pos h0]
      exact hinv.exact
  · refine ⟨_,r,_,hread,?_,hp,?_,?_,?_,?_,hinv.apart,?_⟩
    · rw [hinv.codec]
    · exact hinv.distinct.mono fun _ w h hd =>
        ⟨w,Assemblies.of_update_none h,hd,Extid.sameId.refl _⟩
    · exact fun k' w h => hinv.intact k' w (Assemblies.of_update_none h)
    · intro j hj
      obtain ⟨k',w,hk',hw⟩ := hinv.waiting j hj
      have hne : k' ≠ k := by
        rintro rfl
        rw [hk] at hk'
        exact hdlc (Option.some.inj hk' ▸ hw.dlc)
      exact ⟨k',w,by rw [update_of_ne hne,hk'],hw⟩
    · exact fun k' w h => hinv.known k' w (Assemblies.of_update_none h)
    · have hcont := Assemblies.contents_read hk hdlc
      have hex := hinv.exact
      rw [← hcont,add_comm (Assemblies.contents _)] at hex
      rw [if_neg hcnt,hpkt,← Multiset.coe_add,Multiset.coe_singleton,add_assoc]
      exact hex

theorem Inv.pushMessage (hinv : Inv xs c s a)
    (hsrc : ∀ i, (xs i).defaults.src ≠ c.extidDefaults.src)
    (hfilter : ∀ i, ∀ m ∈ (xs i).msgs, c.acceptFilter (Extid.ofRaw m.id) = true)
    {i : Fin n} {m : XcanMsg} (hm : m ∈ (xs i).msgs) :
    ∃ p, s.codec.pushMessage m = some ({s.codec with pool := p},
        (a.push (Extid.ofRaw m.id) m.data (m.dlc.setWidth 8)).2,[]) ∧
      p.Refines (a.push (Extid.ofRaw m.id) m.data (m.dlc.setWidth 8)).1 := by
  obtain ⟨p,hp,hr⟩ := hinv.refines.push (Extid.ofRaw m.id) m.data (m.dlc.setWidth 8)
  have hdef : s.codec.extidDefaults = c.extidDefaults := by rw [hinv.codec]
  have hacc : s.codec.acceptFilter (Extid.ofRaw m.id) = true := by
    rw [hinv.codec]
    exact hfilter i m hm
  refine ⟨p,?_,hr⟩
  unfold Codec.pushMessage
  dsimp only
  rw [if_neg (by rw [hdef,(xs i).msgs_src hm]; exact hsrc i),if_neg (by simp [hacc]),hp]
  rfl

theorem Inv.step (hinv : Inv xs c s a) (hsrc : ∀ i, (xs i).defaults.src ≠ c.extidDefaults.src)
    (hfilter : ∀ i, ∀ m ∈ (xs i).msgs, c.acceptFilter (Extid.ofRaw m.id) = true)
    {s' : Bus n} (h : Step xs s s') : ∃ b, Inv xs c s' b := by
  cases h with
  | push hm hturn h hslots htree =>
    obtain ⟨p,hp,hr⟩ := hinv.pushMessage hsrc hfilter (List.mem_of_getElem? hm)
    rw [h,Option.some.injEq,Prod.mk.injEq,Prod.mk.injEq] at hp
    obtain ⟨rfl,rfl,-⟩ := hp
    exact ⟨_,hinv.push hm hturn hr rfl hslots htree⟩
  | @read dest src _ _ hd h =>
    obtain ⟨d,r,b,hread,hb⟩ := hinv.read src hd
    rw [h,Option.some.injEq,Prod.mk.injEq] at hread
    obtain ⟨rfl,rfl⟩ := hread
    exact ⟨b,hb⟩

theorem Inv.reach (xs : Fin n → Sending) (c : Codec)
    (hsrc : ∀ i, (xs i).defaults.src ≠ c.extidDefaults.src)
    (hfilter : ∀ i, ∀ m ∈ (xs i).msgs, c.acceptFilter (Extid.ofRaw m.id) = true)
    (hs : Relation.ReflTransGen (Step xs) (start c) s) : ∃ a, Inv xs c s a := by
  induction hs with
  | refl => exact ⟨_,inv_start xs c⟩
  | tail _ h ih =>
    obtain ⟨a,ha⟩ := ih
    exact ha.step hsrc hfilter h

/-- In any run without overflow each packet is announced with its last message, and what was
read and what can still be read are the completed packets, each once. -/
theorem transport_exact (xs : Fin n → Sending) (c : Codec)
    (hsrc : ∀ i, (xs i).defaults.src ≠ c.extidDefaults.src)
    (hfilter : ∀ i, ∀ m ∈ (xs i).msgs, c.acceptFilter (Extid.ofRaw m.id) = true)
    (s : Bus n) (hs : Relation.ReflTransGen (Step xs) (start c) s) :
    (∀ i m, (xs i).msgs[s.pushed i]? = some m → s.Turn xs i →
      ∃ d rv, s.codec.pushMessage m = some (d,rv,[]) ∧
        (rv = .errorSlotsOverflow ∨ rv = .errorTreeOverflow ∨
          rv = if s.pushed i+1 = (xs i).msgs.length then .packetAvailable else .msgAccepted)) ∧
    ∀ dest src, 610 ≤ dest.length →
      (∃ d r, s.codec.readPacket dest src = some (d,r)) ∧
      ∃ l, s.codec.drain (sizeTrees+1) dest src = some l ∧
        (s.returned : Multiset (BitVec 7 × List Byte))+l = s.completed xs := by
  obtain ⟨a,hinv⟩ := Inv.reach xs c hsrc hfilter hs
  constructor
  · intro i m hm hturn
    obtain ⟨p,hp,-⟩ := hinv.pushMessage hsrc hfilter (List.mem_of_getElem? hm)
    refine ⟨_,_,hp,?_⟩
    by_cases hslots : (a.push (Extid.ofRaw m.id) m.data (m.dlc.setWidth 8)).2 =
        .errorSlotsOverflow
    · exact Or.inl hslots
    by_cases htree : (a.push (Extid.ofRaw m.id) m.data (m.dlc.setWidth 8)).2 =
        .errorTreeOverflow
    · exact Or.inr (Or.inl htree)
    obtain ⟨k,u,-,-,hpush⟩ := hinv.push_spec hm hturn hslots htree
    obtain ⟨hlt,-⟩ := List.getElem?_eq_some_iff.mp hm
    have hlast : (xs i).msgs.drop (s.pushed i+1) = [] ↔ s.pushed i+1 = (xs i).msgs.length := by
      rw [List.drop_eq_nil_iff]
      omega
    refine Or.inr (Or.inr ?_)
    rw [hpush]
    simp only [Sending.code,hlast]
  · intro dest src hd
    obtain ⟨d,r,-,hread,-⟩ := hinv.read src hd
    obtain ⟨l,hl,hm⟩ := Codec.drain_spec hinv.refines hinv.intact src hd
      (Nat.lt_succ_of_le a.contents_card)
    exact ⟨⟨d,r,hread⟩,l,hl,by rw [hm,hinv.exact]⟩

def twoSendings : Fin 2 → Sending
  | 0 => ⟨⟨0#3,0#16,5#7,0#3,0#3⟩,⟨0#32,0#4,false,Vector.replicate 8 0#8⟩,[1#8,2#8],by decide⟩
  | 1 => ⟨⟨0#3,0#16,6#7,0#3,0#3⟩,⟨0#32,0#4,false,Vector.replicate 8 0#8⟩,
      [1#8,2#8,3#8,4#8,5#8,6#8,7#8,8#8,9#8,10#8,11#8],by decide⟩

def openCodec : Codec where
  pool := Pool.init
  extidDefaults := ⟨0#3,0#16,1#7,0#3,0#3⟩
  txmsg := ⟨0#32,0#4,false,Vector.replicate 8 0#8⟩
  acceptFilter := fun _ => true
  updateNodeId := id

theorem twoSendings_turn (s : Bus 2) (i : Fin 2) : s.Turn twoSendings i := by
  have hid : ¬ (twoSendings 1).extid.sameId (twoSendings 0).extid := by decide
  intro j hj _ h
  match i, j with
  | 0, 0 => exact hj rfl
  | 0, 1 => exact hid h
  | 1, 0 => exact hid h.symm
  | 1, 1 => exact hj rfl

/-- The short packet arrives between the messages of the long one. -/
theorem transport_exact_two : ∃ s : Bus 2, s.pushed 0 = 1 ∧ s.pushed 1 = 2 ∧
    ∃ l, s.codec.drain (sizeTrees+1) (List.replicate 610 0#8) 0#7 = some l ∧
      (s.returned : Multiset (BitVec 7 × List Byte))+l = s.completed twoSendings := by
  have h := transport_exact twoSendings openCodec (by decide) (fun _ _ _ => rfl) _
    (.tail (.tail (.tail .refl
      (.push (i := 1) (m := (twoSendings 1).msgs.head (by decide)) (by decide)
        (twoSendings_turn _ _) (by rfl) (by decide) (by decide)))
      (.push (i := 0) (m := (twoSendings 0).msgs.head (by decide)) (by decide)
        (twoSendings_turn _ _) (by rfl) (by decide) (by decide)))
      (.push (i := 1) (m := (twoSendings 1).msgs.getLast (by decide)) (by decide)
        (twoSendings_turn _ _) (by rfl) (by decide) (by decide)))
  exact ⟨_,rfl,rfl,(h.2 (List.replicate 610 0#8) 0#7 List.length_replicate.ge).2⟩

end Bus

end ApxBus.Can
