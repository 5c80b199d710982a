import ApxBus.Telemetry.BrokenFrame
import ApxBus.Telemetry.Leftover
set_option autoImplicit false

/-! The encoder at the end of the buffer: the room that a frame takes while it is written. -/

namespace ApxBus.Telemetry
open Function Mandala Real32

section
variable (val : Nat → Option Packed)

/-- The bytes that are taken while slots are written, with `behind` bytes behind their values. An
offset replaces zero codes that are written before it, one for each seven slots begun. -/
def room (behind : Nat) : Nat → List Nat → Nat
  | 0, _ => behind
  | fuel+1, l =>
    if l.filterMap val = [] then behind
    else
      let zeros := (l.takeWhile fun i => (val i).isNone).length
      let (code,rest) := firstCode val l
      let values := (payload (code.filterMap val)).length
      if zeros < 7 then 1+values+room behind fuel rest
      else
        let offset := (offsetBytes (code.headD 0-l.headD 0)).length
        max (zeros/7+1) (offset+values+room behind fuel rest)

variable {val} {l rest : List Nat} {behind fuel : Nat}

theorem room_nil (h : ∀ z ∈ l, val z = none) : room val behind fuel l = behind := by
  cases fuel with
  | zero => rfl
  | succ fuel => exact if_pos (List.filterMap_eq_nil_iff.mpr h)

theorem room_group (hlen : l.length ≤ 7) (hfull : l.length = 7 ∨ rest = [])
    (hs : ∃ i ∈ l, (val i).isSome) : room val behind (fuel+1) (l ++ rest) =
      1+(payload (l.filterMap val)).length+room val behind fuel rest := by
  have hne : (l ++ rest).filterMap val ≠ [] := by
    rw [List.filterMap_append]
    exact List.append_ne_nil_of_left_ne_nil (filterMap_ne_nil hs) _
  have hzeros : ((l ++ rest).takeWhile fun i => (val i).isNone).length < 7 := by
    obtain ⟨i,hi,hsome⟩ := hs
    have hlt : (l.takeWhile fun i => (val i).isNone).length < l.length := by
      refine (List.takeWhile_prefix _).length_le.lt_of_ne fun heq => ?_
      have hall := List.takeWhile_eq_self_iff.mp ((List.takeWhile_prefix _).eq_of_length heq) i hi
      rw [Option.isSome_iff_ne_none] at hsome
      exact hsome (Option.isNone_iff_eq_none.mp hall)
    rw [List.takeWhile_append,if_neg hlt.ne]
    omega
  rw [room,if_neg hne,firstCode_group hlen hfull hs]
  exact if_pos hzeros

theorem room_skip {z i : Nat} {zs : List Nat} {p : Packed} (hlen : 7 ≤ (z :: zs).length)
    (hn : ∀ j ∈ z :: zs, val j = none) (hp : val i = some p) :
    room val behind (fuel+1) (z :: zs ++ i :: rest) = max ((z :: zs).length/7+1)
      ((offsetBytes (i-z)).length+(payload [p]).length+room val behind fuel rest) := by
  have hne : (z :: zs ++ i :: rest).filterMap val ≠ [] :=
    filterMap_ne_nil ⟨i,List.mem_append_right _ List.mem_cons_self,by rw [hp]; rfl⟩
  have hzeros : (z :: zs ++ i :: rest).takeWhile (fun i => (val i).isNone) = z :: zs := by
    rw [List.takeWhile_append_of_pos fun j hj => by rw [hn j hj]; rfl,
      List.takeWhile_cons_of_neg (by rw [hp]; exact Bool.false_ne_true),List.append_nil]
  rw [room,if_neg hne,firstCode_skip hlen hn hp,hzeros]
  dsimp only
  rw [if_neg (by omega),List.filterMap_cons_some hp]
  rfl

theorem Wire.length_le_room {w : List Byte} (h : Wire val l w) (hf : l.length ≤ fuel) :
    w.length+behind ≤ room val behind fuel l := by
  induction h generalizing fuel with
  | nil hn =>
    rw [room_nil hn]
    exact Nat.le_of_eq (Nat.zero_add _)
  | @last l hlen hs =>
    have hpos : 1 ≤ l.length := by
      obtain ⟨i,hi,-⟩ := hs
      exact List.length_pos_of_mem hi
    obtain ⟨fuel,rfl⟩ := Nat.exists_eq_add_of_le' (hpos.trans hf)
    have hg := @room_group val l [] behind fuel hlen (Or.inr rfl) hs
    rw [List.append_nil] at hg
    rw [hg,room_nil (List.forall_mem_nil _),List.length_cons]
    omega
  | @group l rest w hl hs hw ih =>
    rw [List.length_append,hl] at hf
    obtain ⟨fuel,rfl⟩ := Nat.exists_eq_add_of_le' (show 1 ≤ fuel by omega)
    have hle := @ih fuel (by omega)
    rw [room_group hl.le (Or.inl hl) hs,List.length_cons,List.length_append]
    omega
  | @skip z i zs rest p w hlen hz hi hn hp hw ih =>
    rw [List.length_append,List.length_cons (a := i)] at hf
    obtain ⟨fuel,rfl⟩ := Nat.exists_eq_add_of_le' (show 1 ≤ fuel by omega)
    have hle := @ih fuel (by omega)
    rw [room_skip hlen hn hp,List.length_append,List.length_append]
    omega

end

namespace TelemetryEncoder
variable {n index sz : Nat} {f : Field} {buf : BitVec 32} {s s' : EncodeState}

section Spot
variable {val : Nat → Option Packed} {pre : List Byte} {m : Nat}

section
variable (val pre m)

/-- Behind the codes of the slots `done` are those of `cur`: they have a value, or none has. -/
def Spot (done cur : List Nat) (wd : List Byte) (s : EncodeState) : Prop :=
  (InGroup val pre m done cur wd s ∧ s.codeBit = 1#8 <<< (cur.length-1)) ∨
    (InZeros val pre m done cur wd s ∧ ∀ z ∈ cur, val z = none)

/-- The same, where the bit of the slot `index` is the next one. -/
def NextSpot (done cur : List Nat) (index : Nat) (wd : List Byte) (s : EncodeState) : Prop :=
  (cur.length < 7 ∧ InGroup val pre m done cur wd s ∧ s.codeBit = 1#8 <<< cur.length) ∨
    ((∀ z ∈ cur, val z = none) ∧ InZeros val pre m done (cur ++ [index]) wd s)

/-- Whether the slots `l` behind `wd` have room tells whether `C`. -/
def Needs (behind n : Nat) (C : Prop) (wd : List Byte) (l : List Nat) : Prop :=
  ∃ fuel, l.length ≤ fuel ∧ (C ↔ pre.length+1+wd.length+room val behind fuel l ≤ n)

end

variable {done cur : List Nat} {wd : List Byte}

theorem Spot.next (h : Spot val pre m done cur wd s) (hroom : s.stream.pos+1 ≤ m) (index : Nat) :
    ∃ done' cur' wd', done' ++ cur' = done ++ cur ∧
      NextSpot val pre m done' cur' index wd' (nextBit index s) ∧
      (nextBit index s).stream.pos ≤ s.stream.pos+1 ∧ ∀ n behind C rest,
        Needs val pre behind n C wd (cur ++ index :: rest) →
        Needs val pre behind n C wd' (cur' ++ index :: rest) := by
  rcases h with ⟨hg,hbit⟩ | ⟨hz,hnone⟩
  · by_cases hfull : cur.length = 7
    · obtain ⟨hz,hp⟩ := (hg.full hfull hbit).next hroom index
      refine ⟨done ++ cur,[],_,List.append_nil _,Or.inr ⟨List.forall_mem_nil _,hz⟩,hp,
        fun n behind C rest hn => ?_⟩
      obtain ⟨fuel,hf,hC⟩ := hn
      rw [List.length_append,hfull] at hf
      obtain ⟨fuel,rfl⟩ := Nat.exists_eq_add_of_le' (show 1 ≤ fuel by omega)
      refine ⟨fuel,by rw [List.nil_append]; omega,hC.trans ?_⟩
      rw [room_group hg.le (Or.inl hfull) hg.some,List.nil_append,List.length_append,
        List.length_cons]
      omega
    · have hlt : cur.length < 7 := Nat.lt_of_le_of_ne hg.le hfull
      obtain ⟨hg',hbit',hp⟩ := hg.next hlt hbit index
      exact ⟨done,cur,wd,rfl,Or.inl ⟨hlt,hg',hbit'⟩,hp ▸ Nat.le_succ _,fun _ _ _ _ hn => hn⟩
  · obtain ⟨hz',hp⟩ := hz.next hroom index
    exact ⟨done,cur,wd,rfl,Or.inr ⟨hnone,hz'⟩,hp,fun _ _ _ _ hn => hn⟩

theorem NextSpot.absent (h : NextSpot val pre m done cur index wd s) (hv : val index = none) :
    Spot val pre m done (cur ++ [index]) wd s := by
  rcases h with ⟨hlt,hg,hbit⟩ | ⟨hnone,hz⟩
  · refine Or.inl ⟨hg.absent hlt hv,?_⟩
    rw [hbit,List.length_append]
    rfl
  · refine Or.inr ⟨hz,fun z hz => ?_⟩
    rcases List.mem_append.mp hz with hz | hz
    · exact hnone z hz
    · rw [List.mem_singleton.mp hz]
      exact hv

theorem InGroup.shape (h : InGroup val pre m done cur wd s) : Shape m s := by
  have hle := h.values.holds.le
  have hp := h.posData
  have hz := h.codeZero
  refine ⟨h.values.holds.size,by omega,by omega,fun q hq hlt => ?_,fun _ => hz⟩
  omega

theorem InZeros.pos_eq (h : InZeros val pre m done cur wd s) :
    s.stream.pos = s.posData+s.codeZero := by
  rw [h.holds.pos,h.posData,h.codeZero]
  simp only [List.length_append,List.length_cons,List.length_replicate]
  omega

theorem InZeros.shape (h : InZeros val pre m done cur wd s) : Shape m s := by
  have hle := h.holds.le
  have hp := h.pos_eq
  refine ⟨h.holds.size,by omega,by omega,fun q hq hlt => ?_,fun hn => ?_⟩
  · have hout := h.holds.out
    have hlen : (pre ++ counted val done :: wd).length = s.posData := by
      rw [h.posData,List.length_append,List.length_cons]
      omega
    rw [← List.getElem?_take_of_lt hlt]
    change s.stream.out[q]? = _
    rw [hout,← List.cons_append,← List.append_assoc,List.getElem?_append_right (by omega),hlen,
      List.getElem?_replicate,if_pos (by rw [← h.codeZero]; omega)]
  · have hnil : cur = [] := by
      by_contra hne
      exact hn (h.nibbleN hne)
    rw [h.codeZero,hnil]
    rfl

theorem NextSpot.ready (h : NextSpot val pre m done cur index wd s)
    (hevs : (done ++ cur ++ [index]).Pairwise (· < ·)) (hi : index < slotsSize) :
    Ready m pre.length index s := by
  have hi' : index < 240 := hi
  rcases h with ⟨hlt,hg,hbit⟩ | ⟨hnone,hz⟩
  · have hpos := hg.values.holds.pos
    have hcode := hg.code
    have hdata := hg.posData
    have hzero := hg.codeZero
    simp only [List.length_append,List.length_cons] at hpos
    refine ⟨hg.shape,by omega,by omega,by omega,fun hn => ?_,by omega,fun hk => by omega⟩
    have hnib := (hg.values.nibble hn).1
    omega
  · have hne : cur ++ [index] ≠ [] := List.append_ne_nil_of_right_ne_nil _ (List.cons_ne_nil _ _)
    have hpos := hz.pos_eq
    have hdata := hz.posData
    have hcode := hz.code hne
    refine ⟨hz.shape,hpos,by omega,by omega,fun hn => absurd (hz.nibbleN hne) hn,by omega,
      fun hk => ?_⟩
    rw [hz.codeZero,List.length_append,List.length_singleton] at hk
    cases cur with
    | nil =>
      rw [List.length_nil] at hk
      omega
    | cons z zs =>
      rw [List.append_assoc] at hevs
      have hle := head_add_le (List.pairwise_append.mp hevs).2.1
      have hzi := hz.codeIndex z rfl
      rw [List.length_cons] at hle
      omega

/-- The value follows its code, or an offset that replaces zero codes. -/
theorem NextSpot.send (h : NextSpot val pre m done cur index wd s)
    (hevs : (done ++ cur ++ [index]).Pairwise (· < ·)) (hi : index < slotsSize)
    (hv : val index = some (packedOf f buf sz)) (hroom : s.stream.pos+4 ≤ m) :
    ∃ s', sendValue pre.length index f buf sz s = some s' ∧ s'.stream.pos ≤ s.stream.pos+4 ∧
      ((s.codeZero < 2 ∧ Spot val pre m done (cur ++ [index]) wd s') ∨
        ∃ z zs, cur = z :: zs ∧ 7 ≤ cur.length ∧ (∀ j ∈ cur, val j = none) ∧
          s.codeZero = cur.length/7+1 ∧ s.posData = pre.length+1+wd.length ∧
          s'.stream.buf[s.posData]? ≠ some 0#8 ∧
          Spot val pre m (done ++ (cur ++ [index])) []
            (wd ++ (offsetBytes (index-z) ++ payload [packedOf f buf sz])) s') := by
  have hclose : s.codeZero < 2 → Coding val pre m done cur wd s →
      ∃ s', sendValue pre.length index f buf sz s = some s' ∧ s'.stream.pos ≤ s.stream.pos+4 ∧
        s.codeZero < 2 ∧ Spot val pre m done (cur ++ [index]) wd s' := by
    intro hz hc
    obtain ⟨s',hs,hg,hbit,hp⟩ := hc.send hv hroom
    refine ⟨s',hs,hp,hz,Or.inl ⟨hg,?_⟩⟩
    rw [hbit,List.length_append]
    rfl
  rcases h with ⟨hlt,hg,hbit⟩ | ⟨hnone,hz⟩
  · obtain ⟨s',hs,hp,hz,hsp⟩ := hclose (by rw [hg.codeZero]; decide) (hg.coding hlt hbit)
    exact ⟨s',hs,hp,Or.inl ⟨hz,hsp⟩⟩
  · have hcz := hz.codeZero
    rw [List.length_append,List.length_singleton] at hcz
    by_cases hlt : cur.length < 7
    · obtain ⟨s',hs,hp,hz',hsp⟩ := hclose (by omega) (hz.coding hlt hnone)
      exact ⟨s',hs,hp,Or.inl ⟨hz',hsp⟩⟩
    · cases cur with
      | nil => exact absurd (Nat.zero_lt_succ 6) hlt
      | cons z zs =>
        rw [List.append_assoc] at hevs
        have hle := head_add_le (List.pairwise_append.mp hevs).2.1
        have hi' : index < 240 := hi
        obtain ⟨s',hs,hz',hp⟩ := hz.skip (by omega) hnone (by omega) (by omega) hv hroom
        refine ⟨s',hs,hp,Or.inr ⟨z,zs,rfl,by omega,hnone,by omega,hz.posData,?_,
          Or.inr ⟨hz',List.forall_mem_nil _⟩⟩⟩
        obtain ⟨b,l,hb,hne⟩ := offsetBytes_head (index-z)
        have hh := hz'.holds
        rw [List.append_assoc,hb,List.cons_append,List.cons_append,← List.cons_append,
          ← List.append_assoc] at hh
        have hget := hh.getElem?
        rw [List.length_append,List.length_cons] at hget
        rw [hz.posData,Nat.add_assoc,Nat.add_comm 1,hget]
        exact fun h0 => hne (Option.some.inj h0)

/-- Cut is sent what the large buffer has at the same place, unless zero codes do not fit. -/
theorem NextSpot.send_cut (h : NextSpot val pre m done cur index wd s)
    (hevs : (done ++ cur ++ [index]).Pairwise (· < ·)) (hi : index < slotsSize)
    (hv : val index = some (packedOf f buf sz)) (hroom : s.stream.pos+4 ≤ m) (hnm : n ≤ m) :
    ∃ s' done' cur' wd', sendValue pre.length index f buf sz s = some s' ∧
      s'.stream.pos ≤ s.stream.pos+4 ∧ done' ++ cur' = done ++ cur ++ [index] ∧
      Spot val pre m done' cur' wd' s' ∧ s.posData ≤ s'.posData ∧ (s'.posData ≤ n →
        ∀ behind C rest, Needs val pre behind n C wd (cur ++ index :: rest) →
        (Needs val pre behind n C wd' (cur' ++ rest) ∧
          sendValue pre.length index f buf sz (cutState n s) = some (cutState n s')) ∨
        (¬ C ∧ ∀ a', sendValue pre.length index f buf sz (cutState n s) = some a' →
          Broken n pre.length (s'.codeBit ≠ 1#8 <<< 6) s' a')) := by
  have hr := h.ready hevs hi
  have hroom' := hr.room hroom f buf sz
  obtain ⟨s',hs,hp,hcase⟩ := h.send hevs hi hv hroom
  have hsent := hr.shape.sendValue hr.dist_lt hr.dist_pos hs
  have hst := hr.startOf_eq
  have hpos := hr.pos
  have hcnt := hr.cnt
  have hdata : s'.posData = _ := hsent.posData.trans (Nat.min_eq_right hroom')
  have hcut : s'.posData ≤ n → s.stream.pos ≤ n →
      sendValue pre.length index f buf sz (cutState n s) = some (cutState n s') := by
    intro hfits hle
    have hcode := hr.code
    rw [sendValue_cut hr.shape hnm hr.dist_lt hr.dist_pos hle (by omega) (fun _ => by omega)
      (fun hn => (hr.nibble hn).trans_le hle) (by omega) (by omega),hs]
    rfl
  have hle : s.posData ≤ s'.posData := by
    split_ifs at hst <;> omega
  rcases hcase with ⟨hz,hsp⟩ | ⟨z,zs,hcur,hlen,hnone,hz,hbase,hoff,hsp⟩
  · refine ⟨s',done,cur ++ [index],wd,hs,hp,(List.append_assoc _ _ _).symm,hsp,hle,
      fun hfits behind C rest hn => Or.inl ⟨?_,hcut hfits ?_⟩⟩
    · rw [List.append_assoc]
      exact hn
    · rw [if_neg (by omega)] at hst
      omega
  · refine ⟨s',_,[],_,hs,hp,by rw [List.append_nil,List.append_assoc],hsp,hle,
      fun hfits behind C rest hn => ?_⟩
    obtain ⟨fuel,hf,hC⟩ := hn
    rw [List.length_append,List.length_cons] at hf
    obtain ⟨fuel,rfl⟩ := Nat.exists_eq_add_of_le' (show 1 ≤ fuel by omega)
    subst hcur
    rw [room_skip hlen hnone hv] at hC
    by_cases hle : s.stream.pos ≤ n
    · refine Or.inl ⟨⟨fuel,by rw [List.nil_append]; omega,hC.trans ?_⟩,hcut hfits hle⟩
      rw [List.nil_append,List.length_append,List.length_append]
      omega
    · refine Or.inr ⟨fun hc => ?_,fun a' ha => ?_⟩
      · have hroomy := hC.mp hc
        omega
      · have hk : s.codeZero ≥ 2 := by omega
        rw [if_pos hk] at hst
        have hshape := hr.shape.cut hnm (show s.posData ≤ n by omega)
        have hboth : Both m n pre.length index f buf sz s (cutState n s) s' a' :=
          ⟨⟨rfl,rfl,rfl,rfl,rfl⟩,hr,hshape,hsent,
            hshape.sendValue hr.dist_lt hr.dist_pos ha,hroom',hfits,fun _ => hoff⟩
        refine hboth.derail hk (Nat.le_refl _) (Or.inr (by omega)) ?_
        rw [hsent.codeBit,if_pos hk]
        exact not_not.mpr rfl

end Spot

section Round
variable {casts : Casts} {garbage : Nat → BitVec 32} {pseq : Byte} {slots : Nat → EncSlot}
  {pre : List Byte} {m : Nat} {done cur : List Nat} {wd : List Byte} {a a' : EncodeState}

theorem NextSpot.withEnc {val : Nat → Option Packed} (h : NextSpot val pre m done cur index wd s)
    (g : TelemetryEncoder → TelemetryEncoder) :
    NextSpot val pre m done cur index wd (withEnc g s) := by
  rcases h with ⟨hlt,hg,hbit⟩ | ⟨hnone,hz⟩
  · exact Or.inl ⟨hlt,⟨hg.closed,hg.some,hg.le,
      ⟨hg.values.holds,hg.values.half,hg.values.nibble⟩,hg.code,hg.codeZero,hg.posData⟩,hbit⟩
  · exact Or.inr ⟨hnone,⟨hz.closed,hz.holds,hz.codeZero,hz.codeBit,hz.codeIndex,hz.code,hz.nibbleN,
      hz.posData⟩⟩

theorem Spot.shape {val : Nat → Option Packed} (h : Spot val pre m done cur wd s) : Shape m s := by
  rcases h with ⟨hg,-⟩ | ⟨hz,-⟩
  · exact hg.shape
  · exact hz.shape

/-- A round in the large buffer, and in the small one as long as its zero codes fit. -/
theorem Spot.round (h : Spot (valueOf casts garbage pseq slots) pre m done cur wd s)
    (hevs : (done ++ cur ++ [index]).Pairwise (· < ·)) (hi : index < slotsSize)
    (hp : passes (slots index).field pseq) (hroom : s.stream.pos+5 ≤ m) (hnm : n ≤ m) :
    ∃ s' done' cur' wd', encodeValue casts garbage pre.length index (slots index) s = some s' ∧
      s'.stream.pos ≤ s.stream.pos+5 ∧ done' ++ cur' = done ++ cur ++ [index] ∧
      Spot (valueOf casts garbage pseq slots) pre m done' cur' wd' s' ∧
      s.posData ≤ s'.posData ∧ (s'.posData ≤ n → ∀ behind C rest,
        Needs (valueOf casts garbage pseq slots) pre behind n C wd (cur ++ index :: rest) →
        (Needs (valueOf casts garbage pseq slots) pre behind n C wd' (cur' ++ rest) ∧
          encodeValue casts garbage pre.length index (slots index) (cutState n s) =
            some (cutState n s')) ∨
        (¬ C ∧ ∀ a', encodeValue casts garbage pre.length index (slots index) (cutState n s) =
            some a' → Broken n pre.length (s'.codeBit ≠ 1#8 <<< 6) s' a')) := by
  have hsize := h.shape.size
  have hbitcut := @nextBit_cut n s (hsize ▸ hnm) (by omega) index
  obtain ⟨g,hg⟩ := @encodeValue_eq index casts garbage pseq hi _ hp
  obtain ⟨done1,cur1,wd1,heq,hsp,hpos,hneed⟩ := h.next (by omega) index
  have hsp' := hsp.withEnc g
  have hcut : cutState n (withEnc g (nextBit index s)) =
      withEnc g (nextBit index (cutState n s)) := by
    rw [hbitcut]
    rfl
  rw [hg,hg,← hcut]
  by_cases hsend : Sends casts (garbage index) pseq (slots index)
  · rw [if_pos hsend,if_pos hsend]
    obtain ⟨s',done',cur',wd',hs,hp',heq',hspot,hle,hthen⟩ := hsp'.send_cut
      (by rw [heq]; exact hevs) hi (if_pos hsend)
      (by change (nextBit index s).stream.pos+4 ≤ m; omega) hnm
    refine ⟨s',done',cur',wd',hs,?_,by rw [heq',heq],hspot,?_,
      fun hfits behind C rest hn => hthen hfits behind C rest (hneed n behind C rest hn)⟩
    · change _ ≤ (nextBit index s).stream.pos+4 at hp'
      omega
    · change (nextBit index s).posData ≤ _ at hle
      rw [nextBit_posData] at hle
      exact hle
  · rw [if_neg hsend,if_neg hsend]
    refine ⟨_,done1,cur1 ++ [index],wd1,rfl,?_,by rw [← List.append_assoc,heq],
      hsp'.absent (if_neg hsend),?_,fun _ behind C rest hn => Or.inl ⟨?_,rfl⟩⟩
    · change (nextBit index s).stream.pos ≤ _
      omega
    · exact (nextBit_posData index s).ge
    · rw [List.append_assoc]
      exact hneed n behind C rest hn

/-- A round in a buffer where something went wrong before. -/
theorem Spot.round_broken (h : Spot (valueOf casts garbage pseq slots) pre m done cur wd s)
    (hevs : (done ++ cur ++ [index]).Pairwise (· < ·)) (hi : index < slotsSize)
    (hp : passes (slots index).field pseq) (hroom : s.stream.pos+5 ≤ m)
    (hb : Broken n pre.length (s.codeBit ≠ 1#8 <<< 6) s a)
    (hs : encodeValue casts garbage pre.length index (slots index) s = some s')
    (ha : encodeValue casts garbage pre.length index (slots index) a = some a')
    (hfits : s'.posData ≤ n) : Broken n pre.length (s'.codeBit ≠ 1#8 <<< 6) s' a' := by
  obtain ⟨g,hg⟩ := @encodeValue_eq index casts garbage pseq hi _ hp
  obtain ⟨done1,cur1,wd1,heq,hsp,hpos,-⟩ := h.next (by omega) index
  have hsp' := hsp.withEnc g
  have hb' := (hb.nextBit h.shape index).withEnc g
  rw [hg] at hs ha
  by_cases hsend : Sends casts (garbage index) pseq (slots index)
  · rw [if_pos hsend] at hs ha
    have hroom' : (withEnc g (nextBit index s)).stream.pos+4 ≤ m := by
      change (nextBit index s).stream.pos+4 ≤ m
      omega
    rw [← heq] at hevs
    have hr := hsp'.ready hevs hi
    have hsame := hb'.1
    have hshape := hb'.2.1
    obtain ⟨s1,hs1,-,hcase⟩ := hsp'.send hevs hi (if_pos hsend) hroom'
    obtain rfl := Option.some.inj (hs.symm.trans hs1)
    have hboth : Both m n pre.length index _ _ _ _ _ s' a' :=
      ⟨hsame,hr,hshape,hr.shape.sendValue hr.dist_lt hr.dist_pos hs,
        hshape.sendValue (by rw [hsame.codeIndex]; exact hr.dist_lt)
          (by rw [hsame.codeIndex,hsame.codeZero]; exact hr.dist_pos) ha,
        hr.room hroom' _ _ _,hfits,fun hz => ?_⟩
    · exact hboth.broken hb'
    · rcases hcase with ⟨hlt,-⟩ | ⟨z,zs,-,-,-,-,-,hoff,-⟩
      · omega
      · exact hoff
  · rw [if_neg hsend] at hs ha
    cases hs
    cases ha
    obtain ⟨hsame,hshape,hcase⟩ := hb'
    exact ⟨hsame,hshape,hcase.imp_right fun ⟨q,hq,hc⟩ => ⟨q,hq,fun _ => hc trivial⟩⟩

/-- What a loop that leads from `s` to `s'` in the large buffer does in one of `n` bytes: the same
while it has room, and nothing sound once it had none. The slots `l` are behind `wd`, and in the
end `l'` behind `wd'`. -/
structure CutRun (val : Nat → Option Packed) (pre : List Byte) (n : Nat)
    (loop : EncodeState → Option (EncodeState × Nat)) (s s' : EncodeState) (stop : Nat)
    (wd wd' : List Byte) (l l' : List Nat) : Prop where
  sync : ∀ behind C, Needs val pre behind n C wd l →
    (Needs val pre behind n C wd' l' ∧ loop (cutState n s) = some (cutState n s',stop)) ∨
    (¬ C ∧ ∀ r, loop (cutState n s) = some r →
      r.2 = stop ∧ Broken n pre.length (s'.codeBit ≠ 1#8 <<< 6) s' r.1)
  broken : ∀ a, Broken n pre.length (s.codeBit ≠ 1#8 <<< 6) s a → ∀ r, loop a = some r →
    r.2 = stop ∧ Broken n pre.length (s'.codeBit ≠ 1#8 <<< 6) s' r.1

section CutRun
variable {val : Nat → Option Packed} {loop rest : EncodeState → Option (EncodeState × Nat)}
  {first : EncodeState → Option EncodeState} {s1 : EncodeState} {stop : Nat}
  {wd1 wd' : List Byte} {l l1 l' : List Nat}

theorem CutRun.congr (h : CutRun val pre n rest s s' stop wd wd' l l')
    (heq : ∀ t : EncodeState, t.enc = s.enc → loop t = rest t) :
    CutRun val pre n loop s s' stop wd wd' l l' where
  sync := by
    rw [heq (cutState n s) rfl]
    exact h.sync
  broken a ha := by
    rw [heq a ha.1.enc]
    exact h.broken a ha

theorem CutRun.stay (stop : Nat) :
    CutRun val pre n (fun t => some (t,stop)) s s stop wd wd l l where
  sync _ _ hn := Or.inl ⟨hn,rfl⟩
  broken _ ha r hr := by
    cases hr
    exact ⟨rfl,ha⟩

theorem CutRun.round (h : CutRun val pre n rest s1 s' stop wd1 wd' l1 l')
    (hsync : ∀ behind C, Needs val pre behind n C wd l →
      (Needs val pre behind n C wd1 l1 ∧ first (cutState n s) = some (cutState n s1)) ∨
      (¬ C ∧ ∀ a1, first (cutState n s) = some a1 →
        Broken n pre.length (s1.codeBit ≠ 1#8 <<< 6) s1 a1))
    (hbroken : ∀ a a1, Broken n pre.length (s.codeBit ≠ 1#8 <<< 6) s a → first a = some a1 →
      Broken n pre.length (s1.codeBit ≠ 1#8 <<< 6) s1 a1) :
    CutRun val pre n (fun t => (first t).bind rest) s s' stop wd wd' l l' where
  sync behind C hn := by
    rcases hsync behind C hn with ⟨hn1,hcut⟩ | ⟨hC,hbr⟩
    · rw [hcut]
      exact h.sync behind C hn1
    · refine Or.inr ⟨hC,fun r hr => ?_⟩
      obtain ⟨a1,ha1,hr⟩ := Option.bind_eq_some_iff.mp hr
      exact h.broken a1 (hbr a1 ha1) r hr
  broken a ha r hr := by
    obtain ⟨a1,ha1,hr⟩ := Option.bind_eq_some_iff.mp hr
    exact h.broken a1 (hbroken a a1 ha ha1) r hr

end CutRun

/-- The loop in the large buffer, and in the small one. -/
theorem valueLoop_cut (k index : Nat)
    (h : Spot (valueOf casts garbage pseq slots) pre m done cur wd s)
    (hslots : ∀ i, index ≤ i → s.enc.slots i = slots i)
    (hevs : (done ++ cur).Pairwise (· < ·)) (hlt : ∀ j ∈ done ++ cur, j < index)
    (hk : index+k ≤ slotsSize) (hroom : s.stream.pos+5*k ≤ m) (hnm : n ≤ m) :
    ∃ s' stop done' cur' wd', valueLoop casts garbage pseq pre.length k index s = some (s',stop) ∧
      Spot (valueOf casts garbage pseq slots) pre m done' cur' wd' s' ∧
      done' ++ cur' = done ++ cur ++ passing (fun i => (slots i).field) pseq index stop ∧
      s'.stream.pos ≤ s.stream.pos+5*(stop-index) ∧ s.posData ≤ s'.posData ∧ (s'.posData ≤ n →
        CutRun (valueOf casts garbage pseq slots) pre n
          (valueLoop casts garbage pseq pre.length k index) s s' stop wd wd'
          (cur ++ passing (fun i => (slots i).field) pseq index stop) cur') := by
  induction k generalizing index s done cur wd with
  | zero =>
    refine ⟨s,index,done,cur,wd,rfl,h,?_,Nat.le_add_right _ _,Nat.le_refl _,fun _ => ?_⟩
    · rw [passing_self,List.append_nil]
    · rw [passing_self,List.append_nil]
      exact CutRun.stay index
  | succ k ih =>
    have hslot : ∀ t : EncodeState, t.enc = s.enc → t.enc.slot index = some (slots index) := by
      intro t ht
      rw [ht,slot,if_pos (by omega),hslots index (Nat.le_refl _)]
    by_cases hbit : (slots index).field.fmt = Fmt.bit.code
    · have hstop : ∀ t : EncodeState, t.enc = s.enc →
          valueLoop casts garbage pseq pre.length (k+1) index t = some (t,index) := by
        intro t ht
        rw [valueLoop_succ (hslot t ht),if_pos hbit]
      refine ⟨s,index,done,cur,wd,hstop s rfl,h,?_,Nat.le_add_right _ _,Nat.le_refl _,fun _ => ?_⟩
      · rw [passing_self,List.append_nil]
      · rw [passing_self,List.append_nil]
        exact (CutRun.stay index).congr hstop
    by_cases hp : passes (slots index).field pseq
    · obtain ⟨hevs',hlt'⟩ := pairwise_snoc hevs hlt
      have hnext : ∀ t : EncodeState, t.enc = s.enc →
          valueLoop casts garbage pseq pre.length (k+1) index t =
            (encodeValue casts garbage pre.length index (slots index) t).bind
              (valueLoop casts garbage pseq pre.length k (index+1)) := by
        intro t ht
        rw [valueLoop_succ (hslot t ht),if_neg hbit,if_pos hp]
      obtain ⟨s1,done1,cur1,wd1,hs1,hp1,heq1,hsp1,hle1,hthen1⟩ :=
        h.round hevs' (by omega) hp (by omega) hnm
      obtain ⟨s',stop,done',cur',wd',hs',hsp',heq',hpos',hle',hthen'⟩ :=
        ih (index+1) hsp1 (fun i => encodeValue_behind hslots hp hs1) (heq1 ▸ hevs')
          (heq1 ▸ hlt') (by omega) (by omega)
      have hstop := (valueLoop_spec hs').1
      have hpass := @passing_cons (fun i => (slots i).field) pseq index stop (by omega)
      rw [if_pos hp,List.singleton_append] at hpass
      refine ⟨s',stop,done',cur',wd',?_,hsp',?_,by omega,hle1.trans hle',fun hfits => ?_⟩
      · rw [hnext s rfl,hs1]
        exact hs'
      · rw [heq',heq1,hpass,List.append_assoc _ [index]]
        rfl
      · rw [hpass]
        refine (CutRun.round (hthen' hfits) (fun behind C hn => ?_)
          (fun a a1 ha ha1 => ?_)).congr hnext
        · exact hthen1 (hle'.trans hfits) behind C _ hn
        · exact h.round_broken hevs' (by omega) hp (by omega) ha hs1 ha1 (hle'.trans hfits)
    · have hnext : ∀ t : EncodeState, t.enc = s.enc →
          valueLoop casts garbage pseq pre.length (k+1) index t =
            valueLoop casts garbage pseq pre.length k (index+1) t := by
        intro t ht
        rw [valueLoop_succ (hslot t ht),if_neg hbit,if_neg hp]
      obtain ⟨s',stop,done',cur',wd',hs',hsp',heq',hpos',hle',hthen'⟩ :=
        ih (index+1) h (fun i hi => hslots i (by omega)) hevs
          (fun j hj => Nat.lt_succ_of_lt (hlt j hj)) (by omega) (by omega)
      have hstop := (valueLoop_spec hs').1
      have hpass := @passing_cons (fun i => (slots i).field) pseq index stop (by omega)
      rw [if_neg hp,List.nil_append] at hpass
      rw [← hpass] at heq' hthen'
      exact ⟨s',stop,done',cur',wd',(hnext s rfl).trans hs',hsp',heq',by omega,hle',
        fun hfits => (hthen' hfits).congr hnext⟩

end Round

theorem bitLoop_cut {m : Nat} (k i : Nat) {o : List Byte} {bs : List Bool} (h : Bits m o bs s)
    (hk : i+k ≤ slotsSize) (hroom : s.stream.pos+k ≤ m) (hnm : n ≤ m) :
    ∃ s', bitLoop k i s = some s' ∧
      Bits m o (bs ++ (List.range' i k).map fun j => decide ((s.enc.slots j).value ≠ 0#32)) s' ∧
      s.stream.pos ≤ s'.stream.pos ∧
      (s'.stream.pos ≤ n → bitLoop k i (cutState n s) = some (cutState n s')) := by
  induction k generalizing i s bs with
  | zero => exact ⟨s,rfl,by simpa using h,Nat.le_refl _,fun _ => rfl⟩
  | succ k ih =>
    have hslot : s.enc.slot i = some (s.enc.slots i) := if_pos (by omega)
    have hcutslot : (cutState n s).enc.slot i = some (s.enc.slots i) := hslot
    have hn : n ≤ s.stream.size := hnm.trans h.holds.size.ge
    have hp : s.stream.pos ≤ s.stream.size := h.holds.le.trans h.holds.size.ge
    obtain ⟨s1,hs1,hb,hp1,henc⟩ := h.append (s.enc.slots i) (by omega)
    have hspec := appendBit_spec hp hs1
    have hflag := nextFlag_spec hp
    have hpos1 := hspec.pos
    have hcode : (nextFlag s).code < s1.stream.pos := by
      have hsize := h.holds.size
      rw [hflag.code,hpos1]
      split_ifs with hbit
      · omega
      · have hne : bs ≠ [] := by
          rintro rfl
          exact hbit h.codeBit
        have hcode := h.code hne
        omega
    obtain ⟨s',hs',hb',hle,hthen⟩ := ih (i+1) hb (by omega) (by omega)
    refine ⟨s',?_,?_,?_,fun hfits => ?_⟩
    · rw [TelemetryEncoder.bitLoop,hslot]
      simp only [Option.bind_eq_bind,Option.bind_some]
      rw [hs1]
      exact hs'
    · rw [List.range'_succ,List.map_cons]
      rw [henc,List.append_assoc] at hb'
      exact hb'
    · have hsize := h.holds.size
      split_ifs at hpos1 <;> omega
    · rw [TelemetryEncoder.bitLoop,hcutslot]
      simp only [Option.bind_eq_bind,Option.bind_some]
      rw [appendBit_cut hn hp (by omega),hs1]
      exact hthen hfits

section Encode
variable {casts : Casts} {garbage : Nat → BitVec 32} {pseq : Byte} {e : TelemetryEncoder}
  {w : Writer} {val : Nat → Option Packed} {pre : List Byte} {m behind : Nat} {C : Prop}
  {done cur : List Nat} {wd : List Byte} {a : EncodeState} {ts : BitVec 64}

theorem Spot.needs_iff (h : Spot val pre m done cur wd s)
    (hn : Needs val pre behind n C wd cur) : C ↔ s.posData+behind ≤ n := by
  obtain ⟨fuel,hf,hC⟩ := hn
  rw [hC]
  rcases h with ⟨hg,-⟩ | ⟨hz,hnone⟩
  · have hpos : 1 ≤ cur.length := by
      obtain ⟨i,hi,-⟩ := hg.some
      exact List.length_pos_of_mem hi
    obtain ⟨fuel,rfl⟩ := Nat.exists_eq_add_of_le' (hpos.trans hf)
    have hroom := @room_group val cur [] behind fuel hg.le (Or.inr rfl) hg.some
    have hdata := hg.posData.trans hg.values.holds.pos
    simp only [List.length_append,List.length_cons,List.length_nil] at hdata
    rw [List.append_nil,room_nil (List.forall_mem_nil _)] at hroom
    rw [hroom]
    omega
  · rw [room_nil hnone,hz.posData]

theorem Spot.written (h : Spot val pre m done cur wd s) : Written val pre m (done ++ cur) s := by
  rcases h with ⟨hg,hbit⟩ | ⟨hz,hnone⟩
  · exact Or.inl ⟨done,cur,wd,rfl,hg,hbit⟩
  · exact Or.inr ⟨done,cur,wd,rfl,hz,hnone⟩

theorem needs_start (val : Nat → Option Packed) {k : Nat} (hpre : pre.length = k) (behind n : Nat)
    {stop cnt : Nat} (hle : stop ≤ cnt) (field : Nat → Field) (pseq : Byte) :
    Needs val pre behind n (k+1+room val behind cnt (passing field pseq 0 stop) ≤ n) []
      ([] ++ passing field pseq 0 stop) := by
  refine ⟨cnt,?_,?_⟩
  · rw [List.nil_append]
    exact passing_length_le.trans hle
  · rw [hpre,List.nil_append,List.length_nil,Nat.add_zero]

theorem encode_cut_eq {e1 : TelemetryEncoder} (he : e.enforceUpdate = some e1) (hn : n ≤ w.size)
    (hfit : w.pos+4 ≤ n) : e.encode casts garbage (w.cut n) pseq ts =
      (valueLoop casts garbage pseq (w.pos+3) e1.slotsCnt 0
        (cutState n (startState e1 ((hdrOf e pseq ts).write w)))).bind fun r =>
          bitLoop (e1.slotsCnt-r.2) r.2 (valuesEnd r.1) := by
  obtain ⟨-,hp,hsize⟩ := @Hdr.write_spec (hdrOf e pseq ts) w (by unfold Hdr.psize; omega)
  have hp3 : ((hdrOf e pseq ts).write w).pos = w.pos+3 := hp
  rw [encode_eq he,Hdr.write_cut hn (by omega),startState_cut (by omega) (by omega),
    Writer.pos_cut,hp3,Nat.min_eq_right (by omega)]

/-- A frame in a buffer with room, and in one that ends at `n`. -/
theorem encode_cut (casts : Casts) (garbage : Nat → BitVec 32) (pseq : Byte)
    (hc : e.slotsCnt ≤ slotsSize) (he : e.enforcedUpd < slotsSize) (hnm : n ≤ w.size)
    (hw : w.pos+(3+1+5*e.slotsCnt) ≤ w.size) (ts : BitVec 64) :
    ∃ s stop, e.encode casts garbage w pseq ts = some s ∧ stop ≤ e.slotsCnt ∧
      (∀ i < stop, (e.slots i).field.fmt ≠ Fmt.bit.code) ∧
      (stop < e.slotsCnt → (e.slots stop).field.fmt = Fmt.bit.code) ∧
      s.stream.pos ≤ w.size ∧ (s.stream.pos ≤ n →
        (w.pos+(3+1)+room (valueOf casts garbage pseq e.marked) ((e.slotsCnt-stop+7)/8) e.slotsCnt
            (passing (fun i => (e.marked i).field) pseq 0 stop) ≤ n →
          e.encode casts garbage (w.cut n) pseq ts = some (cutState n s)) ∧
        (¬ w.pos+(3+1)+room (valueOf casts garbage pseq e.marked) ((e.slotsCnt-stop+7)/8)
            e.slotsCnt (passing (fun i => (e.marked i).field) pseq 0 stop) ≤ n →
          ∀ a, e.encode casts garbage (w.cut n) pseq ts = some a →
            a.stream.out ≠ s.stream.out)) := by
  obtain ⟨k,hk⟩ := enforceUpdate_total he
  have hcnt : ({e with slots := e.marked, enforcedUpd := k} : TelemetryEncoder).slotsCnt =
      e.slotsCnt := rfl
  have hslots : ({e with slots := e.marked, enforcedUpd := k} : TelemetryEncoder).slots =
      e.marked := rfl
  generalize ({e with slots := e.marked, enforcedUpd := k} : TelemetryEncoder) = e1
    at hk hcnt hslots
  obtain ⟨hzeros,hs,hp',hpre,hp1⟩ := inZeros_start (valueOf casts garbage pseq e.marked)
    (hdrOf e pseq ts) (show w.pos+(3+1) ≤ w.size by omega) e1
  have hstart : Spot (valueOf casts garbage pseq e.marked) (w.out ++ (hdrOf e pseq ts).bytes)
      w.size [] [] [] (startState e1 ((hdrOf e pseq ts).write w)) :=
    Or.inr ⟨hzeros,List.forall_mem_nil _⟩
  have hp0 : (startState e1 ((hdrOf e pseq ts).write w)).stream.pos = w.pos+4 := hp1
  have hd0 : (startState e1 ((hdrOf e pseq ts).write w)).posData = w.pos+4 := hp1
  obtain ⟨s1,stop,done,cur,wd,hs1,hsp,heq,hpos,hle,hthen⟩ := valueLoop_cut e1.slotsCnt 0 hstart
    (fun i _ => congrFun hslots i) List.Pairwise.nil (List.forall_mem_nil _) (by omega) (by omega)
      hnm
  rw [hpre,← hp'] at hs1
  obtain ⟨-,hstop,hno,hbit,henc,-⟩ := valueLoop_spec hs1
  obtain ⟨wd2,hwire,hh,hle2⟩ := hsp.written.finish
  have hve : (valuesEnd s1).stream = ⟨s1.stream.buf,s1.posData⟩ := hsp.shape.valuesEnd_pos
  have hbits : Bits w.size _ [] (valuesEnd s1) := Bits.start hh
  have hvp : (valuesEnd s1).stream.pos = s1.posData := by rw [hve]
  have hdle := hsp.shape.posData_le
  obtain ⟨s,hs2,hb,hmono,hcut⟩ := bitLoop_cut (e1.slotsCnt-stop) stop hbits (by omega)
    (by omega) hnm
  have hend : s.stream.pos = s1.posData+(e.slotsCnt-stop+7)/8 := by
    have hhp : s1.posData = _ := hvp.symm.trans hh.pos
    rw [hb.holds.pos,List.length_append,packBits_length,← hhp,List.nil_append,List.length_map,
      List.length_range',hcnt]
  have hfield : ∀ i, (e1.slots i).field = (e.slots i).field := fun i => by rw [hslots,marked_field]
  refine ⟨s,stop,?_,by omega,fun i hi => ?_,fun hlt => ?_,hb.holds.le,fun hfits => ?_⟩
  · rw [encode_eq hk,hs1]
    exact hs2
  · rw [← hfield]
    exact hno i (Nat.zero_le i) hi
  · rw [← hfield]
    exact hbit (by omega)
  · have hsync := (hthen (by omega)).sync
    have hneeds := needs_start (valueOf casts garbage pseq e.marked) hpre ((e.slotsCnt-stop+7)/8) n
      (show stop ≤ e.slotsCnt by omega) (fun i => (e.marked i).field) pseq
    rw [encode_cut_eq hk hnm (by omega),← hpre]
    rcases hsync _ _ hneeds with ⟨hn1,hcut1⟩ | ⟨hC,hbr⟩
    · have hC := (hsp.needs_iff hn1).mpr (by omega)
      refine ⟨fun _ => ?_,fun hC' => absurd hC hC'⟩
      rw [hcut1,Option.bind_some]
      dsimp only
      rw [valuesEnd_cut (hsp.shape.size ▸ hnm) (by omega)]
      exact hcut hfits
    · refine ⟨fun hC' => absurd hC' hC,fun _ a ha => ?_⟩
      obtain ⟨⟨a1,stop'⟩,ha1,ha⟩ := Option.bind_eq_some_iff.mp ha
      obtain ⟨rfl,hbroken⟩ := hbr _ ha1
      refine ((hbroken.astray hsp.shape).bitLoop ?_ hs2 ha).out_ne
      rw [hvp,hbits.holds.size]
      dsimp only at hstop hpos ⊢
      omega

end Encode

section
variable {dict : Dictionary} {casts : Casts} {garbage : Nat → BitVec 32} {pseq : Byte}
  {e : TelemetryEncoder} {w : Writer}

def encodeRet (casts : Casts) (garbage : Nat → BitVec 32) (e : TelemetryEncoder) (stream : Writer)
    (pseq : Byte) (timestampMs : BitVec 64) : Option (EncodeState × Bool) :=
  (e.encode casts garbage stream pseq timestampMs).map fun s => (s,true)

def frameOf (casts : Casts) (garbage : Nat → BitVec 32) (e : TelemetryEncoder) (pseq : Byte)
    (ts : BitVec 64) : List Byte :=
  ((e.encode casts garbage ⟨List.replicate (3+1+5*e.slotsCnt) 0#8,0⟩ pseq ts).map fun s =>
    s.stream.out).getD []

/-- The bytes that a frame takes while it is written: its length, or more where zero codes are
written that an offset replaces. -/
def frameRoom (casts : Casts) (garbage : Nat → BitVec 32) (e : TelemetryEncoder) (pseq : Byte) :
    Nat :=
  3+1+room (valueOf casts garbage pseq e.marked) ((e.slotsCnt-e.slotsUpdCnt+7)/8) e.slotsCnt
    (passing (fun i => (e.slots i).field) pseq 0 e.slotsUpdCnt)

/-- A call writes nothing outside of the buffer. It returns `true` only if the frame is whole, and
if it is not, `false`, with the flag of each slot whose new value is not written completely. -/
def Accounted (complete : EncodeState → Nat → Prop) (casts : Casts) (garbage : Nat → BitVec 32)
    (pseq : Byte) (ts : BitVec 64) (e : TelemetryEncoder) (w : Writer) : Prop :=
  ∃ s ret, e.encodeRet casts garbage w pseq ts = some (s,ret) ∧
    (ret = true → s.stream.out = w.out ++ e.frameOf casts garbage pseq ts) ∧
    (s.stream.out ≠ w.out ++ e.frameOf casts garbage pseq ts → ret = false ∧
      ∀ i < e.slotsCnt, Sends casts (garbage i) pseq (e.marked i) → ¬ complete s i →
        (s.enc.slots i).flags.upd = true)

theorem accounted_iff {complete : EncodeState → Nat → Prop} {ts : BitVec 64} :
    Accounted complete casts garbage pseq ts e w ↔
      ∃ s, e.encode casts garbage w pseq ts = some s ∧
        s.stream.out = w.out ++ e.frameOf casts garbage pseq ts := by
  constructor
  · rintro ⟨s,ret,hs,htrue,-⟩
    obtain ⟨s1,hs1,heq⟩ := Option.map_eq_some_iff.mp hs
    cases heq
    exact ⟨s,hs1,htrue rfl⟩
  · rintro ⟨s,hs,hout⟩
    refine ⟨s,true,?_,fun _ => hout,fun hne => absurd hout hne⟩
    rw [encodeRet,hs]
    rfl

def padded (w : Writer) (k : Nat) : Writer := ⟨w.buf ++ List.replicate k 0#8,w.pos⟩

theorem padded_cut (hw : w.pos ≤ w.size) (k : Nat) : (padded w k).cut w.size = w := by
  unfold padded Writer.cut
  dsimp only
  rw [Nat.min_eq_right hw,Writer.size,List.take_left]

theorem padded_size (w : Writer) (k : Nat) : (padded w k).size = w.size+k := by
  rw [padded,Writer.size,List.length_append,List.length_replicate]
  rfl

theorem padded_out (hw : w.pos ≤ w.size) (k : Nat) : (padded w k).out = w.out :=
  List.take_append_of_le_length hw

theorem Inv.stop_eq (hi : Inv dict e) {stop : Nat} (hle : stop ≤ e.slotsCnt)
    (hno : ∀ i < stop, (e.slots i).field.fmt ≠ Fmt.bit.code)
    (hbit : stop < e.slotsCnt → (e.slots stop).field.fmt = Fmt.bit.code) :
    stop = e.slotsUpdCnt := by
  have hle' := hi.upd_le
  refine @stop_unique (fun i => (e.slots i).field) e.slotsCnt _ _ hle' hle
    (fun i hiu => (hi.upd i (by omega)).mp hiu) (fun hlt => ?_) hno hbit
  by_contra hne
  exact Nat.lt_irrefl _ ((hi.upd _ hlt).mpr hne)

theorem Inv.frame_out (hi : Inv dict e) (he : e.enforcedUpd < slotsSize)
    (hw : w.pos+(3+1+5*e.slotsCnt) ≤ w.size) {ts : BitVec 64}
    (hs : e.encode casts garbage w pseq ts = some s) :
    s.stream.out = w.out ++ e.frameOf casts garbage pseq ts ∧
      (e.frameOf casts garbage pseq ts).length ≤ e.frameRoom casts garbage pseq := by
  have hroom : (⟨List.replicate (3+1+5*e.slotsCnt) 0#8,0⟩ : Writer).pos+(3+1+5*e.slotsCnt) ≤
      (⟨List.replicate (3+1+5*e.slotsCnt) 0#8,0⟩ : Writer).size := by
    rw [Writer.size,List.length_replicate,Nat.zero_add]
  obtain ⟨s0,stop,wd,hdr,hs0,hstop,hno,hbit,hts,hfeed,hwire,hout,-⟩ :=
    encode_frame casts garbage pseq hi.cnt_le he hroom ts
  obtain ⟨s1,stop1,wd1,hdr1,hs1,hstop1,hno1,hbit1,hts1,hfeed1,hwire1,hout1,-⟩ :=
    encode_frame casts garbage pseq hi.cnt_le he hw ts
  obtain rfl := Option.some.inj (hs.symm.trans hs1)
  obtain rfl := hi.stop_eq hstop hno hbit
  obtain rfl := hi.stop_eq hstop1 hno1 hbit1
  obtain rfl := hwire.unique hwire1
  rw [Hdr.eq_of_fields (hts1.trans hts.symm) (hfeed1.trans hfeed.symm)] at hout1
  have hframe : e.frameOf casts garbage pseq ts = s0.stream.out := by
    rw [frameOf,hs0]
    rfl
  have hempty : (⟨List.replicate (3+1+5*e.slotsCnt) 0#8,0⟩ : Writer).out = [] := rfl
  rw [hframe,hout,hout1,hempty,List.nil_append,List.append_assoc]
  refine ⟨rfl,?_⟩
  have hlen : (passing (fun i => (e.slots i).field) pseq 0 e.slotsUpdCnt).length ≤ e.slotsCnt :=
    passing_length_le.trans hi.upd_le
  have hbits := e.bitValues_length hi.upd_le
  rw [marked_fields] at hwire ⊢
  have hwd : wd1.length+(e.slotsCnt-e.slotsUpdCnt+7)/8 ≤ _ := hwire.length_le_room hlen
  have hhdr : hdr.bytes.length = 3 := rfl
  rw [frameRoom]
  simp only [List.length_append,List.length_cons,packBits_length,hhdr]
  omega

/-- In each state that a run reaches, and for every writer: a frame is accounted for exactly when
there is room for it while it is written. -/
theorem accounted_iff_room {complete : EncodeState → Nat → Prop} {ops : List Op}
    (hr : run dict casts init ops = some e) (hw : w.pos ≤ w.size) (ts : BitVec 64) :
    Accounted complete casts garbage pseq ts e w ↔
      w.pos+e.frameRoom casts garbage pseq ≤ w.size := by
  have hi := (clear_inv dict _).run hr
  have he := (clear_inv dict _).run_enforced (by decide) hr
  rw [accounted_iff]
  have hsize := padded_size w (3+1+5*e.slotsCnt)
  have hcut := padded_cut hw (3+1+5*e.slotsCnt)
  obtain ⟨s,stop,hs,hstop,hno,hbit,hpos,hthen⟩ := @encode_cut w.size e
    (padded w (3+1+5*e.slotsCnt)) casts garbage pseq hi.cnt_le he (by omega)
    (by rw [hsize]; change w.pos+_ ≤ _; omega) ts
  obtain rfl := hi.stop_eq hstop hno hbit
  obtain ⟨hout,hlen⟩ := hi.frame_out he (by rw [hsize]; change w.pos+_ ≤ _; omega) hs
  rw [padded_out hw] at hout
  have hbig : s.stream.Within (padded w (3+1+5*e.slotsCnt)).size :=
    encode_within ⟨rfl,by rw [hsize]; exact hw.trans (Nat.le_add_right _ _)⟩ hs
  have hslen := congrArg List.length hout
  rw [Writer.length_out (hbig.le.trans hbig.size.ge),List.length_append,
    Writer.length_out hw] at hslen
  have hwpos : (padded w (3+1+5*e.slotsCnt)).pos = w.pos := rfl
  rw [hcut,marked_fields,hwpos,Nat.add_assoc] at hthen
  change _ → ((w.pos+e.frameRoom casts garbage pseq ≤ w.size → _) ∧
    (¬ w.pos+e.frameRoom casts garbage pseq ≤ w.size → _)) at hthen
  constructor
  · rintro ⟨a,ha,haout⟩
    by_contra hC
    have hwithin := encode_within (⟨rfl,hw⟩ : w.Within w.size) ha
    have halen := congrArg List.length haout
    rw [Writer.length_out (hwithin.le.trans hwithin.size.ge),List.length_append,
      Writer.length_out hw] at halen
    have hle := hwithin.le
    exact (hthen (by omega)).2 hC a ha (haout.trans hout.symm)
  · intro hC
    have hfits : s.stream.pos ≤ w.size := by omega
    refine ⟨_,(hthen hfits).1 hC,?_⟩
    exact (Writer.cut_out hfits).trans hout

theorem accounted_iff_room_one : ∃ e, run byteDict noCasts init oneByte = some e ∧
    Accounted (fun _ _ => False) noCasts (fun _ => 0#32) 0#8 0#64 e ⟨List.replicate 6 0#8,0⟩ := by
  have hmap : (run byteDict noCasts init oneByte).map (fun e =>
      e.frameRoom noCasts (fun _ => 0#32) 0#8) = some 6 := by decide +kernel
  obtain ⟨e,hr,hroom⟩ := Option.map_eq_some_iff.mp hmap
  refine ⟨e,hr,(accounted_iff_room hr (Nat.zero_le _) 0#64).mpr ?_⟩
  rw [hroom]
  decide

/-- Without room for its byte the value is taken for sent: the flag is cleared and the count tells
of a value that is not there. Without room for its code, the bit is set behind the buffer. -/
theorem short_frame_true : ∃ e s, run byteDict noCasts init oneByte = some e ∧
    e.encodeRet noCasts (fun _ => 0#32) ⟨List.replicate 5 0#8,0⟩ 0#8 0#64 = some (s,true) ∧
    s.stream.out ≠ e.frameOf noCasts (fun _ => 0#32) 0#8 0#64 ∧
    s.sent = [(0,17#32)] ∧ (s.enc.slots 0).flags.upd = false ∧
    e.encodeRet noCasts (fun _ => 0#32) ⟨List.replicate 4 0#8,0⟩ 0#8 0#64 = none ∧
    ∀ complete, ¬ Accounted complete noCasts (fun _ => 0#32) 0#8 0#64 e ⟨List.replicate 5 0#8,0⟩ ∧
      ¬ Accounted complete noCasts (fun _ => 0#32) 0#8 0#64 e ⟨List.replicate 4 0#8,0⟩ := by
  have hmap : (run byteDict noCasts init oneByte).bind (fun e =>
      (e.encodeRet noCasts (fun _ => 0#32) ⟨List.replicate 5 0#8,0⟩ 0#8 0#64).map fun r =>
        ((r.2,r.1.stream.out.length,(e.frameOf noCasts (fun _ => 0#32) 0#8 0#64).length),r.1.sent,
          (r.1.enc.slots 0).flags.upd,
          (e.encodeRet noCasts (fun _ => 0#32) ⟨List.replicate 4 0#8,0⟩ 0#8 0#64).isSome)) =
      some ((true,5,6),[(0,17#32)],false,false) := by decide +kernel
  obtain ⟨e,hr,hmap⟩ := Option.bind_eq_some_iff.mp hmap
  obtain ⟨⟨s,ret⟩,hs,hv⟩ := Option.map_eq_some_iff.mp hmap
  simp only [Prod.mk.injEq,Option.isSome_eq_false_iff,Option.isNone_iff_eq_none] at hv
  obtain ⟨⟨rfl,hlen,hframe⟩,hsent,hupd,hnone⟩ := hv
  have hne : s.stream.out ≠ e.frameOf noCasts (fun _ => 0#32) 0#8 0#64 := by
    intro heq
    rw [heq,hframe] at hlen
    cases hlen
  refine ⟨e,s,hr,hs,hne,hsent,hupd,hnone,fun complete => ⟨?_,?_⟩⟩
  · rintro ⟨s1,ret,hs1,htrue,-⟩
    rw [hs,Option.some.injEq,Prod.mk.injEq] at hs1
    obtain ⟨rfl,rfl⟩ := hs1
    exact hne (htrue rfl)
  · rintro ⟨s1,ret,hs1,-⟩
    rw [hnone] at hs1
    cases hs1

end

end TelemetryEncoder

end ApxBus.Telemetry
