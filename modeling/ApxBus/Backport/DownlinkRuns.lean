import ApxBus.Backport.DownlinkTransfer
import Mathlib.Logic.Relation
set_option autoImplicit false

/-!
The downlink stream between a vehicle and a station: what the station holds while frame after
frame arrives.
-/

namespace ApxBus.Backport
open MaskGroups DeltaFeed

/-- `pack_downstream` runs in the vehicle and `unpack_downstream` in the station. -/
structure Link where
  vehicle : Mandala
  station : Mandala

namespace Link
variable (casts : BitVec 32 → Byte)

/-- A frame that arrives. Behind it the buffer of the station holds what it may. -/
def deliver (s : Link) (maxSize : Nat) (timestamp : BitVec 32) (after : List Byte) : Link :=
  let (buf,v) := s.vehicle.packDownstream casts maxSize timestamp
  ⟨v,(s.station.unpackDownstream (buf.take v.size ++ after) v.size).2⟩

/-- Between the frames the vehicle sets its variables and may ask for all of them to be sent; the
station sets those that are not in the stream. -/
inductive Step (s : Link) : Link → Prop where
  | set (cells : List Cell) (h : cells.length = s.vehicle.cells.length) (reset : Bool) :
      Step s {s with vehicle :=
        {s.vehicle with cells := cells, reset := s.vehicle.reset || reset}}
  | own (cells : List Cell) (h : cells.length = s.station.cells.length)
      (hs : cells.take streamVars.length = s.station.cells.take streamVars.length) :
      Step s {s with station := {s.station with cells := cells}}
  | frame (maxSize : Nat) (timestamp : BitVec 32) (after : List Byte) :
      Step s (s.deliver casts maxSize timestamp after)

/-- Both after `init`, and the vehicle's clock and period set. -/
def started (dlTimestamp dlPeriod : BitVec 32) : Link :=
  let m := Mandala.init ⟨[],false,List.replicate 1024 0#8,List.replicate 16 0#8,0#32,0#32,0#32,0#16,
    0#16,false,0,false⟩
  ⟨{m with cells := setWord (setWord m.cells idxDlTimestamp dlTimestamp) idxDlPeriod dlPeriod},m⟩

structure Kept (s : Link) : Prop where
  vehicle : s.vehicle.Sized
  station : s.station.cells.length = vars.length
  synced : ∀ hd, (s.vehicle.feed hd).Synced streamVars.length (decode hd) s.station.stream

variable {casts}

theorem kept_start {s : Link} (hv : s.vehicle.Sized) (hs : s.station.cells.length = vars.length)
    (hr : s.vehicle.reset = true) : s.Kept :=
  ⟨hv,hs,fun _ _ _ hd => absurd (Or.inl hr) hd⟩

variable {s t : Link}

theorem deliver_station {maxSize j : Nat} {us : List (Option (List Byte))} {sent : List Byte}
    (hf : s.vehicle.Frame casts maxSize j us sent) (timestamp : BitVec 32) (after : List Byte) :
    (s.deliver casts maxSize timestamp after).station =
      (s.station.unpackDownstream (Mandala.header (s.vehicle.word idxDlTimestamp) s.vehicle.isHd ++
        sent ++ after) (sent.length+2)).2 := by
  obtain ⟨n,-,hw⟩ := hf.written timestamp
  have htake : (s.vehicle.packDownstream casts maxSize timestamp).1.take (sent.length+2) =
      Mandala.header (s.vehicle.word idxDlTimestamp) s.vehicle.isHd ++ sent := by
    rw [hw]
    refine List.take_left' ?_
    rw [List.length_append,Nat.add_comm]
    rfl
  rw [deliver]
  dsimp only
  rw [hf.size,htake]

theorem deliver_spec (h : s.Kept) (maxSize : Nat) (timestamp : BitVec 32) (after : List Byte) :
    ∃ j us sent, s.vehicle.Frame casts maxSize j us sent ∧
      (s.vehicle.feed s.vehicle.isHd).Step streamVars.length
        (s.vehicle.packed casts s.vehicle.isHd) j
        ({(s.deliver casts maxSize timestamp after).vehicle with reset := false}.feed
          s.vehicle.isHd) ∧
      (s.vehicle.feed s.vehicle.isHd).Heard (s.vehicle.packed casts s.vehicle.isHd)
        (decode s.vehicle.isHd) j s.station.stream
        (s.deliver casts maxSize timestamp after).station.stream := by
  obtain ⟨j,us,sent,hf,hstep⟩ := @Mandala.packDownstream_frame casts _ h.vehicle maxSize
  refine ⟨j,us,sent,hf,hstep timestamp,?_⟩
  rw [deliver_station hf]
  exact (hf.heard h.vehicle h.station after).2

theorem deliver_hd (s : Link) (maxSize : Nat) (timestamp : BitVec 32) (after : List Byte) :
    (s.deliver casts maxSize timestamp after).vehicle.hdSave = s.vehicle.isHd := by
  rw [deliver,Mandala.packDownstream_eq]

theorem deliver_synced (h : s.Kept) (maxSize : Nat) (timestamp : BitVec 32) (after : List Byte)
    (hd : Bool) : ((s.deliver casts maxSize timestamp after).vehicle.feed hd).Synced
      streamVars.length (decode hd) (s.deliver casts maxSize timestamp after).station.stream := by
  by_cases hs : hd = s.vehicle.isHd
  · obtain ⟨j,us,sent,-,hstep,hheard⟩ := @deliver_spec casts s h maxSize timestamp after
    rw [hs]
    refine ((h.synced s.vehicle.isHd).step hstep hheard).mono (fun _ => rfl) fun i hi => ?_
    rcases hi with hi | hi
    · exact absurd hi Bool.false_ne_true
    · exact Or.inr hi
  · intro i _ hi
    exact absurd (Or.inr (Or.inl (by rw [deliver_hd]; exact Ne.symm hs))) hi

theorem Kept.step (h : s.Kept) (hs : Step casts s t) : t.Kept := by
  cases hs with
  | set cells hl reset =>
    refine ⟨⟨hl.trans h.vehicle.cells,h.vehicle.resetMask⟩,h.station,fun hd => ?_⟩
    refine (h.synced hd).mono (fun _ => rfl) fun i hi => ?_
    rcases hi with hi | hi
    · exact Or.inl (by simp [hi])
    · exact Or.inr hi
  | own cells hl hs =>
    refine ⟨h.vehicle,hl.trans h.station,fun hd i hi hn => ?_⟩
    have hsync := h.synced hd i hi hn
    rw [Mandala.stream] at hsync ⊢
    rw [hs]
    exact hsync
  | frame maxSize timestamp after =>
    refine ⟨h.vehicle.pack maxSize timestamp,?_,deliver_synced h maxSize timestamp after⟩
    rw [deliver]
    dsimp only
    rw [Mandala.unpackDownstream_length]
    exact h.station

theorem Kept.run (h : s.Kept) (hr : Relation.ReflTransGen (Step casts) s t) : t.Kept := by
  induction hr with
  | refl => exact h
  | tail _ hs ih => exact ih.step hs

theorem packed_pack {d : Mandala} {hd : Bool} {i : Nat} {m : MVar} {v : Cell}
    (hm : streamVars[i]? = some m) (hv : d.cells[i]? = some v) :
    d.packed casts hd i = (m.pack casts hd v).1 := by
  have hz : (streamVars.zip d.cells)[i]? = some (m,v) := List.getElem?_zip_eq_some.mpr ⟨hm,hv⟩
  rw [Mandala.packed,news,List.getD_eq_getElem?_getD,List.getElem?_map,hz]
  rfl

/-- After any frame of any run from a reset on: the station has the values that the vehicle had
packed, in every variable of the stream up to the one for which the frame had no room. -/
theorem downlink_current {s t : Link} (hv : s.vehicle.Sized)
    (hs : s.station.cells.length = vars.length) (hreset : s.vehicle.reset = true)
    (hr : Relation.ReflTransGen (Step casts) s t) (maxSize : Nat) (timestamp : BitVec 32)
    (after : List Byte) :
    ∃ j, j ≤ streamVars.length ∧
      (∀ i m v, i < j → streamVars[i]? = some m → t.vehicle.cells[i]? = some v →
        (t.deliver casts maxSize timestamp after).station.cells[i]? =
          some (m.unpack t.vehicle.isHd (m.pack casts t.vehicle.isHd v).1)) ∧
      ∀ m, streamVars[j]? = some m →
        maxSize ≤ (t.vehicle.packDownstream casts maxSize timestamp).1.length+
          m.size t.vehicle.isHd := by
  have hk := (kept_start hv hs hreset).run hr
  obtain ⟨j,us,sent,hf,hstep,hheard⟩ := @deliver_spec casts t hk maxSize timestamp after
  refine ⟨j,hf.le,fun i m v hi hm hv => ?_,fun m hm => ?_⟩
  · have hc := (hk.synced t.vehicle.isHd).current hstep hheard hi
    rw [Mandala.stream,List.getElem?_take_of_lt (Nat.lt_of_lt_of_le hi hf.le),decode,hm,
      packed_pack hm hv] at hc
    exact hc
  · have hj : j < streamVars.length := (List.getElem?_eq_some_iff.mp hm).1
    have hst := hf.stop hj timestamp
    rw [Mandala.packed_length hk.vehicle hj,hm] at hst
    exact hst

theorem started_sized (dlTimestamp dlPeriod : BitVec 32) :
    (started dlTimestamp dlPeriod).vehicle.Sized ∧
      (started dlTimestamp dlPeriod).station.cells.length = vars.length :=
  ⟨⟨rfl,rfl⟩,rfl⟩

def put (s : Link) (idx : Nat) (v : Cell) : Link :=
  {s with vehicle :=
    {s.vehicle with cells := s.vehicle.cells.set idx v, reset := s.vehicle.reset || false}}

theorem step_put (s : Link) (idx : Nat) (v : Cell) : Step casts s (s.put idx v) :=
  .set _ List.length_set false

def primed : Link := (started 1#32 10000#32).put 0 ⟨0x3F800000#32,0x3F800000#32,0#32⟩

def driven : Link :=
  (primed.deliver (fun _ => 0#8) 64 7#32 [1#8]).put 0 ⟨0x40000000#32,0x3F800000#32,0#32⟩

theorem driven_run : Relation.ReflTransGen (Step fun _ => 0#8) (started 1#32 10000#32) driven :=
  ((Relation.ReflTransGen.single (step_put _ _ _)).tail (.frame 64 7#32 [1#8])).tail
    (step_put _ _ _)

theorem downlink_current_driven :
    ∃ j, j ≤ streamVars.length ∧
      (∀ i m v, i < j → streamVars[i]? = some m → driven.vehicle.cells[i]? = some v →
        (driven.deliver (fun _ => 0#8) 64 8#32 [2#8]).station.cells[i]? =
          some (m.unpack driven.vehicle.isHd
            (m.pack (fun _ => 0#8) driven.vehicle.isHd v).1)) ∧
      ∀ m, streamVars[j]? = some m →
        64 ≤ (driven.vehicle.packDownstream (fun _ => 0#8) 64 8#32).1.length+
          m.size driven.vehicle.isHd := by
  obtain ⟨hv,hs⟩ := started_sized 1#32 10000#32
  exact downlink_current hv hs rfl driven_run 64 8#32 [2#8]

section Quiet

variable (casts) in
def Settled (d : Mandala) : Prop :=
  ∀ x ∈ streamVars.zip d.cells, (x.1.pack casts d.isHd x.2).2 = x.2

/-- Frames that arrive one after another, while nothing is set. None of them is one after which
everything is sent again. -/
inductive Frames (casts : BitVec 32 → Byte) : Nat → Link → Link → Prop where
  | none (s : Link) : Frames casts 0 s s
  | frame {n : Nat} {s t : Link} (h : Frames casts n s t) (maxSize : Nat)
      (timestamp : BitVec 32) (after : List Byte) (hmax : 27 < maxSize)
      (hp : t.vehicle.word idxDlTimestamp % 10000#32 ≠ 0#32) :
      Frames casts (n+1) s (t.deliver casts maxSize timestamp after)

theorem packVars_settled (hd : Bool) (maxSize : Nat) (l : List (MVar × Cell)) (p : Packing)
    (h : ∀ x ∈ l, (x.1.pack casts hd x.2).2 = x.2) :
    (packVars casts hd maxSize l p).1 = l.map Prod.snd := by
  induction l generalizing p with
  | nil => rfl
  | cons x l ih =>
    obtain ⟨m,v⟩ := x
    have hv : (m.pack casts hd v).2 = v := h (m,v) (by simp)
    have hl := fun p => ih p fun x hx => h x (by simp [hx])
    obtain ⟨-,-,h⟩ | ⟨-,-,h⟩ | ⟨-,h⟩ := @packVars_cases casts hd maxSize m v l p
    · simp [h,hv]
    · simp [h,hv,hl]
    · simp [h,hv,hl]

theorem zip_take {α β : Type} (l : List α) (m : List β) : l.zip (m.take l.length) = l.zip m := by
  induction l generalizing m with
  | nil => rfl
  | cons a l ih =>
    cases m with
    | nil => rfl
    | cons b m => rw [List.length_cons,List.take_succ_cons,List.zip_cons_cons,ih,List.zip_cons_cons]

theorem word_take {d d' : Mandala}
    (h : d'.cells.take streamVars.length = d.cells.take streamVars.length) {idx : Nat}
    (hi : idx < streamVars.length) : d'.word idx = d.word idx := by
  have hg := congrArg (·[idx]?) h
  simp only [List.getElem?_take_of_lt hi] at hg
  rw [Mandala.word,Mandala.word,List.getD_eq_getElem?_getD,List.getD_eq_getElem?_getD,hg]

theorem packed_take {d d' : Mandala}
    (h : d'.cells.take streamVars.length = d.cells.take streamVars.length) :
    d'.isHd = d.isHd ∧ streamVars.zip d'.cells = streamVars.zip d.cells := by
  refine ⟨?_,?_⟩
  · have hs : streamVars.length = 121 := rfl
    have hi : idxCmode < streamVars.length := by
      rw [hs]
      decide
    rw [Mandala.isHd,Mandala.isHd,word_take h hi]
  · rw [← zip_take,h,zip_take]

theorem deliver_cells {s : Link} (hv : s.vehicle.Sized) (h : Settled casts s.vehicle)
    (maxSize : Nat) (timestamp : BitVec 32) (after : List Byte) :
    (s.deliver casts maxSize timestamp after).vehicle.cells.take streamVars.length =
      s.vehicle.cells.take streamVars.length := by
  have hle := hv.stream_le
  have hcells : (s.vehicle.final casts maxSize).1 = s.vehicle.cells.take streamVars.length := by
    rw [Mandala.final,packVars_settled _ _ _ _ h,← zip_take]
    exact List.map_snd_zip (List.length_take_le _ _)
  rw [deliver,Mandala.packDownstream_eq]
  dsimp only
  rw [hcells,List.take_append_drop,setWord,List.take_set_of_le]
  decide

theorem deliver_reset {s : Link} (hp : s.vehicle.word idxDlTimestamp % 10000#32 ≠ 0#32)
    (maxSize : Nat) (timestamp : BitVec 32) (after : List Byte) :
    (s.deliver casts maxSize timestamp after).vehicle.reset = false := by
  rw [deliver,Mandala.packDownstream_eq]
  exact decide_eq_false hp

theorem frame_sends {d : Mandala} (h : d.Sized) {maxSize j : Nat}
    {us : List (Option (List Byte))} {sent : List Byte} (hf : d.Frame casts maxSize j us sent)
    (hmax : 27 < maxSize) (hj : j < streamVars.length) :
    ∃ i, i < j ∧ (d.feed d.isHd).Wanted (d.packed casts d.isHd) i := by
  by_contra hno
  have hnone : dataOf us = [] := by
    refine List.flatMap_eq_nil_iff.mpr fun u hu => ?_
    obtain ⟨i,hi⟩ := List.getElem?_of_mem hu
    cases u with
    | none => rfl
    | some b =>
      obtain ⟨h1,h2,-⟩ := (hf.items i b).mp hi
      exact absurd ⟨i,h1,h2⟩ hno
  have hroom : ∀ i, i < streamVars.length → ∀ hd,
      3+i/8+((streamVars[i]?.map (·.size hd)).getD 0) ≤ 27 := by decide
  have h1 := hf.total 0#32
  have h2 := hf.stop hj 0#32
  have h3 := hroom j hj d.isHd
  rw [hnone,List.length_nil] at h1
  rw [Mandala.packed_length h hj] at h2
  omega

structure Calm (casts : BitVec 32 → Byte) (n : Nat) (s t : Link) : Prop where
  cells : t.vehicle.cells.take streamVars.length = s.vehicle.cells.take streamVars.length
  kept : t.Kept
  clear : (t.vehicle.feed t.vehicle.isHd).Clear (t.vehicle.packed casts t.vehicle.isHd)
    (min n streamVars.length)

theorem settled_take {d d' : Mandala} (h : Settled casts d)
    (ht : d'.cells.take streamVars.length = d.cells.take streamVars.length) :
    Settled casts d' := by
  obtain ⟨hhd,hz⟩ := packed_take ht
  unfold Settled
  rw [hz,hhd]
  exact h

theorem Frames.calm {n : Nat} {s t : Link} (h : Frames casts n s t) (hk : s.Kept)
    (hset : Settled casts s.vehicle) : Calm casts n s t := by
  induction h with
  | none s => exact ⟨rfl,hk,fun i hi => by simp at hi⟩
  | @frame n s t h maxSize timestamp after hmax hp ih =>
    obtain ⟨hcells,hkt,hclear⟩ := ih hk hset
    have hst := settled_take hset hcells
    have hnext := deliver_cells hkt.vehicle hst maxSize timestamp after
    obtain ⟨hhd,hz⟩ := packed_take hnext
    obtain ⟨j,us,sent,hf,hstep,-⟩ := @deliver_spec casts t hkt maxSize timestamp after
    refine ⟨hnext.trans hcells,hkt.step (.frame maxSize timestamp after),?_⟩
    have hc := hclear.step hstep (frame_sends hkt.vehicle hf hmax)
    have hpacked : (t.deliver casts maxSize timestamp after).vehicle.packed casts
        t.vehicle.isHd = t.vehicle.packed casts t.vehicle.isHd := by
      funext i
      rw [Mandala.packed,hz]
      rfl
    have hfeed : ({(t.deliver casts maxSize timestamp after).vehicle with reset := false}).feed
        t.vehicle.isHd = (t.deliver casts maxSize timestamp after).vehicle.feed t.vehicle.isHd := by
      rw [Mandala.feed,Mandala.feed,deliver_reset hp]
    rw [hhd,hpacked,← hfeed]
    rw [show min (n+1) streamVars.length =
      min (min n streamVars.length+1) streamVars.length by omega]
    exact hc

/-- While the vehicle sets nothing, the station gets to have all its variables: each frame brings
one at least, whatever the sizes of the frames. -/
theorem downlink_complete {s t u : Link} (hv : s.vehicle.Sized)
    (hs : s.station.cells.length = vars.length) (hreset : s.vehicle.reset = true)
    (hr : Relation.ReflTransGen (Step casts) s t) (hset : Settled casts t.vehicle) {n : Nat}
    (hn : streamVars.length ≤ n) (hq : Frames casts n t u) {i : Nat} {m : MVar} {v : Cell}
    (hm : streamVars[i]? = some m) (hi : t.vehicle.cells[i]? = some v) :
    u.vehicle.cells[i]? = some v ∧
      u.station.cells[i]? = some (m.unpack t.vehicle.isHd (m.pack casts t.vehicle.isHd v).1) := by
  obtain ⟨hcells,hku,hclear⟩ := hq.calm ((kept_start hv hs hreset).run hr) hset
  obtain ⟨hhd,-⟩ := packed_take hcells
  have hlt : i < streamVars.length := (List.getElem?_eq_some_iff.mp hm).1
  have hvu : u.vehicle.cells[i]? = some v := by
    have hg := congrArg (·[i]?) hcells
    simp only [List.getElem?_take_of_lt hlt] at hg
    rw [hg,hi]
  refine ⟨hvu,?_⟩
  have hw := hclear i (by omega)
  rw [Sender.Wanted,not_or,not_ne_iff] at hw
  have hc := hku.synced _ i hlt hw.1
  rw [← hw.2,Mandala.stream,List.getElem?_take_of_lt hlt,decode,hm,packed_pack hm hvu,hhd] at hc
  exact hc

theorem frames_exist (casts : BitVec 32 → Byte) {s : Link} (hv : s.vehicle.Sized) {k : Nat}
    (hT : s.vehicle.word idxDlTimestamp = BitVec.ofNat 32 (1+10000*k))
    (hP : s.vehicle.word idxDlPeriod = 10000#32) (n : Nat) (hn : k+n ≤ 400000) :
    ∃ u, Frames casts n s u ∧ u.vehicle.Sized ∧
      u.vehicle.word idxDlTimestamp = BitVec.ofNat 32 (1+10000*(k+n)) ∧
      u.vehicle.word idxDlPeriod = 10000#32 := by
  induction n with
  | zero => exact ⟨_,.none _,hv,hT,hP⟩
  | succ n ih =>
    obtain ⟨u,hu,hv,hT,hP⟩ := ih (by omega)
    obtain ⟨h1,h2⟩ := @Mandala.pack_word casts _ hv 28 0#32
    refine ⟨_,hu.frame 28 0#32 [] (by decide) ?_,hv.pack 28 0#32,?_,h2.trans hP⟩
    · rw [hT]
      intro h0
      have hnat := congrArg BitVec.toNat h0
      simp only [BitVec.toNat_umod,BitVec.toNat_ofNat,Nat.reducePow,Nat.reduceMod] at hnat
      omega
    · have hne : ¬ (10000#32 : BitVec 32) = 0#32 := by decide
      have hw := h1
      rw [hT,hP,if_pos hne] at hw
      rw [deliver]
      refine hw.trans (BitVec.eq_of_toNat_eq ?_)
      simp only [BitVec.toNat_add,BitVec.toNat_ofNat]
      omega

theorem primed_sized : primed.vehicle.Sized :=
  ⟨List.length_set.trans (started_sized 1#32 10000#32).1.cells,
    (started_sized 1#32 10000#32).1.resetMask⟩

theorem driven_settled : Settled (fun _ => 0#8) driven.vehicle := by
  have hprimed : Settled (fun _ => 0#8) primed.vehicle := by
    unfold Settled
    decide
  have hset : Settled (fun _ => 0#8) (primed.put 0 ⟨0x40000000#32,0x3F800000#32,0#32⟩).vehicle := by
    unfold Settled
    decide
  refine settled_take hset ?_
  change ((primed.deliver (fun _ => 0#8) 64 7#32 [1#8]).vehicle.cells.set 0 _).take _ =
    (primed.vehicle.cells.set 0 _).take _
  rw [List.take_set,List.take_set,deliver_cells primed_sized hprimed]

theorem driven_words : driven.vehicle.word idxDlTimestamp = BitVec.ofNat 32 (1+10000*1) ∧
    driven.vehicle.word idxDlPeriod = 10000#32 := by
  obtain ⟨h1,h2⟩ := @Mandala.pack_word (fun _ => 0#8) _ primed_sized 64 7#32
  have hword : ∀ idx, 0 < idx → driven.vehicle.word idx =
      (primed.vehicle.packDownstream (fun _ => 0#8) 64 7#32).2.word idx := by
    intro idx hidx
    rw [Mandala.word,Mandala.word,List.getD_eq_getElem?_getD,List.getD_eq_getElem?_getD]
    change (((primed.vehicle.packDownstream (fun _ => 0#8) 64 7#32).2.cells.set 0 _)[idx]?.getD
      _).x = _
    rw [List.getElem?_set_ne (by omega)]
  refine ⟨(hword _ (by decide)).trans (h1.trans ?_),(hword _ (by decide)).trans (h2.trans ?_)⟩
  · decide
  · decide

/-- After as many frames as there are variables in the stream. -/
theorem downlink_complete_driven : ∃ u, Frames (fun _ => 0#8) 121 driven u ∧
    u.vehicle.cells[0]? = some ⟨0x40000000#32,0x3F800000#32,0#32⟩ ∧
    u.station.cells[0]? = some ⟨0x40000000#32,0x3F800000#32,0#32⟩ := by
  obtain ⟨hv,hs⟩ := started_sized 1#32 10000#32
  have hkept := (kept_start hv hs rfl).run driven_run
  have hcell : driven.vehicle.cells[0]? = some ⟨0x40000000#32,0x3F800000#32,0#32⟩ := by
    have hlen := (@Mandala.Sized.pack (fun _ => 0#8) _ primed_sized 64 7#32).cells
    have hvars : vars.length = 201 := rfl
    refine List.getElem?_set_self (Nat.lt_of_lt_of_eq ?_ hlen.symm)
    rw [hvars]
    decide
  obtain ⟨u,hu,-⟩ := @frames_exist (fun _ => 0#8) _ hkept.vehicle 1 driven_words.1 driven_words.2
    121
    (by decide)
  obtain ⟨hvehicle,hstation⟩ := downlink_complete hv hs rfl driven_run driven_settled
    (Nat.le_refl _)
    hu (show streamVars[0]? = some (.vect .f2 .f2) from rfl) hcell
  have hval : ∀ hd, (MVar.vect .f2 .f2).unpack hd ((MVar.vect .f2 .f2).pack (fun _ => 0#8) hd
      ⟨0x40000000#32,0x3F800000#32,0#32⟩).1 = ⟨0x40000000#32,0x3F800000#32,0#32⟩ := by
    decide
  refine ⟨u,hu,hvehicle,?_⟩
  rw [hstation,hval]

end Quiet

end Link

end ApxBus.Backport
