import ApxBus.Backport.DownlinkRuns
set_option autoImplicit false

/-!
The clock of the vehicle and the one that the station keeps, which hears fifteen bits of it in
each frame.
-/

namespace ApxBus.Backport
open Backport.Mandala

theorem and_mask15 (x : BitVec 16) : (x &&& 0x7FFF#16).toNat = x.toNat % 2^15 := by
  rw [BitVec.toNat_and,← Nat.and_two_pow_sub_one_eq_mod]
  rfl

theorem ticks_toNat (t : BitVec 32) : (ticks t).toNat = t.toNat/10 % 2^15 := by
  rw [ticks,BitVec.toNat_setWidth,BitVec.toNat_and,BitVec.toNat_udiv]
  have hm : t.toNat/10 &&& (0x7FFF#32).toNat = t.toNat/10 % 2^15 :=
    Nat.and_two_pow_sub_one_eq_mod _ 15
  rw [show (10#32).toNat = 10 from rfl,hm]
  omega

theorem ticks_gap {a b : BitVec 32} (h : a ≤ b) (hg : b/10#32-a/10#32 < 32768#32) :
    ((ticks b-ticks a) &&& 0x7FFF#16).setWidth 32 = b/10#32-a/10#32 := by
  have hle : a.toNat ≤ b.toNat := h
  have hd : (b/10#32-a/10#32).toNat = b.toNat/10-a.toNat/10 := by
    rw [BitVec.toNat_sub_of_le,BitVec.toNat_udiv,BitVec.toNat_udiv]
    · rfl
    · rw [BitVec.le_def,BitVec.toNat_udiv,BitVec.toNat_udiv]
      exact Nat.div_le_div_right hle
  have hlt : b.toNat/10-a.toNat/10 < 32768 := hd ▸ hg
  refine BitVec.eq_of_toNat_eq ?_
  rw [hd,BitVec.toNat_setWidth,and_mask15,BitVec.toNat_sub,ticks_toNat,ticks_toNat]
  omega

namespace Link
variable {casts : BitVec 32 → Byte}

def lose (casts : BitVec 32 → Byte) (s : Link) (maxSize : Nat) (timestamp : BitVec 32) : Link :=
  {s with vehicle := (s.vehicle.packDownstream casts maxSize timestamp).2}

/-- The link and the time of the last frame that arrived. One that does comes before fifteen bits
have gone by. -/
inductive ClockStep (casts : BitVec 32 → Byte) : Link × BitVec 32 → Link × BitVec 32 → Prop where
  | set (s : Link) (T : BitVec 32) (cells : List Cell)
      (h : cells.length = s.vehicle.cells.length) (reset : Bool) :
      ClockStep casts (s,T) ({s with vehicle :=
        {s.vehicle with cells := cells, reset := s.vehicle.reset || reset}},T)
  | lost (s : Link) (T : BitVec 32) (maxSize : Nat) (timestamp : BitVec 32) :
      ClockStep casts (s,T) (s.lose casts maxSize timestamp,T)
  | frame (s : Link) (T : BitVec 32) (maxSize : Nat) (timestamp : BitVec 32) (after : List Byte)
      (h : T ≤ s.vehicle.word idxDlTimestamp)
      (hg : s.vehicle.word idxDlTimestamp/10#32-T/10#32 < 32768#32) :
      ClockStep casts (s,T) (s.deliver casts maxSize timestamp after,
        s.vehicle.word idxDlTimestamp)

theorem deliver_clock {s : Link} (hv : s.vehicle.Sized)
    (hs : s.station.cells.length = vars.length) (maxSize : Nat) (timestamp : BitVec 32)
    (after : List Byte) :
    (s.deliver casts maxSize timestamp after).station.ts =
      ticks (s.vehicle.word idxDlTimestamp) ∧
    (s.deliver casts maxSize timestamp after).station.word idxDlTimestamp =
      s.station.word idxDlTimestamp+((ticks (s.vehicle.word idxDlTimestamp)-s.station.ts) &&&
        0x7FFF#16).setWidth 32*10#32 := by
  obtain ⟨j,us,sent,hf,-⟩ := @packDownstream_frame casts _ hv maxSize
  obtain ⟨m',hu,hts,hc⟩ := unpackDownstream_sent hf.row (hf.fits hv) s.station
    (s.vehicle.word idxDlTimestamp) after
  rw [deliver_station hf,hu]
  refine ⟨hts,?_⟩
  generalize s.station.word idxDlTimestamp+_ = v at hc ⊢
  have hget : m'.cells[idxDlTimestamp]? =
      (setWord s.station.cells idxDlTimestamp v)[idxDlTimestamp]? := by
    rw [hc]
    refine store_other (fun k b hk he => ?_) _
    obtain ⟨hj,-⟩ := (hf.items k b).mp hk
    have hle := hf.le
    have hst : streamVars.length = 121 := rfl
    have hi : idxDlTimestamp = 134 := rfl
    omega
  have hvars : vars.length = 201 := rfl
  have hlen : idxDlTimestamp < s.station.cells.length := by
    rw [hs,hvars]
    decide
  simp only [word,List.getD_eq_getElem?_getD,hget]
  simp [setWord,hlen]

/-- The clock of the station, `S` at the time `T` of the vehicle. -/
structure Follows (S T : BitVec 32) (x : Link × BitVec 32) : Prop where
  vehicle : x.1.vehicle.Sized
  station : x.1.station.cells.length = vars.length
  ts : x.1.station.ts = ticks x.2
  clock : x.1.station.word idxDlTimestamp = S+(x.2/10#32-T/10#32)*10#32

theorem Follows.step {S T : BitVec 32} {x y : Link × BitVec 32} (h : Follows S T x)
    (hs : ClockStep casts x y) : Follows S T y := by
  obtain ⟨hv,hst,hts,hc⟩ := h
  cases hs with
  | set s T' cells hl reset => exact ⟨⟨hl.trans hv.cells,hv.resetMask⟩,hst,hts,hc⟩
  | lost s T' maxSize timestamp => exact ⟨hv.pack maxSize timestamp,hst,hts,hc⟩
  | frame s T' maxSize timestamp after hle hg =>
    obtain ⟨h1,h2⟩ := @deliver_clock casts s hv hst maxSize timestamp after
    refine ⟨hv.pack maxSize timestamp,?_,h1,?_⟩
    · rw [deliver]
      dsimp only
      rw [unpackDownstream_length]
      exact hst
    · dsimp only at hts hc ⊢
      have hsub : ∀ a b c : BitVec 32, a-b+(c-a) = c-b := by
        intro a b c
        bv_omega
      rw [h2,hts,ticks_gap hle hg,hc,BitVec.add_assoc,← BitVec.add_mul,hsub]

theorem Follows.run {S T : BitVec 32} {x y : Link × BitVec 32} (h : Follows S T x)
    (hr : Relation.ReflTransGen (ClockStep casts) x y) : Follows S T y := by
  induction hr with
  | refl => exact h
  | tail _ hs ih => exact ih.step hs

/-- However many frames are lost between two that arrive, the station's clock advances from the one
to the other as the vehicle's does, in steps of ten. -/
theorem clock_follows {s : Link} (hv : s.vehicle.Sized)
    (hs : s.station.cells.length = vars.length) (maxSize : Nat) (timestamp : BitVec 32)
    (after : List Byte) {t : Link} {T : BitVec 32}
    (hr : Relation.ReflTransGen (ClockStep casts)
      (s.deliver casts maxSize timestamp after,s.vehicle.word idxDlTimestamp) (t,T)) :
    t.station.word idxDlTimestamp =
      (s.deliver casts maxSize timestamp after).station.word idxDlTimestamp+
        (T/10#32-s.vehicle.word idxDlTimestamp/10#32)*10#32 := by
  have h0 : Follows ((s.deliver casts maxSize timestamp after).station.word idxDlTimestamp)
      (s.vehicle.word idxDlTimestamp)
      (s.deliver casts maxSize timestamp after,s.vehicle.word idxDlTimestamp) := by
    refine ⟨hv.pack maxSize timestamp,?_,(deliver_clock hv hs maxSize timestamp after).1,?_⟩
    · rw [deliver]
      dsimp only
      rw [unpackDownstream_length]
      exact hs
    · simp
  exact (h0.run hr).clock

theorem deliver_vehicle (s : Link) (maxSize : Nat) (timestamp : BitVec 32) (after : List Byte) :
    (s.deliver casts maxSize timestamp after).vehicle =
      (s.vehicle.packDownstream casts maxSize timestamp).2 := rfl

theorem lose_vehicle (s : Link) (maxSize : Nat) (timestamp : BitVec 32) :
    (s.lose casts maxSize timestamp).vehicle =
      (s.vehicle.packDownstream casts maxSize timestamp).2 := rfl

/-- The second of three frames is lost. -/
theorem clock_follows_started :
    ((((started 0#32 100#32).deliver (fun _ => 0#8) 64 5#32 []).lose (fun _ => 0#8) 64 5#32).deliver
      (fun _ => 0#8) 64 5#32 []).station.word idxDlTimestamp =
      ((started 0#32 100#32).deliver (fun _ => 0#8) 64 5#32 []).station.word idxDlTimestamp+
        200#32 := by
  obtain ⟨hv,hs⟩ := started_sized 0#32 100#32
  have hT : (started 0#32 100#32).vehicle.word idxDlTimestamp = 0#32 := rfl
  have hP : (started 0#32 100#32).vehicle.word idxDlPeriod = 100#32 := rfl
  generalize started 0#32 100#32 = s at hv hs hT hP ⊢
  obtain ⟨h1,hP1⟩ := @pack_word (fun _ => 0#8) s.vehicle hv 64 5#32
  obtain ⟨h2,-⟩ := @pack_word (fun _ => 0#8) _ (hv.pack 64 5#32) 64 5#32
  have hw : ((s.deliver (fun _ => 0#8) 64 5#32 []).lose (fun _ => 0#8) 64 5#32).vehicle.word
      idxDlTimestamp = 200#32 := by
    have hne : ¬ (100#32 : BitVec 32) = 0#32 := by decide
    rw [lose_vehicle,deliver_vehicle,h2,h1,hP1,hT,hP,if_pos hne,if_pos hne]
    decide
  have hlost := @ClockStep.lost (fun _ => 0#8) (s.deliver (fun _ => 0#8) 64 5#32 []) 0#32 64 5#32
  have hframe := @ClockStep.frame (fun _ => 0#8) _ 0#32 64 5#32 [] (by rw [hw]; decide)
    (by rw [hw]; decide)
  have hrun := (Relation.ReflTransGen.single hlost).tail hframe
  have hc := clock_follows hv hs 64 5#32 [] (hT.symm ▸ hrun)
  rw [hw,hT] at hc
  exact hc

end Link

end ApxBus.Backport
