import ApxBus.Telemetry.FrameTransfer
import ApxBus.Telemetry.Resend
set_option autoImplicit false

/-! Every value is sent again within a bounded number of frames, whether it changes or not. -/

namespace ApxBus.Telemetry
open Function Mandala Real32

theorem passes_within (f : Field) (pseq : Byte) :
    ∃ d ≤ 3, passes f (pseq+BitVec.ofNat 8 d) := by
  have h3 : ∀ p : Byte, ∃ d ≤ 3, (p+BitVec.ofNat 8 d) &&& 3#8 = 0#8 := by decide
  have h1 : ∀ p : Byte, p &&& 3#8 = 0#8 → p &&& 1#8 = 0#8 := by decide
  obtain ⟨d,hd,h⟩ := h3 pseq
  exact ⟨d,hd,fun hc => hc.2 (h1 _ h),fun hc => hc.2 h⟩

namespace TelemetryEncoder

theorem shift_ne : ∀ j ≤ 4, 0 < j → shift j ≠ 0#32 := by decide

/-- A slot as a frame finds it that sends slot `k` again. -/
def due (i k : Nat) (s : EncSlot) : EncSlot := if k = i then enforced s else s

theorem marked_due (e : TelemetryEncoder) (i : Nat) :
    e.marked i = due i e.enforcedUpd (e.slots i) := by
  unfold due
  rcases e.marked_cases i with ⟨hi,hm⟩ | ⟨hi,hm⟩
  · rw [if_pos hi.symm,hm]
  · rw [if_neg (Ne.symm hi),hm]

section
variable {i k : Nat} {s : EncSlot}

theorem due_field : (due i k s).field = s.field := by
  unfold due
  split_ifs <;> rfl

theorem due_upd (h : s.flags.upd = true) : (due i k s).flags.upd = true := by
  unfold due
  split_ifs
  · rfl
  · exact h

theorem rawOf_due (casts : Casts) : rawOf casts 0#32 (due i k s) = rawOf casts 0#32 s := by
  unfold due
  split_ifs <;> rfl

theorem rawOf_processed (casts : Casts) (pseq : Byte) (s : EncSlot) :
    rawOf casts 0#32 (processed casts 0#32 pseq s) = rawOf casts 0#32 s := by
  unfold processed
  split_ifs <;> rfl

end

/-- The slot `x t` before each of `len` frames, and the index `k t` of the one that is sent
again. -/
structure Rotated (casts : Casts) (pseq : Byte) (n i len : Nat) (k : Nat → Nat)
    (x : Nat → EncSlot) : Prop where
  next : ∀ t < len, k (t+1) = if k t+1 ≥ n then 0 else k t+1
  slot : ∀ t < len, x (t+1) =
    processed casts 0#32 (pseq+BitVec.ofNat 8 t) (due i (k t) (x t))

section
variable {casts : Casts} {pseq : Byte} {n i len : Nat} {k : Nat → Nat} {x : Nat → EncSlot}

theorem Rotated.kept (h : Rotated casts pseq n i len k x) {t : Nat} (ht : t ≤ len) :
    rawOf casts 0#32 (x t) = rawOf casts 0#32 (x 0) ∧ (x t).field = (x 0).field := by
  induction t with
  | zero => exact ⟨rfl,rfl⟩
  | succ t ih =>
    obtain ⟨hraw,hfield⟩ := ih (by omega)
    rw [h.slot t ht,rawOf_processed,rawOf_due,processed_field,due_field]
    exact ⟨hraw,hfield⟩

theorem Rotated.rise (h : Rotated casts pseq n i len k x) {t d : Nat} (hd : k t+d < n)
    (ht : t+d ≤ len) : k (t+d) = k t+d := by
  induction d with
  | zero => rfl
  | succ d ih =>
    have hk := ih (by omega) (by omega)
    rw [← Nat.add_assoc,h.next (t+d) (by omega),hk,if_neg (by omega),Nat.add_assoc]

theorem Rotated.reaches (h : Rotated casts pseq n i len k x) (hi : i < n) {t : Nat}
    (ht : t+n ≤ len) : ∃ d ≤ n, k (t+d) = i := by
  by_cases hle : k t ≤ i
  · refine ⟨i-k t,by omega,?_⟩
    rw [h.rise (by omega) (by omega)]
    omega
  obtain ⟨d,hd,hzero⟩ : ∃ d, d+i ≤ n ∧ k (t+d) = 0 := by
    by_cases hn : k t+1 ≥ n
    · exact ⟨1,by omega,by rw [h.next t (by omega),if_pos hn]⟩
    · refine ⟨n-1-k t+1,by omega,?_⟩
      rw [← Nat.add_assoc,h.next _ (by omega),h.rise (by omega) (by omega),if_pos (by omega)]
  refine ⟨d+i,hd,?_⟩
  rw [← Nat.add_assoc,h.rise (by rw [hzero]; omega) (by omega),hzero,Nat.zero_add]

theorem Rotated.closed (h : Rotated casts pseq n i len k x) {t : Nat} (ht : t < len)
    (hp : ¬ passes (x 0).field (pseq+BitVec.ofNat 8 t)) : x (t+1) = due i (k t) (x t) := by
  rw [h.slot t ht,processed,if_neg]
  rintro ⟨hc,-⟩
  rw [due_field,(h.kept ht.le).2] at hc
  exact hp hc

theorem Rotated.flagged (h : Rotated casts pseq n i len k x) {t : Nat} (ht : t ≤ len)
    (hu : (due i (k t) (x t)).flags.upd = true)
    (hp : passes (x 0).field (pseq+BitVec.ofNat 8 t)) :
    TelemetryEncoder.flagged (pseq+BitVec.ofNat 8 t) (due i (k t) (x t)) := by
  refine ⟨?_,hu⟩
  rw [due_field,(h.kept ht).2]
  exact hp

theorem Rotated.current (h : Rotated casts pseq n i len k x) {t : Nat} (ht : t < len)
    (hu : (due i (k t) (x t)).flags.upd = true)
    (hp : passes (x 0).field (pseq+BitVec.ofNat 8 t)) :
    (x (t+1)).packed = rawOf casts 0#32 (x 0) := by
  rw [h.slot t ht,processed,if_pos (h.flagged ht.le hu hp)]
  dsimp only
  rw [rawOf_due,(h.kept ht.le).1]

theorem Rotated.opened (h : Rotated casts pseq n i len k x) {t d : Nat} (ht : t+d < len)
    (hu : (due i (k t) (x t)).flags.upd = true)
    (hp : passes (x 0).field (pseq+BitVec.ofNat 8 (t+d))) :
    ∃ d' ≤ d, (x (t+d'+1)).packed = rawOf casts 0#32 (x 0) := by
  induction d generalizing t with
  | zero => exact ⟨0,Nat.le_refl 0,h.current ht hu hp⟩
  | succ d ih =>
    by_cases hp0 : passes (x 0).field (pseq+BitVec.ofNat 8 t)
    · exact ⟨0,Nat.zero_le _,h.current (by omega) hu hp0⟩
    · have hx := h.closed (by omega) hp0
      obtain ⟨d',hd',hpk⟩ := @ih (t+1) (by omega) (due_upd (by rw [hx]; exact hu))
        (by rw [Nat.add_assoc,Nat.add_comm 1]; exact hp)
      refine ⟨d'+1,by omega,?_⟩
      rw [Nat.add_comm d' 1,← Nat.add_assoc]
      exact hpk

theorem Rotated.unmarked (h : Rotated casts pseq n i len k x) {t d : Nat} (ht : t+d ≤ len)
    (hx : (x t).packed = rawOf casts 0#32 (x 0)) (hk : k (t+d) = i) :
    ∃ d' ≤ d, k (t+d') = i ∧ (x (t+d')).packed = rawOf casts 0#32 (x 0) := by
  induction d generalizing t with
  | zero => exact ⟨0,Nat.le_refl 0,hk,hx⟩
  | succ d ih =>
    by_cases hk0 : k t = i
    · exact ⟨0,Nat.zero_le _,hk0,hx⟩
    · have hstep : (x (t+1)).packed = rawOf casts 0#32 (x 0) := by
        rw [h.slot t (by omega),due,if_neg hk0,processed]
        split_ifs
        · exact (h.kept (by omega)).1
        · exact hx
      obtain ⟨d',hd',hres⟩ := @ih (t+1) (by omega) hstep
        (by rw [Nat.add_assoc,Nat.add_comm 1]; exact hk)
      refine ⟨d'+1,by omega,?_⟩
      rw [Nat.add_comm d' 1,← Nat.add_assoc]
      exact hres

theorem Rotated.moved (h : Rotated casts pseq n i len k x) {t j : Nat} (ht : t ≤ len)
    (hu : (due i (k t) (x t)).flags.upd = true)
    (hx : (due i (k t) (x t)).packed = rawOf casts 0#32 (x 0)+shift j) (hj : 0 < j) (hj4 : j ≤ 4)
    (hp : passes (x 0).field (pseq+BitVec.ofNat 8 t)) :
    Sends casts 0#32 (pseq+BitVec.ofNat 8 t) (due i (k t) (x t)) := by
  refine ⟨h.flagged ht hu hp,fun heq => ?_⟩
  rw [hx,rawOf_due,(h.kept ht).1] at heq
  exact shift_ne j hj4 hj (BitVec.self_eq_add_right.mp heq.symm)

theorem Rotated.sent (h : Rotated casts pseq n i len k x) {t d j : Nat} (ht : t+d < len)
    (hu : (due i (k t) (x t)).flags.upd = true)
    (hx : (due i (k t) (x t)).packed = rawOf casts 0#32 (x 0)+shift j) (hj : 0 < j) (hd : j+d ≤ 4)
    (hp : passes (x 0).field (pseq+BitVec.ofNat 8 (t+d))) :
    ∃ d' ≤ d, Sends casts 0#32 (pseq+BitVec.ofNat 8 (t+d')) (due i (k (t+d')) (x (t+d'))) := by
  induction d generalizing t j with
  | zero => exact ⟨0,Nat.le_refl 0,h.moved (by omega) hu hx hj hd hp⟩
  | succ d ih =>
    by_cases hp0 : passes (x 0).field (pseq+BitVec.ofNat 8 t)
    · exact ⟨0,Nat.zero_le _,h.moved (by omega) hu hx hj (by omega) hp0⟩
    · have hstep := h.closed (by omega) hp0
      rw [← hstep] at hu hx
      obtain ⟨j',hj',hjd,hx1⟩ : ∃ j', 0 < j' ∧ j'+d ≤ 4 ∧
          (due i (k (t+1)) (x (t+1))).packed = rawOf casts 0#32 (x 0)+shift j' := by
        unfold due
        by_cases hk : k (t+1) = i
        · refine ⟨j+1,by omega,by omega,?_⟩
          rw [if_pos hk,shift_succ,← BitVec.add_assoc,← hx]
          rfl
        · refine ⟨j,hj,by omega,?_⟩
          rw [if_neg hk]
          exact hx
      obtain ⟨d',hd',hres⟩ := @ih (t+1) j' (by omega) (due_upd hu) hx1 hj' hjd
        (by rw [Nat.add_assoc,Nat.add_comm 1]; exact hp)
      refine ⟨d'+1,by omega,?_⟩
      rw [Nat.add_comm d' 1,← Nat.add_assoc]
      exact hres

theorem Rotated.refreshed (h : Rotated casts pseq n i len k x) (hi : i < n)
    (hlen : 2*n+8 ≤ len) :
    ∃ t < len, Sends casts 0#32 (pseq+BitVec.ofNat 8 t) (due i (k t) (x t)) := by
  obtain ⟨t0,ht0,hk0⟩ := @Rotated.reaches _ _ _ _ _ _ _ h hi 0 (by omega)
  rw [Nat.zero_add] at hk0
  have hwithin : ∀ t, ∃ d ≤ 3, passes (x 0).field (pseq+BitVec.ofNat 8 (t+d)) := by
    intro t
    obtain ⟨d,hd,hp⟩ := passes_within (x 0).field (pseq+BitVec.ofNat 8 t)
    rw [BitVec.add_assoc,← BitVec.ofNat_add] at hp
    exact ⟨d,hd,hp⟩
  obtain ⟨d1,hd1,hp1⟩ := hwithin t0
  obtain ⟨d2,hd2,hcur⟩ := @Rotated.opened _ _ _ _ _ _ _ h t0 d1 (by omega)
    (by rw [due,if_pos hk0]; rfl) hp1
  obtain ⟨d3,hd3,hk3⟩ := @Rotated.reaches _ _ _ _ _ _ _ h hi (t0+d2+1) (by omega)
  obtain ⟨d4,hd4,hk4,hx4⟩ := h.unmarked (by omega) hcur hk3
  obtain ⟨d5,hd5,hp5⟩ := hwithin (t0+d2+1+d4)
  have hdue : due i (k (t0+d2+1+d4)) (x (t0+d2+1+d4)) = enforced (x (t0+d2+1+d4)) := if_pos hk4
  obtain ⟨d6,hd6,hsend⟩ := @Rotated.sent _ _ _ _ _ _ _ h (t0+d2+1+d4) d5 1 (by omega)
    (by rw [hdue]; rfl) (by rw [hdue,enforced]; dsimp only; rw [hx4]; rfl) (by omega) (by omega) hp5
  exact ⟨t0+d2+1+d4+d6,by omega,hsend⟩

end

section
variable {dict : Dictionary} {casts : Casts} {e : TelemetryEncoder}

def frames (casts : Casts) : List (Writer × BitVec 64) → Byte → TelemetryEncoder →
    Option (List EncodeState)
  | [], _, _ => some []
  | c :: l, pseq, e => do
    let s ← e.encode casts (fun _ => 0#32) c.1 pseq c.2
    let ss ← frames casts l (pseq+1#8) s.enc
    some (s :: ss)

theorem Inv.frame (hi : Inv dict e) (hlt : e.enforcedUpd < slotsSize) {w : Writer}
    (hw : w.pos+(3+1+5*e.slotsCnt) ≤ w.size) (pseq : Byte) (ts : BitVec 64) :
    ∃ s frame, e.encode casts (fun _ => 0#32) w pseq ts = some s ∧
      s.stream.out = w.out ++ frame ∧ Inv dict s.enc ∧ s.enc.enforcedUpd < slotsSize ∧
        s.enc.slotsCnt = e.slotsCnt ∧
      s.enc.slotsUpdCnt = e.slotsUpdCnt ∧
      s.enc.enforcedUpd = (if e.enforcedUpd+1 ≥ e.slotsUpdCnt then 0 else e.enforcedUpd+1) ∧
      ∀ i < e.slotsUpdCnt,
        s.enc.slots i = processed casts 0#32 pseq (due i e.enforcedUpd (e.slots i)) ∧
        (Sends casts 0#32 pseq (due i e.enforcedUpd (e.slots i)) →
          (i,rawOf casts 0#32 (e.slots i)) ∈ s.sent ∧ e.Transmits casts pseq frame i) := by
  obtain ⟨s,stop,frame,hs,hout,-,hno,hbit,hsends⟩ :=
    encode_transmits casts (fun _ => 0#32) pseq hi.cnt_le hlt hw ts
  have hsame := encode_sameTable hs
  have hstep : TelemetryEncoder.step dict casts e (.encode (fun _ => 0#32) w pseq ts) =
    some s.enc := by
    rw [TelemetryEncoder.step,hs]
    rfl
  refine ⟨s,frame,hs,hout,hsame.inv hi,hi.step_enforced hlt hstep,hsame.slotsCnt,hsame.slotsUpdCnt,
    encode_enforced hs hi.upd_le,fun i hiu => ?_⟩
  have hic := Nat.lt_of_lt_of_le hiu hi.upd_le
  have hne := (hi.upd i hic).mp hiu
  rw [← marked_due]
  exact ⟨(encode_log (l := SendLog.empty) hi hs hic hne).1,
    hsends i ((hi.toSorted.lt_stop_iff hno hbit hic).mpr hne)⟩

theorem Inv.frames (hi : Inv dict e) (hlt : e.enforcedUpd < slotsSize)
    (l : List (Writer × BitVec 64)) (hw : ∀ c ∈ l, c.1.pos+(3+1+5*e.slotsCnt) ≤ c.1.size)
    (pseq : Byte) :
    ∃ ss, TelemetryEncoder.frames casts l pseq e = some ss ∧ ∃ es : Nat → TelemetryEncoder,
      es 0 = e ∧ ∀ i < e.slotsUpdCnt,
        Rotated casts pseq e.slotsUpdCnt i l.length (fun t => (es t).enforcedUpd)
          (fun t => (es t).slots i) ∧
        ∀ t < l.length, Sends casts 0#32 (pseq+BitVec.ofNat 8 t)
            (due i (es t).enforcedUpd ((es t).slots i)) →
          ∃ c s frame, l[t]? = some c ∧ ss[t]? = some s ∧
            (i,rawOf casts 0#32 ((es t).slots i)) ∈ s.sent ∧
            s.stream.out = c.1.out ++ frame ∧
            e.Transmits casts (pseq+BitVec.ofNat 8 t) frame i := by
  induction l generalizing e pseq with
  | nil =>
    exact ⟨[],rfl,fun _ => e,rfl,fun i _ => ⟨⟨fun t ht => absurd ht (Nat.not_lt_zero t),
      fun t ht => absurd ht (Nat.not_lt_zero t)⟩,fun t ht => absurd ht (Nat.not_lt_zero t)⟩⟩
  | cons c l ih =>
    obtain ⟨s,frame,hs,hout,hi',hlt',hcnt,hupd,hnext,hslot⟩ :=
      @Inv.frame dict casts e hi hlt c.1 (hw c List.mem_cons_self) pseq c.2
    obtain ⟨ss,hss,es,hes,hrot⟩ := @ih s.enc hi' hlt'
      (fun c' hc' => by rw [hcnt]; exact hw c' (List.mem_cons_of_mem _ hc')) (pseq+1#8)
    rw [hupd] at hrot
    have hseq : ∀ t, pseq+BitVec.ofNat 8 (t+1) = pseq+1#8+BitVec.ofNat 8 t := by
      intro t
      rw [Nat.add_comm t 1,BitVec.ofNat_add,← BitVec.add_assoc]
    refine ⟨s :: ss,?_,fun t => Nat.rec e (fun t _ => es t) t,rfl,fun i hiu => ?_⟩
    · rw [TelemetryEncoder.frames,hs]
      simp only [Option.bind_eq_bind,Option.bind_some]
      rw [hss]
      rfl
    · obtain ⟨⟨hk,hx⟩,hsend⟩ := hrot i hiu
      obtain ⟨hx0,hsend0⟩ := hslot i hiu
      refine ⟨⟨fun t ht => ?_,fun t ht => ?_⟩,fun t ht hp => ?_⟩
      · cases t with
        | zero =>
          dsimp only
          rw [hes]
          exact hnext
        | succ t => exact hk t (Nat.lt_of_succ_lt_succ ht)
      · cases t with
        | zero =>
          dsimp only
          rw [hes,BitVec.add_zero]
          exact hx0
        | succ t =>
          rw [hseq]
          exact hx t (Nat.lt_of_succ_lt_succ ht)
      · cases t with
        | zero =>
          rw [BitVec.add_zero] at hp
          obtain ⟨hmem,htrans⟩ := hsend0 hp
          rw [BitVec.add_zero]
          exact ⟨c,s,frame,rfl,rfl,hmem,hout,htrans⟩
        | succ t =>
          rw [hseq] at hp
          obtain ⟨c',s',frame',hc',hs',hmem,hout',htrans⟩ := hsend t (Nat.lt_of_succ_lt_succ ht) hp
          rw [hseq]
          exact ⟨c',s',frame',hc',hs',hmem,hout',
            htrans.congr (encode_sameValue hs) hcnt (encode_sameTable hs).hash⟩

/-- In each run of `2n+8` frames, `n` the number of values, every value is written into one. -/
theorem all_refreshed {ops : List Op} (hr : run dict casts init ops = some e)
    (l : List (Writer × BitVec 64)) (hl : l.length = 2*e.slotsUpdCnt+8)
    (hw : ∀ c ∈ l, c.1.pos+(3+1+5*e.slotsCnt) ≤ c.1.size) (pseq : Byte) :
    ∃ ss, frames casts l pseq e = some ss ∧
      ∀ i < e.slotsCnt, (e.slots i).field.fmt ≠ Fmt.bit.code →
        ∃ t c s frame, l[t]? = some c ∧ ss[t]? = some s ∧ s.stream.out = c.1.out ++ frame ∧
          e.Transmits casts (pseq+BitVec.ofNat 8 t) frame i := by
  have hi := (clear_inv dict _).run hr
  have hlt := (clear_inv dict _).run_enforced (by decide) hr
  obtain ⟨ss,hss,es,hes,hrot⟩ := hi.frames hlt l hw pseq
  refine ⟨ss,hss,fun i hic hne => ?_⟩
  have hiu := (hi.upd i hic).mpr hne
  obtain ⟨hx,hsend⟩ := hrot i hiu
  obtain ⟨t,ht,hs⟩ := hx.refreshed hiu hl.ge
  obtain ⟨c,s,frame,hc,hs,-,hout,htrans⟩ := hsend t ht hs
  exact ⟨t,c,s,frame,hc,hs,hout,htrans⟩

/-- A value that is taken for sent in the first frame is sent in a later one. -/
theorem all_refreshed_one : ∃ e ss, run byteDict noCasts init (oneValue 0x01010101#32) = some e ∧
    frames noCasts (List.replicate 10 (⟨List.replicate 9 0#8,0⟩,0#64)) 0#8 e = some ss ∧
    ∃ t s frame, ss[t]? = some s ∧ s.stream.out = frame ∧
      e.Transmits noCasts (0#8+BitVec.ofNat 8 t) frame 0 := by
  have hmap : (run byteDict noCasts init (oneValue 0x01010101#32)).map
      (fun e => (e.slotsCnt,e.slotsUpdCnt,(e.slots 0).field.fmt)) =
      some (1,1,Fmt.u32.code) := by decide +kernel
  obtain ⟨e,hr,hv⟩ := Option.map_eq_some_iff.mp hmap
  simp only [Prod.mk.injEq] at hv
  obtain ⟨hcnt,hupd,hfmt⟩ := hv
  obtain ⟨ss,hss,hall⟩ := all_refreshed hr
    (List.replicate 10 (⟨List.replicate 9 0#8,0⟩,0#64)) (by rw [hupd,List.length_replicate])
    (fun c hc => by rw [List.eq_of_mem_replicate hc,hcnt]; decide) 0#8
  obtain ⟨t,c,s,frame,hc,hs,hout,htrans⟩ := hall 0 (by omega) (by rw [hfmt]; decide)
  have hwriter := List.eq_of_mem_replicate (List.mem_of_getElem? hc)
  rw [hwriter] at hout
  exact ⟨e,ss,hr,hss,t,s,frame,hs,hout,htrans⟩

end

end TelemetryEncoder

end ApxBus.Telemetry
