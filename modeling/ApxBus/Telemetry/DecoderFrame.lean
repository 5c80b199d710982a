import ApxBus.Telemetry.Decoder
set_option autoImplicit false

/-! What a frame does to the slots of the decoder: nothing, or a reset, or all that it announces. -/

namespace ApxBus.Telemetry
open Function Mandala

theorem unpackValue_total (r : Reader) (dest : BitVec 32) (type : TypeId) (fmt : Byte) :
    ∃ sz value type', unpackValue r.rest dest type fmt r.available = some (sz,value,type') ∧
      (sz ≠ 0 → sz = wireSize fmt) := by
  unfold unpackValue
  cases hu : (Fmt.ofCode fmt).bind Unpacking.ofFmt with
  | none => exact ⟨_,_,_,rfl,fun h => absurd rfl h⟩
  | some u =>
    dsimp only
    by_cases hlt : r.available < u.size
    · rw [if_pos hlt]
      exact ⟨_,_,_,rfl,fun h => absurd rfl h⟩
    · rw [if_neg hlt,if_neg (by rw [r.rest_length]; exact hlt)]
      exact ⟨_,_,_,rfl,fun _ => Unpacking.ofFmt_size hu⟩

namespace TelemetryDecoder
variable {d d' : TelemetryDecoder} {s s' : DecodeState}

theorem readOffset_total (fuel : Nat) (offset : Byte) (dindex : BitVec 16) (code : Byte)
    (r : Reader) (h : r.available < fuel) :
    ∃ out, readOffset fuel offset dindex code r = some out := by
  induction fuel generalizing offset dindex code r with
  | zero => omega
  | succ fuel ih =>
    rw [readOffset]
    by_cases hoff : offset = 0x7F#8
    · rw [if_pos hoff]
      dsimp only
      by_cases hbit : r.read8.1 &&& 0x80#8 = 0#8
      · rw [if_pos hbit]
        exact ⟨_,rfl⟩
      · rw [if_neg hbit]
        have ha : r.available ≠ 0 := by
          intro h0
          rw [r.read8_fst,List.eq_nil_of_length_eq_zero (r.rest_length.trans h0)] at hbit
          exact hbit rfl
        exact ih _ _ _ _ (by rw [r.available_read8]; omega)
    · rw [if_neg hoff]
      exact ⟨_,rfl⟩

theorem skipSlots_spec (s : DecodeState) :
    ∃ s' stop, skipSlots s = some (s',stop) ∧ s'.dec = s.dec ∧ s'.cnt = s.cnt ∧
      s.index ≤ s'.index ∧ s'.nibbleN = s.nibbleN ∧
      (stop = false → s'.index < s.dec.slotsCnt) := by
  unfold skipSlots
  dsimp only
  split_ifs with hsmall
  · exact ⟨s,true,rfl,rfl,rfl,Nat.le_refl _,rfl,by simp⟩
  · obtain ⟨⟨dindex,code,stream⟩,hoff⟩ := readOffset_total (s.stream.available+2)
      (s.code &&& 0x7F#8) ((s.code &&& 0x7F#8).setWidth 16) s.code s.stream (by omega)
    rw [hoff]
    simp only [Option.bind_eq_bind,Option.bind_some]
    split_ifs with hcode hdist hend
    · exact ⟨_,_,rfl,rfl,rfl,Nat.le_refl _,rfl,by simp⟩
    · exact ⟨_,_,rfl,rfl,rfl,Nat.le_refl _,rfl,by simp⟩
    · exact ⟨_,_,rfl,rfl,rfl,Nat.le_add_right _ _,rfl,by simp⟩
    · exact ⟨_,_,rfl,rfl,rfl,Nat.le_add_right _ _,rfl,fun _ => Nat.lt_of_not_le hend⟩

theorem nextCode_spec (s : DecodeState) (h : s.index < s.dec.slotsCnt) :
    ∃ s' stop, nextCode s = some (s',stop) ∧ s'.dec = s.dec ∧ s'.cnt = s.cnt ∧
      s.index ≤ s'.index ∧ (s'.nibbleN = 0 ∨ s'.index = s.index) ∧
      (stop = false → s'.index < s.dec.slotsCnt) := by
  unfold nextCode
  by_cases hbit : s.codeBit = 1#8 <<< 6
  · rw [if_pos hbit]
    dsimp only
    split_ifs with hoff
    · obtain ⟨s1,stop,hs,h1,h2,h3,h4,h5⟩ := skipSlots_spec
        {s with code := s.stream.read8.1, stream := s.stream.read8.2, codeBit := 1#8, nibbleN := 0}
      exact ⟨s1,stop,hs,h1,h2,h3,Or.inl h4,h5⟩
    · exact ⟨_,_,rfl,rfl,rfl,Nat.le_refl _,Or.inl rfl,fun _ => h⟩
  · rw [if_neg hbit]
    exact ⟨_,_,rfl,rfl,rfl,Nat.le_refl _,Or.inr rfl,fun _ => h⟩

theorem splitNibbles_frame (f : Field) (value : BitVec 32) (type : TypeId) (s : DecodeState) :
    (splitNibbles f value type s).1.dec = s.dec ∧ (splitNibbles f value type s).1.cnt = s.cnt ∧
    (splitNibbles f value type s).1.index = s.index := by
  unfold splitNibbles
  split_ifs <;> exact ⟨rfl,rfl,rfl⟩

theorem storeValue_spec (f : Field) (value : BitVec 32) (type : TypeId)
    (h : s.index < s.dec.slotsCnt) :
    ∃ s' v t, storeValue f value type s = some (s',decide (s'.cnt = 0)) ∧
      s'.dec = s.dec.mark s.index v t ∧ s'.cnt = s.cnt-1 ∧ s'.index = s.index := by
  obtain ⟨hd,hc,hi⟩ := splitNibbles_frame f value type s
  unfold storeValue
  dsimp only
  rw [DecodeState.setValue,if_pos (by rw [hd,hi]; exact h)]
  exact ⟨_,_,_,rfl,by rw [hd,hi],by rw [hc],hi⟩

theorem field_of_lt (h : s.index < s.dec.slotsCnt) :
    s.field = some (s.dec.fieldAt s.index) := if_pos h

theorem fmt_ne_bit {fmt : Byte} (h : wireSize fmt ≠ 0) : fmt ≠ Fmt.bit.code := by
  rintro rfl
  exact h rfl

/-- What one round of the loop over the values leaves: no slot is set, or the one at the index,
and then the loop ends when it was the last. -/
def Stepped (s s' : DecodeState) (stop : Bool) : Prop :=
  s.index ≤ s'.index ∧ (stop = false → s'.index < s.dec.slotsCnt) ∧
  (s'.dec = s.dec ∧ s'.cnt = s.cnt ∨
    s'.index < s.dec.slotsCnt ∧ (s.dec.fieldAt s'.index).fmt ≠ Fmt.bit.code ∧
      (∃ v t, s'.dec = s.dec.mark s'.index v t) ∧ s'.cnt = s.cnt-1 ∧ stop = decide (s'.cnt = 0))

theorem readValue_spec (h : s.index < s.dec.slotsCnt)
    (hf : s.nibbleN = 0 ∨ (s.dec.fieldAt s.index).fmt ≠ Fmt.bit.code) :
    ∃ s' stop, readValue s = some (s',stop) ∧ Stepped s s' stop := by
  unfold readValue
  rw [field_of_lt h]
  simp only [Option.bind_eq_bind,Option.bind_some]
  by_cases hn : s.nibbleN = 0
  · rw [if_pos hn]
    obtain ⟨sz,value,type,hu,hsz⟩ := unpackValue_total s.stream (s.dec.value s.index) .real
      (s.dec.fieldAt s.index).fmt
    rw [hu]
    simp only [Option.bind_some]
    split_ifs with hstop
    · exact ⟨s,true,rfl,Nat.le_refl _,fun _ => h,Or.inl ⟨rfl,rfl⟩⟩
    · rw [not_or] at hstop
      have hne : wireSize (s.dec.fieldAt s.index).fmt ≠ 0 := by
        rw [← hsz hstop.1]
        exact hstop.1
      obtain ⟨s',v,t,hs,hd,hc,hi⟩ := storeValue_spec (s.dec.fieldAt s.index) value type
        (s := {s with stream := s.stream.reset (s.stream.pos+sz)}) h
      refine ⟨s',_,hs,Nat.le_of_eq hi.symm,fun _ => hi.symm ▸ h,Or.inr ?_⟩
      rw [hi]
      exact ⟨h,fmt_ne_bit hne,⟨v,t,hd⟩,hc,rfl⟩
  · rw [if_neg hn]
    obtain ⟨s',v,t,hs,hd,hc,hi⟩ := storeValue_spec (s.dec.fieldAt s.index)
      (s.dec.value s.index) .real h
    refine ⟨s',_,hs,Nat.le_of_eq hi.symm,fun _ => hi.symm ▸ h,Or.inr ?_⟩
    rw [hi]
    exact ⟨h,hf.resolve_left hn,⟨v,t,hd⟩,hc,rfl⟩

theorem valueStep_spec (pseq : Byte) (h : s.index < s.dec.slotsCnt) :
    ∃ s' stop, valueStep pseq s = some (s',stop) ∧ Stepped s s' stop := by
  unfold valueStep
  rw [field_of_lt h]
  simp only [Option.bind_eq_bind,Option.bind_some]
  split_ifs with hbit hpass
  · exact ⟨s,true,rfl,Nat.le_refl _,fun _ => h,Or.inl ⟨rfl,rfl⟩⟩
  · obtain ⟨s1,stop,hs,hd,hc,hi,hn,hlt⟩ := nextCode_spec s h
    rw [hs]
    simp only [Option.bind_some]
    split_ifs with hstop hempty hcode
    · exact ⟨s1,true,rfl,hi,by simp,Or.inl ⟨hd,hc⟩⟩
    · exact ⟨s1,true,rfl,hi,by simp,Or.inl ⟨hd,hc⟩⟩
    · exact ⟨s1,false,rfl,hi,fun _ => hlt (by simpa using hstop),Or.inl ⟨hd,hc⟩⟩
    · have h1 : s1.index < s1.dec.slotsCnt := hd ▸ hlt (by simpa using hstop)
      have hf : s1.nibbleN = 0 ∨ (s1.dec.fieldAt s1.index).fmt ≠ Fmt.bit.code := by
        rcases hn with hn | hn
        · exact Or.inl hn
        · rw [hd,hn]
          exact Or.inr hbit
      obtain ⟨s2,stop2,hs2,hi2,hcase⟩ := readValue_spec h1 hf
      refine ⟨s2,stop2,hs2,hi.trans hi2,?_⟩
      rw [hd,hc] at hcase
      exact hcase
  · exact ⟨s,false,rfl,Nat.le_refl _,fun _ => h,Or.inl ⟨rfl,rfl⟩⟩

/-- `d'` is `d` with the slots in `m` set, and marked. -/
structure Marks (d d' : TelemetryDecoder) (m : Nat → Prop) : Prop where
  dec : d' = {d with value := d'.value, flags := d'.flags}
  rest : ∀ i, ¬ m i → d'.value i = d.value i ∧ d'.flags i = d.flags i
  upd : ∀ i, m i → (d'.flags i).upd = true

theorem Marks.refl (d : TelemetryDecoder) : Marks d d fun _ => False :=
  ⟨rfl,fun _ _ => ⟨rfl,rfl⟩,fun _ h => h.elim⟩

theorem Marks.slotsCnt {m : Nat → Prop} (h : Marks d d' m) : d'.slotsCnt = d.slotsCnt := by
  rw [h.dec]

theorem Marks.fieldAt {m : Nat → Prop} (h : Marks d d' m) (i : Nat) :
    d'.fieldAt i = d.fieldAt i := by
  rw [h.dec]
  rfl

theorem Marks.mark {m m' : Nat → Prop} {i : Nat} (h : Marks d d' m) (v : BitVec 32) (t : TypeId)
    (hm : ∀ j, m' j ↔ j = i ∨ m j) : Marks d (d'.mark i v t) m' where
  dec := by
    rw [h.dec]
    rfl
  rest := fun j hj => by
    rw [hm,not_or] at hj
    simp only [TelemetryDecoder.mark,Function.update_of_ne hj.1]
    exact h.rest j hj.2
  upd := fun j hj => by
    by_cases hji : j = i
    · subst hji
      simp only [TelemetryDecoder.mark,Function.update_self]
    · simp only [TelemetryDecoder.mark,Function.update_of_ne hji]
      exact h.upd j (((hm j).mp hj).resolve_left hji)

/-- The slots set so far are those of a list without repetitions, no bitfields, and as many as
are missing in the count. -/
structure Progress (d : TelemetryDecoder) (cnt : Nat) (marked : List Nat) (s : DecodeState) :
    Prop where
  marks : Marks d s.dec (· ∈ marked)
  slot : ∀ i ∈ marked, i < d.slotsCnt ∧ (d.fieldAt i).fmt ≠ Fmt.bit.code
  nodup : marked.Nodup
  count : marked.length+s.cnt = cnt

/-- Behind the loop over the values: when all values of the frame are set, the index is that of
the last of them. -/
theorem valueLoop_spec (pseq : Byte) {cnt : Nat} {marked : List Nat} (fuel : Nat)
    (h : Progress d cnt marked s) (hlt : ∀ i ∈ marked, i < s.index)
    (hcnt : s.cnt = 0 → marked = [] ∧ s.index = 0) (hle : s.index ≤ d.slotsCnt)
    (hfuel : d.slotsCnt < s.index+fuel) :
    ∃ s' marked', valueLoop pseq fuel s = some s' ∧ Progress d cnt marked' s' ∧
      (∀ i ∈ marked', i ≤ s'.index) ∧
      (s'.cnt = 0 → s'.index ∈ marked' ∨ marked' = [] ∧ s'.index = 0) := by
  induction fuel generalizing s marked with
  | zero => omega
  | succ fuel ih =>
    rw [valueLoop]
    by_cases hgo : s.index < s.dec.slotsCnt ∧ s.stream.available > 0 ∧ s.cnt > 0
    · rw [if_pos hgo]
      obtain ⟨s1,stop,hs,hi,hstop,hcase⟩ := valueStep_spec pseq hgo.1
      rw [hs]
      simp only [Option.bind_eq_bind,Option.bind_some]
      rw [h.marks.slotsCnt] at hstop hcase
      have hold : ∀ i ∈ marked, i < s1.index := fun i him => Nat.lt_of_lt_of_le (hlt i him) hi
      rcases hcase with ⟨hd,hc⟩ | ⟨hlt1,hbit,⟨v,t,hd⟩,hc,hst⟩
      · have h1 : Progress d cnt marked s1 := ⟨hd ▸ h.marks,h.slot,h.nodup,hc ▸ h.count⟩
        cases stop with
        | true => exact ⟨s1,marked,rfl,h1,fun i him => Nat.le_of_lt (hold i him),by omega⟩
        | false =>
          have hlt1 := hstop rfl
          exact ih (s := {s1 with index := s1.index+1}) ⟨h1.marks,h1.slot,h1.nodup,h1.count⟩
            (fun i him => Nat.lt_succ_of_lt (hold i him)) (fun h0 => by dsimp only at h0; omega)
            hlt1 (by dsimp only; omega)
      · have hnew : s1.index ∉ marked := fun hm => Nat.lt_irrefl _ (hold _ hm)
        have h1 : Progress d cnt (s1.index :: marked) s1 := by
          refine ⟨hd ▸ h.marks.mark v t fun j => List.mem_cons,fun i him => ?_,
            List.nodup_cons.mpr ⟨hnew,h.nodup⟩,?_⟩
          · rcases List.mem_cons.mp him with rfl | him
            · exact ⟨hlt1,h.marks.fieldAt s1.index ▸ hbit⟩
            · exact h.slot i him
          · have hcount := h.count
            rw [List.length_cons]
            omega
        have hold1 : ∀ i ∈ s1.index :: marked, i ≤ s1.index := fun i him => by
          rcases List.mem_cons.mp him with rfl | him
          · exact Nat.le_refl _
          · exact Nat.le_of_lt (hold i him)
        cases stop with
        | true => exact ⟨s1,_,rfl,h1,hold1,fun _ => Or.inl (List.mem_cons_self ..)⟩
        | false =>
          have hne : s1.cnt ≠ 0 := of_decide_eq_false hst.symm
          exact ih (s := {s1 with index := s1.index+1}) ⟨h1.marks,h1.slot,h1.nodup,h1.count⟩
            (fun i him => Nat.lt_succ_of_le (hold1 i him)) (fun h0 => absurd h0 hne) hlt1
            (by dsimp only; omega)
    · rw [if_neg hgo]
      exact ⟨s,marked,rfl,h,fun i hi => Nat.le_of_lt (hlt i hi),fun h0 => Or.inr (hcnt h0)⟩

theorem findBit_spec (n : Nat) (h : s.index+n = s.dec.slotsCnt) :
    ∃ k ≤ n, findBit n s = some {s with index := s.index+k} ∧
      (∀ i, s.index ≤ i → i < s.index+k → (s.dec.fieldAt i).fmt ≠ Fmt.bit.code) := by
  induction n generalizing s with
  | zero => exact ⟨0,Nat.le_refl _,rfl,fun i h1 h2 => by omega⟩
  | succ n ih =>
    rw [findBit,field_of_lt (by omega)]
    simp only [Option.bind_eq_bind,Option.bind_some]
    by_cases hbit : (s.dec.fieldAt s.index).fmt = Fmt.bit.code
    · rw [if_pos hbit]
      exact ⟨0,Nat.zero_le _,rfl,fun i h1 h2 => by omega⟩
    · rw [if_neg hbit]
      obtain ⟨k,hk,hs,hb⟩ := ih (s := {s with index := s.index+1}) (by dsimp only; omega)
      dsimp only at hs hb
      refine ⟨k+1,by omega,?_,fun i h1 h2 => ?_⟩
      · rw [hs,Nat.add_assoc,Nat.add_comm 1 k]
      · rcases Nat.eq_or_lt_of_le h1 with rfl | hlt
        · exact hbit
        · exact hb i hlt (by omega)

theorem nextBit_frame (s : DecodeState) :
    (nextBit s).dec = s.dec ∧ (nextBit s).cnt = s.cnt ∧ (nextBit s).index = s.index := by
  unfold nextBit
  split_ifs <;> exact ⟨rfl,rfl,rfl⟩

/-- The first of `n` bitfields from `index` on are set besides those in `m`; the count says how
many are left. -/
def BitsSet (d : TelemetryDecoder) (m : Nat → Prop) (n index : Nat) (s' : DecodeState) : Prop :=
  ∃ k ≤ n, s'.cnt = n-k ∧
    (∀ i, index ≤ i → i < index+k → (d.fieldAt i).fmt = Fmt.bit.code) ∧
    Marks d s'.dec fun i => (index ≤ i ∧ i < index+k) ∨ m i

theorem BitsSet.refl {m : Nat → Prop} {n : Nat} (index : Nat) (hcnt : s.cnt = n)
    (hm : Marks d s.dec m) : BitsSet d m n index s := by
  refine ⟨0,Nat.zero_le _,hcnt,fun i h1 h2 => by omega,?_⟩
  have hmm : (fun i => (index ≤ i ∧ i < index+0) ∨ m i) = m := by
    funext i
    exact propext (or_iff_right (by omega))
  rw [hmm]
  exact hm

theorem BitsSet.succ {m : Nat → Prop} {n index : Nat}
    (h : BitsSet d (fun i => i = index ∨ m i) n (index+1) s')
    (hbit : (d.fieldAt index).fmt = Fmt.bit.code) : BitsSet d m (n+1) index s' := by
  obtain ⟨k,hk,hcnt,hb,hm⟩ := h
  refine ⟨k+1,by omega,by omega,fun i h1 h2 => ?_,?_⟩
  · rcases Nat.eq_or_lt_of_le h1 with rfl | hlt
    · exact hbit
    · exact hb i hlt (by omega)
  · have hmm : (fun i => (index+1 ≤ i ∧ i < index+1+k) ∨ i = index ∨ m i) =
        fun i => (index ≤ i ∧ i < index+(k+1)) ∨ m i := by
      funext i
      rw [← or_assoc]
      exact propext (or_congr_left (by omega))
    rw [← hmm]
    exact hm

theorem bitLoop_spec {m : Nat → Prop} (n : Nat) (h : s.index+n = d.slotsCnt) (hcnt : s.cnt = n)
    (hm : Marks d s.dec m) : ∃ s', bitLoop n s = some s' ∧ BitsSet d m n s.index s' := by
  induction n generalizing s m with
  | zero => exact ⟨s,rfl,BitsSet.refl _ hcnt hm⟩
  | succ n ih =>
    have hlt : s.index < s.dec.slotsCnt := by
      rw [hm.slotsCnt]
      omega
    rw [bitLoop,field_of_lt hlt]
    simp only [Option.bind_eq_bind,Option.bind_some]
    by_cases hbit : (s.dec.fieldAt s.index).fmt ≠ Fmt.bit.code
    · rw [if_pos hbit]
      exact ⟨s,rfl,BitsSet.refl _ hcnt hm⟩
    rw [if_neg hbit]
    by_cases hend : s.codeBit = 1#8 <<< 7 ∧ s.stream.available = 0
    · rw [if_pos hend]
      exact ⟨s,rfl,BitsSet.refl _ hcnt hm⟩
    rw [if_neg hend]
    obtain ⟨hd,hc,hi⟩ := nextBit_frame s
    rw [DecodeState.setValue,if_pos (by rw [hd,hi]; exact hlt)]
    simp only [Option.bind_some]
    rw [hd,hi,hc,hcnt]
    obtain ⟨s',hs,hset⟩ := ih (s := {nextBit s with
        dec := s.dec.mark s.index
          (if (nextBit s).code &&& (nextBit s).codeBit ≠ 0#8 then 1#32 else 0#32) .byte
        upd := true
        cnt := n+1-1
        index := s.index+1})
      (by dsimp only; omega) rfl (hm.mark _ _ fun j => Iff.rfl)
    refine ⟨s',hs,hset.succ ?_⟩
    rw [← hm.fieldAt]
    exact not_not.mp hbit

theorem readBits_spec {m : Nat → Prop} (hm : Marks d s.dec m) :
    ∃ s', readBits s = some s' ∧
      (s' = s ∨ s.cnt = 0 ∧ ∃ index, s.index ≤ index ∧ index ≤ d.slotsCnt ∧
        (∀ i, s.index ≤ i → i < index → (d.fieldAt i).fmt ≠ Fmt.bit.code) ∧
        BitsSet d m (d.slotsCnt-index) index s') := by
  unfold readBits
  by_cases hgo : s.index < s.dec.slotsCnt ∧ s.stream.available > 0 ∧ s.cnt = 0
  · rw [if_pos hgo]
    have hlt := hgo.1
    rw [hm.slotsCnt] at hlt ⊢
    obtain ⟨k,hk,hf,hb⟩ := findBit_spec (s := s) (d.slotsCnt-s.index)
      (by rw [hm.slotsCnt]; omega)
    rw [hf]
    simp only [Option.bind_eq_bind,Option.bind_some]
    rw [hm.slotsCnt]
    obtain ⟨s',hs,hset⟩ := bitLoop_spec (d := d) (m := m) (s := {s with
        index := s.index+k, cnt := d.slotsCnt-(s.index+k), codeBit := 1#8 <<< 7})
      (d.slotsCnt-(s.index+k)) (by dsimp only; omega) rfl hm
    refine ⟨s',hs,Or.inr ⟨hgo.2.2,s.index+k,by omega,by omega,fun i h1 h2 => ?_,hset⟩⟩
    rw [← hm.fieldAt]
    exact hb i h1 h2
  · rw [if_neg hgo]
    exact ⟨s,rfl,Or.inl rfl⟩

/-- Slot `i` has the value and flags it had. -/
def SameSlot (d d' : TelemetryDecoder) (i : Nat) : Prop :=
  d'.value i = d.value i ∧ d'.flags i = d.flags i

structure SameClock (d d' : TelemetryDecoder) : Prop where
  ts : d'.ts = d.ts
  dtMs : d'.dtMs = d.dtMs
  timestampMs : d'.timestampMs = d.timestampMs

theorem SameClock.trans {d1 d2 d3 : TelemetryDecoder} (h : SameClock d1 d2)
    (h' : SameClock d2 d3) : SameClock d1 d3 :=
  ⟨h'.ts.trans h.ts,h'.dtMs.trans h.dtMs,h'.timestampMs.trans h.timestampMs⟩

structure Cleared (d : TelemetryDecoder) : Prop where
  slotsCnt : d.slotsCnt = 0
  value : d.value = fun _ => 0#32
  flags : d.flags = fun _ => DecFlags.zero

/-- `cnt` values are set and marked, and besides them no bitfield, or all behind these values. -/
structure Updated (d d' : TelemetryDecoder) (cnt : Nat) (marked : List Nat) : Prop where
  nodup : marked.Nodup
  length : marked.length = cnt
  slot : ∀ i ∈ marked, i < d.slotsCnt ∧ (d.fieldAt i).fmt ≠ Fmt.bit.code ∧
    (d'.flags i).upd = true
  rest : ∀ i ∉ marked, (i < d.slotsCnt → (d.fieldAt i).fmt ≠ Fmt.bit.code) → SameSlot d d' i
  bits : (∀ i < d.slotsCnt, (d.fieldAt i).fmt = Fmt.bit.code → SameSlot d d' i) ∨
    ∀ i < d.slotsCnt, (d.fieldAt i).fmt = Fmt.bit.code →
      if ∀ j ∈ marked, j < i then (d'.flags i).upd = true else SameSlot d d' i

theorem reset_cleared (d : TelemetryDecoder) (b : Bool) : Cleared (d.reset b) := ⟨rfl,rfl,rfl⟩

theorem reset_sameClock (d : TelemetryDecoder) (b : Bool) : SameClock d (d.reset b) := by
  cases b <;> exact ⟨rfl,rfl,rfl⟩

theorem Marks.sameClock {m : Nat → Prop} (h : Marks d d' m) : SameClock d d' := by
  rw [h.dec]
  exact ⟨rfl,rfl,rfl⟩

theorem Progress.updated {cnt : Nat} {marked : List Nat} (h : Progress d cnt marked s)
    (hcnt : s.cnt = 0) : Updated d s.dec cnt marked where
  nodup := h.nodup
  length := by
    have hc := h.count
    omega
  slot := fun i hi => ⟨(h.slot i hi).1,(h.slot i hi).2,h.marks.upd i hi⟩
  rest := fun i hi _ => h.marks.rest i hi
  bits := Or.inl fun i _ hb => h.marks.rest i fun hi => (h.slot i hi).2 hb

/-- The values of a frame and the bitfields behind them, when these reach to the last slot. -/
theorem Progress.updated_bits {cnt index : Nat} {marked : List Nat} (h : Progress d cnt marked s)
    (hcnt : s.cnt = 0) (hmax : ∀ i ∈ marked, i ≤ s.index)
    (hlast : s.index ∈ marked ∨ marked = [] ∧ s.index = 0)
    (hi : s.index ≤ index) (hic : index ≤ d.slotsCnt)
    (hno : ∀ i, s.index ≤ i → i < index → (d.fieldAt i).fmt ≠ Fmt.bit.code)
    (hset : BitsSet d (· ∈ marked) (d.slotsCnt-index) index s') (hend : s'.cnt = 0) :
    Updated d s'.dec cnt marked := by
  obtain ⟨k,hk,hcnt',hb,hm⟩ := hset
  have hk' : index+k = d.slotsCnt := by omega
  rw [hk'] at hb hm
  refine ⟨h.nodup,(h.updated hcnt).length,fun i him => ?_,fun i him hn => ?_,Or.inr ?_⟩
  · exact ⟨(h.slot i him).1,(h.slot i him).2,hm.upd i (Or.inr him)⟩
  · refine hm.rest i fun hor => ?_
    rcases hor with hbit | hor
    · exact hn hbit.2 (hb i hbit.1 hbit.2)
    · exact him hor
  · intro i hlt hbit
    by_cases hall : ∀ j ∈ marked, j < i
    · rw [if_pos hall]
      have hsi : s.index ≤ i := by
        rcases hlast with hl | ⟨-,h0⟩
        · exact Nat.le_of_lt (hall _ hl)
        · omega
      refine hm.upd i (Or.inl ⟨?_,hlt⟩)
      by_contra hlow
      exact hno i hsi (Nat.lt_of_not_le hlow) hbit
    · rw [if_neg hall]
      refine hm.rest i fun hor => ?_
      rcases hor with hge | hor
      · refine hall fun j hj => ?_
        have hji := hmax j hj
        have hne : j ≠ i := by
          rintro rfl
          exact (h.slot j hj).2 hbit
        omega
      · exact (h.slot i hor).2 hbit

theorem Updated.congr {d1 : TelemetryDecoder} {cnt : Nat} {marked : List Nat}
    (h : Updated d1 d' cnt marked) (hv : d1.value = d.value) (hf : d1.flags = d.flags)
    (hs : d1.slotsCnt = d.slotsCnt) (hfi : d1.fields = d.fields) : Updated d d' cnt marked := by
  have hat : ∀ i, d1.fieldAt i = d.fieldAt i := fun i => by
    unfold TelemetryDecoder.fieldAt
    rw [hfi]
  obtain ⟨h1,h2,h3,h4,h5⟩ := h
  unfold SameSlot at h4 h5
  simp only [hat,hs,hv,hf] at h3 h4 h5
  exact ⟨h1,h2,h3,h4,h5⟩

theorem decodeValues_spec (d : TelemetryDecoder) (stream : Reader) (pseq : Byte) :
    ∃ d' r ok, d.decodeValues stream pseq = some (d',r,ok) ∧ SameClock d d' ∧
      (d'.hashValid = 0 ∧ Cleared d' ∨ d' = {d with value := d'.value, flags := d'.flags} ∧
        (d' = d ∨
          r.available = 0 ∧ ∃ marked, Updated d d' (stream.rest.getD 0 0#8).toNat marked)) := by
  unfold decodeValues
  by_cases hempty : stream.available = 0
  · rw [if_pos hempty]
    exact ⟨_,_,_,rfl,⟨rfl,rfl,rfl⟩,Or.inr ⟨rfl,Or.inl rfl⟩⟩
  rw [if_neg hempty]
  dsimp only
  have hstart : Progress d stream.read8.1.toNat []
      ⟨d,stream.read8.2,stream.read8.1.toNat,0#8,1#8 <<< 6,0#8,0,false,0⟩ :=
    ⟨by simpa using Marks.refl d,by simp,List.nodup_nil,Nat.zero_add _⟩
  obtain ⟨s,marked,hs,hp,hmax,hlast⟩ := valueLoop_spec pseq (d.slotsCnt+1) hstart (by simp)
    (fun _ => ⟨rfl,rfl⟩) (Nat.zero_le _) (by dsimp only; omega)
  rw [hs]
  simp only [Option.bind_eq_bind,Option.bind_some]
  obtain ⟨s',hs',hcase⟩ := readBits_spec hp.marks
  rw [hs']
  simp only [Option.bind_some]
  have hclock : SameClock d s'.dec := by
    rcases hcase with rfl | ⟨-,index,-,-,-,k,-,-,-,hm⟩
    · exact hp.marks.sameClock
    · exact hm.sameClock
  by_cases hbad : s'.stream.available ≠ 0 ∨ s'.cnt ≠ 0
  · rw [if_pos hbad]
    exact ⟨_,_,_,rfl,hclock.trans (reset_sameClock _ _),Or.inl ⟨rfl,reset_cleared _ _⟩⟩
  rw [if_neg hbad]
  simp only [not_or,not_not] at hbad
  rw [← stream.read8_fst]
  rcases hcase with rfl | ⟨h0,index,h1,h2,h3,h4⟩
  · exact ⟨_,_,_,rfl,hclock,Or.inr ⟨hp.marks.dec,Or.inr ⟨hbad.1,marked,hp.updated hbad.2⟩⟩⟩
  · have hdec := h4
    obtain ⟨k,-,-,-,hm⟩ := hdec
    exact ⟨_,_,_,rfl,hclock,Or.inr ⟨hm.dec,Or.inr ⟨hbad.1,marked,
      hp.updated_bits h0 hmax (hlast h0) h1 h2 h3 h4 hbad.2⟩⟩⟩

theorem feedHash_slots (d : TelemetryDecoder) (seq : BitVec 2) (feed : Byte) :
    Cleared (d.feedHash seq feed) ∨
    (d.feedHash seq feed).value = d.value ∧ (d.feedHash seq feed).flags = d.flags ∧
      (d.feedHash seq feed).slotsCnt = d.slotsCnt ∧ (d.feedHash seq feed).fields = d.fields := by
  have hc : Cleared (d.collectHash seq feed) ∨
      (d.collectHash seq feed).value = d.value ∧ (d.collectHash seq feed).flags = d.flags ∧
      (d.collectHash seq feed).slotsCnt = d.slotsCnt ∧
      (d.collectHash seq feed).fields = d.fields := by
    unfold collectHash
    dsimp only
    split_ifs
    · exact Or.inl ⟨rfl,rfl,rfl⟩
    · exact Or.inr ⟨rfl,rfl,rfl,rfl⟩
    · exact Or.inr ⟨rfl,rfl,rfl,rfl⟩
    · exact Or.inr ⟨rfl,rfl,rfl,rfl⟩
  unfold feedHash
  dsimp only
  by_cases hv : (d.collectHash seq feed).hashValid > 4
  · rw [if_pos hv]
    exact Or.inl (reset_cleared _ _)
  · rw [if_neg hv]
    exact hc

section clock
variable (d : TelemetryDecoder) (ts : BitVec 16)

@[simp] theorem clock_value : (d.clock ts).value = d.value := by dsimp only [clock]

@[simp] theorem clock_flags : (d.clock ts).flags = d.flags := by dsimp only [clock]

@[simp] theorem clock_slotsCnt : (d.clock ts).slotsCnt = d.slotsCnt := by dsimp only [clock]

@[simp] theorem clock_fields : (d.clock ts).fields = d.fields := by dsimp only [clock]

@[simp] theorem clock_hash : (d.clock ts).hash = d.hash := by dsimp only [clock]

@[simp] theorem clock_hashValid : (d.clock ts).hashValid = d.hashValid := by dsimp only [clock]

theorem Cleared.clock {d : TelemetryDecoder} (h : Cleared d) : Cleared (d.clock ts) :=
  ⟨(d.clock_slotsCnt ts).trans h.slotsCnt,(d.clock_value ts).trans h.value,
    (d.clock_flags ts).trans h.flags⟩

end clock

theorem xpdrLoop_total (dict : Dictionary) (is : List (Fin xpdrDatasetSize))
    (d : TelemetryDecoder) (stream : Reader) :
    ∃ d' r ok, xpdrLoop dict is d stream = some (d',r,ok) ∧
      d' = {d with xpdrValue := d'.xpdrValue, xpdrType := d'.xpdrType} := by
  induction is generalizing d stream with
  | nil => exact ⟨_,_,_,rfl,rfl⟩
  | cons i is ih =>
    obtain ⟨sz,value,type,hu,-⟩ := unpackValue_total stream (d.xpdrValue i) (d.xpdrType i)
      (xpdrDataset dict i).fmt
    rw [xpdrLoop,hu]
    simp only [Option.bind_eq_bind,Option.bind_some]
    split_ifs
    · exact ⟨_,_,_,rfl,rfl⟩
    · exact ih _ _

theorem decodeXpdr_total (dict : Dictionary) (d : TelemetryDecoder) (stream : Reader) :
    ∃ d' r ok, d.decodeXpdr dict stream = some (d',r,ok) ∧
      d' = {d with xpdrValue := d'.xpdrValue, xpdrType := d'.xpdrType} := by
  unfold decodeXpdr
  split_ifs
  · exact ⟨_,_,_,rfl,rfl⟩
  · exact xpdrLoop_total dict _ d stream

theorem decode_kept (dict : Dictionary) (d : TelemetryDecoder) {pid : Pid} {stream : Reader}
    (h : stream.available < Hdr.psize ∨ pid.uid.setWidth 16 = dict.xpdr) :
    ∃ d' r ok, d.decode dict pid stream = some (d',r,ok) ∧ d'.value = d.value ∧
      d'.flags = d.flags ∧ d'.slotsCnt = d.slotsCnt ∧ d'.fields = d.fields ∧ d'.hash = d.hash ∧
      d'.hashValid = d.hashValid := by
  unfold decode
  by_cases hshort : stream.available < Hdr.psize
  · rw [if_pos hshort]
    exact ⟨_,_,_,rfl,rfl,rfl,rfl,rfl,rfl,rfl⟩
  have hx := h.resolve_left hshort
  rw [if_neg hshort]
  dsimp only
  rw [if_pos hx,if_pos hx]
  by_cases hver : (Hdr.read stream).1.feedHash ≠ xpdrVersion
  · rw [if_pos ⟨hx,hver⟩]
    exact ⟨_,_,_,rfl,rfl,rfl,rfl,rfl,rfl,rfl⟩
  · rw [if_neg fun h => hver h.2]
    obtain ⟨d',r,ok,hd,hkept⟩ :=
      decodeXpdr_total dict (d.clock (Hdr.read stream).1.ts) (Hdr.read stream).2
    rw [hkept] at hd
    exact ⟨_,r,ok,hd,rfl,rfl,rfl,rfl,rfl,rfl⟩

theorem decode_data (dict : Dictionary) (d : TelemetryDecoder) {pid : Pid} {stream : Reader}
    (hlen : Hdr.psize ≤ stream.available) (hx : pid.uid.setWidth 16 ≠ dict.xpdr) :
    ∃ d1, d1 = (d.feedHash pid.seq (Hdr.read stream).1.feedHash).clock (Hdr.read stream).1.ts ∧
      ((d1.hashValid = 4 ∧ d1.slotsCnt ≠ 0) ∧ d.decode dict pid stream =
          {d1 with valid := true}.decodeValues (Hdr.read stream).2 (pid.seq.setWidth 8) ∨
        ¬ (d1.hashValid = 4 ∧ d1.slotsCnt ≠ 0) ∧ ∃ valid r,
          d.decode dict pid stream = some ({d1 with valid := valid},r,false)) := by
  refine ⟨_,rfl,?_⟩
  unfold decode
  rw [if_neg (Nat.not_lt.mpr hlen)]
  dsimp only
  rw [if_neg fun h => hx h.1,if_neg hx,if_neg hx]
  generalize (d.feedHash pid.seq (Hdr.read stream).1.feedHash).clock (Hdr.read stream).1.ts = d1
  split_ifs with hval hone hzero
  · exact Or.inl ⟨hval,rfl⟩
  · exact Or.inr ⟨hval,true,_,rfl⟩
  · exact Or.inr ⟨hval,false,_,rfl⟩
  · exact Or.inr ⟨hval,false,_,rfl⟩

theorem hdr_read (stream : Reader) : (Hdr.read stream).2.rest = stream.rest.drop 3 := by
  change (stream.read16.2.read8).2.rest = _
  rw [Reader.rest_read8,Reader.rest_read16,List.drop_drop]

/-- No frame makes `decode` read behind the stream or use a slot that is not there, and it ends;
the slots are unchanged, or reset, or the stream is used up and the values it announces are set,
with no bitfield, or all that stand behind them. -/
theorem decode_all_or_nothing (dict : Dictionary) (d : TelemetryDecoder) (pid : Pid)
    (stream : Reader) :
    ∃ d' r ok, d.decode dict pid stream = some (d',r,ok) ∧
      (d'.value = d.value ∧ d'.flags = d.flags ∨ Cleared d' ∨
        r.available = 0 ∧ ∃ marked, Updated d d' (stream.rest.getD 3 0#8).toNat marked) := by
  by_cases hkept : stream.available < Hdr.psize ∨ pid.uid.setWidth 16 = dict.xpdr
  · obtain ⟨d',r,ok,hd,hv,hf,-⟩ := decode_kept dict d hkept
    exact ⟨d',r,ok,hd,Or.inl ⟨hv,hf⟩⟩
  rw [not_or,Nat.not_lt] at hkept
  obtain ⟨d1,hd1,hdec⟩ := decode_data dict d hkept.1 hkept.2
  have hslots := (feedHash_slots d pid.seq (Hdr.read stream).1.feedHash).imp
    (Cleared.clock (Hdr.read stream).1.ts) fun hs => by
      rwa [← clock_value _ (Hdr.read stream).1.ts,← clock_flags _ (Hdr.read stream).1.ts,
        ← clock_slotsCnt _ (Hdr.read stream).1.ts,← clock_fields _ (Hdr.read stream).1.ts] at hs
  rw [← hd1] at hslots
  rcases hdec with ⟨hval,hdec⟩ | ⟨-,valid,r,hdec⟩
  · obtain ⟨d',r,ok,hd,-,hcase⟩ :=
      decodeValues_spec {d1 with valid := true} (Hdr.read stream).2 (pid.seq.setWidth 8)
    refine ⟨d',r,ok,hdec.trans hd,?_⟩
    rcases hslots with hc | ⟨hv,hf,hs,hfi⟩
    · exact absurd hc.slotsCnt hval.2
    · rw [hdr_read,List.getD_eq_getElem?_getD,List.getElem?_drop,
        ← List.getD_eq_getElem?_getD] at hcase
      rcases hcase with ⟨-,hc⟩ | ⟨-,rfl | ⟨hend,marked,hup⟩⟩
      · exact Or.inr (Or.inl hc)
      · exact Or.inl ⟨hv,hf⟩
      · exact Or.inr (Or.inr ⟨hend,marked,hup.congr hv hf hs hfi⟩)
  · refine ⟨_,r,false,hdec,?_⟩
    rcases hslots with hc | hs
    · exact Or.inr (Or.inl ⟨hc.slotsCnt,hc.value,hc.flags⟩)
    · exact Or.inl ⟨hs.1,hs.2.1⟩

/-- A table with bitfields at 3 and 8, and a frame with one value, 7 slots on: of the bitfields
only the one behind the value is set. -/
theorem decode_skips_bitfield :
    ∃ d d' r, run ⟨fun _ => ⟨1#3,1#6,0#2⟩,1#16,2#16,3#16,4#16,5#16,6#16,7#16,100#16⟩
      (init (Hash.ofWord 0#32)) [.decodeFormat ⟨[2#8,0#8,1#8,27#8,250#8,37#8,47#8,113#8,
        1#8,0#8,1#8,2#8,0#8,1#8,3#8,0#8,1#8,4#8,0#8,5#8,5#8,0#8,1#8,6#8,0#8,1#8,7#8,0#8,1#8,
        8#8,0#8,1#8,9#8,0#8,5#8],0⟩ ⟨0#8,0#8,0#8,0#8,0#32⟩] = some d ∧
    d.decode ⟨fun _ => ⟨1#3,1#6,0#2⟩,1#16,2#16,3#16,4#16,5#16,6#16,7#16,100#16⟩ ⟨8#11,0#3,0#2⟩
      ⟨[0#8,0#8,250#8,1#8,0x87#8,17#8,1#8],0⟩ = some (d',r,true) ∧
    d.slotsCnt = 9 ∧ d'.slotsCnt = 9 ∧
    (∀ i ∈ List.range 9, (d.fieldAt i).fmt = Fmt.bit.code ↔ i = 3 ∨ i = 8) ∧
    (d.flags 3).upd = false ∧ d'.flags 3 = d.flags 3 ∧
    (d.flags 8).upd = false ∧ (d'.flags 8).upd = true := by
  have hrun : ((run ⟨fun _ => ⟨1#3,1#6,0#2⟩,1#16,2#16,3#16,4#16,5#16,6#16,7#16,100#16⟩
      (init (Hash.ofWord 0#32)) [.decodeFormat ⟨[2#8,0#8,1#8,27#8,250#8,37#8,47#8,113#8,
        1#8,0#8,1#8,2#8,0#8,1#8,3#8,0#8,1#8,4#8,0#8,5#8,5#8,0#8,1#8,6#8,0#8,1#8,7#8,0#8,1#8,
        8#8,0#8,1#8,9#8,0#8,5#8],0⟩ ⟨0#8,0#8,0#8,0#8,0#32⟩]).bind fun d =>
    (d.decode ⟨fun _ => ⟨1#3,1#6,0#2⟩,1#16,2#16,3#16,4#16,5#16,6#16,7#16,100#16⟩
      ⟨8#11,0#3,0#2⟩ ⟨[0#8,0#8,250#8,1#8,0x87#8,17#8,1#8],0⟩).bind fun x =>
    if x.2.2 = true ∧ d.slotsCnt = 9 ∧ x.1.slotsCnt = 9 ∧
      (∀ i ∈ List.range 9, (d.fieldAt i).fmt = Fmt.bit.code ↔ i = 3 ∨ i = 8) ∧
      (d.flags 3).upd = false ∧ x.1.flags 3 = d.flags 3 ∧
      (d.flags 8).upd = false ∧ (x.1.flags 8).upd = true then some () else none) = some () := by
    decide +kernel
  obtain ⟨d,hd,h⟩ := Option.bind_eq_some_iff.mp hrun
  obtain ⟨⟨d',r,ok⟩,hx,h⟩ := Option.bind_eq_some_iff.mp h
  split_ifs at h with hall
  obtain ⟨rfl,hall⟩ := hall
  exact ⟨d,d',r,hd,hx,hall⟩

end TelemetryDecoder

end ApxBus.Telemetry
