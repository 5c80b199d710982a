import ApxBus.Telemetry.EncoderSend
import ApxBus.Telemetry.Wire
set_option autoImplicit false

/-! The bytes that the loop of the encoder over the values writes. -/

namespace ApxBus.Telemetry
open Function Mandala Real32

namespace TelemetryEncoder
variable {val : Nat → Option Packed} {pre : List Byte} {n : Nat} {s s' : EncodeState}

theorem writeOffset_holds (k fuel d offset : Nat) {w : Writer} {o : List Byte}
    (hk : d/0x7F = k) (hf : k+2 ≤ fuel) (hd : d > 0 ∨ offset = 0x7F) (h : w.Holds n o)
    (hroom : o.length+k+1 ≤ n) :
    ∃ w', writeOffset fuel d offset w = some w' ∧ w'.Holds n (o ++ offsetBytes d) := by
  induction k generalizing fuel d offset w o with
  | zero =>
    obtain ⟨fuel,rfl⟩ := Nat.exists_eq_add_of_le' hf
    have hlt : d < 0x7F := by omega
    have hgt : ¬ d > 0x7F := by omega
    have hend : ¬ (d-d > 0 ∨ d = 0x7F) := by omega
    rw [writeOffset,if_pos hd,if_neg hgt,writeOffset,if_neg hend,offsetBytes_small hlt]
    exact ⟨_,rfl,h.writeT _ hroom⟩
  | succ k ih =>
    obtain ⟨fuel,rfl⟩ := Nat.exists_eq_add_of_le' (Nat.one_le_of_lt hf)
    have hoff : (if d > 0x7F then 0x7F else d) = 0x7F := by split_ifs <;> omega
    rw [writeOffset,if_pos hd,hoff]
    obtain ⟨w',hw',hh⟩ := ih fuel (d-0x7F) _ (by omega) (by omega) (Or.inr rfl)
      (h.writeT [0xFF#8] (by rw [List.length_singleton]; omega))
      (by rw [List.length_append,List.length_singleton]; omega)
    refine ⟨w',hw',?_⟩
    have hd' : offsetBytes d = 0xFF#8 :: offsetBytes (d-0x7F) := by
      rw [← offsetBytes_add,Nat.sub_add_cancel (by omega)]
    rw [hd']
    rw [List.append_assoc] at hh
    exact hh

def packedOf (f : Field) (buf : BitVec 32) (sz : Nat) : Packed :=
  if f.fmt = Fmt.u4.code then .nibble (buf.setWidth 8 &&& 0x0F#8)
  else .bytes ((bytes32 buf).take sz)

/-- Behind `o` are the values `ps` of a code. -/
structure Values (n : Nat) (o : List Byte) (ps : List Packed) (s : EncodeState) : Prop where
  holds : s.stream.Holds n (o ++ payload ps)
  half : halfFull ps = decide (s.nibbleN ≠ 0)
  nibble : s.nibbleN ≠ 0 → s.nibble+1 = s.stream.pos ∧ s.posData = s.stream.pos

theorem Values.nibbleN_eq {o : List Byte} {ps : List Packed} (h : Values n o ps s) :
    s.nibbleN = 0 ↔ halfFull ps = false := by
  rw [h.half]
  simp

theorem writeValue_values {o : List Byte} {ps : List Packed} (h : Values n o ps s) (f : Field)
    (buf : BitVec 32) (sz : Nat) (hroom : s.stream.pos+4 ≤ n) :
    ∃ s', writeValue f buf sz s = some s' ∧ Values n o (ps ++ [packedOf f buf sz]) s' ∧
      s'.posData = s'.stream.pos ∧ s'.stream.pos ≤ s.stream.pos+4 ∧ s'.code = s.code ∧
      s'.codeBit = s.codeBit ∧ s'.codeZero = s.codeZero := by
  have hpos := h.holds.pos
  have hfit : ∀ data : List Byte, data.length ≤ 4 →
      s.stream.pos+data.length ≤ s.stream.size := by
    intro data hd
    rw [h.holds.size]
    omega
  unfold writeValue packedOf
  by_cases hu : f.fmt = Fmt.u4.code
  · rw [if_pos hu,if_pos hu]
    dsimp only
    generalize buf.setWidth 8 &&& 0x0F#8 = v
    rcases payload_snoc_nibble ps v with ⟨h1,h2,h3⟩ | ⟨h1,⟨p,x,h2,h3⟩,h4⟩
    · rw [if_pos (h.nibbleN_eq.mpr h1)]
      have hp := Writer.pos_writeT (hfit [v] (by simp))
      have hw := h.holds.writeT [v] (by rw [← hpos]; exact h.holds.size ▸ hfit _ (by simp))
      rw [List.append_assoc,← h2] at hw
      exact ⟨_,rfl,⟨hw,h3,fun _ => ⟨hp.symm,rfl⟩⟩,rfl,by dsimp only; rw [hp]; simp,rfl,rfl,rfl⟩
    · have hn : s.nibbleN ≠ 0 := by
        rw [Ne,h.nibbleN_eq,h1]
        decide
      rw [if_neg hn]
      obtain ⟨hnib,hdata⟩ := h.nibble hn
      have hh := h.holds
      rw [h2,← List.append_assoc] at hh
      have hlen : s.nibble = (o ++ p).length := by
        rw [hpos,h2] at hnib
        simp only [List.length_append,List.length_singleton] at hnib ⊢
        omega
      rw [hlen]
      obtain ⟨w',hw',hh'⟩ := hh.modifyAt (· ||| v <<< 4)
      have hp : w'.pos = s.stream.pos := by
        rw [hh'.pos,hh.pos]
        simp only [List.length_append,List.length_singleton]
      rw [hw']
      rw [List.append_assoc,← h3] at hh'
      exact ⟨_,rfl,⟨hh',h4,fun h0 => absurd rfl h0⟩,hdata.trans hp.symm,by dsimp only; omega,
        rfl,rfl,rfl⟩
  · rw [if_neg hu,if_neg hu]
    dsimp only
    have hlen : ((bytes32 buf).take sz).length ≤ 4 := List.length_take_le' _ _
    generalize (bytes32 buf).take sz = b at hlen
    obtain ⟨h1,h2⟩ := payload_snoc_bytes ps b
    have hw := h.holds.write b (by rw [← hpos]; exact h.holds.size ▸ hfit _ hlen)
    rw [List.append_assoc,← h1] at hw
    refine ⟨_,rfl,⟨hw,h2,fun h0 => absurd rfl h0⟩,rfl,?_,rfl,rfl,rfl⟩
    dsimp only
    rw [Writer.write_fits (hfit b hlen)]
    dsimp only
    omega

theorem Values.modify {p q : List Byte} {x : Byte} {ps : List Packed}
    (h : Values n (p ++ x :: q) ps s) (f : Byte → Byte) :
    ∃ w, s.stream.modifyAt p.length f = some w ∧ w.pos = s.stream.pos ∧
      Values n (p ++ f x :: q) ps {s with stream := w} := by
  have hh := h.holds
  rw [List.append_assoc,List.cons_append] at hh
  obtain ⟨w,hw,hh'⟩ := hh.modifyAt f
  have hp : w.pos = s.stream.pos := by
    rw [hh'.pos,hh.pos]
    simp only [List.length_append,List.length_cons]
  refine ⟨w,hw,hp,⟨?_,h.half,fun hn => ?_⟩⟩
  · rw [List.append_assoc,List.cons_append]
    exact hh'
  · dsimp only
    rw [hp]
    exact h.nibble hn

section
variable (val pre n)

def counted (evs : List Nat) : Byte := BitVec.ofNat 8 (evs.filterMap val).length

/-- Behind the codes of the slots `done` is one of the slots `cur`, which has a value. -/
structure InGroup (done cur : List Nat) (wd : List Byte) (s : EncodeState) : Prop where
  closed : Closed val done wd
  some : ∃ i ∈ cur, (val i).isSome
  le : cur.length ≤ 7
  values : Values n (pre ++ counted val (done ++ cur) :: (wd ++ [presence val cur]))
    (cur.filterMap val) s
  code : s.code = pre.length+1+wd.length
  codeZero : s.codeZero = 0
  posData : s.posData = s.stream.pos

/-- Behind the codes of the slots `done` are those of the slots `l`, all zero so far. -/
structure InZeros (done l : List Nat) (wd : List Byte) (s : EncodeState) : Prop where
  closed : Closed val done wd
  holds : s.stream.Holds n
    (pre ++ counted val done :: (wd ++ List.replicate ((l.length+6)/7) 0#8))
  codeZero : s.codeZero = (l.length+6)/7
  codeBit : s.codeBit = 1#8 <<< ((l.length+6)%7)
  codeIndex : ∀ z, l.head? = .some z → s.codeIndex = z
  code : l ≠ [] → s.code+1 = s.stream.pos
  nibbleN : l ≠ [] → s.nibbleN = 0
  posData : s.posData = pre.length+1+wd.length

/-- The slots `evs` that pass the filter are written. -/
def Written (evs : List Nat) (s : EncodeState) : Prop :=
  (∃ done cur wd, evs = done ++ cur ∧ InGroup val pre n done cur wd s ∧
    s.codeBit = 1#8 <<< (cur.length-1)) ∨
  ∃ done zs wd, evs = done ++ zs ∧ InZeros val pre n done zs wd s ∧ ∀ z ∈ zs, val z = none

end

theorem counted_append {done zs : List Nat} (h : ∀ z ∈ zs, val z = none) :
    counted val (done ++ zs) = counted val done := by
  rw [counted,List.filterMap_append,List.filterMap_eq_nil_iff.mpr h,List.append_nil]
  rfl

theorem counted_snoc {evs : List Nat} {i : Nat} {p : Packed} (h : val i = some p) :
    counted val (evs ++ [i]) = counted val evs+1#8 := by
  rw [counted,List.filterMap_append,List.filterMap_cons_some h,List.length_append,
    BitVec.ofNat_add]
  rfl

theorem presence_snoc {cur : List Nat} (h : cur.length < 7) (i : Nat) :
    presence val (cur ++ [i]) = if (val i).isSome then presence val cur ||| 1#8 <<< cur.length
      else presence val cur := by
  rw [presence,List.map_append,List.map_singleton,bitByte_snoc (by rw [List.length_map]; omega),
    List.length_map]
  rfl

theorem presence_none {zs : List Nat} (h : ∀ z ∈ zs, val z = none) : presence val zs = 0#8 := by
  refine bitByte_of_false fun b hb => ?_
  obtain ⟨z,hz,rfl⟩ := List.mem_map.mp hb
  rw [h z hz]
  rfl

theorem shiftBit_succ (k : Nat) : 1#8 <<< k <<< 1 = 1#8 <<< (k+1) :=
  (BitVec.shiftLeft_add _ _ _).symm

variable {done cur l zs : List Nat} {wd : List Byte} {index : Nat}

theorem InGroup.full (h : InGroup val pre n done cur wd s) (hl : cur.length = 7)
    (hbit : s.codeBit = 1#8 <<< (cur.length-1)) :
    InZeros val pre n (done ++ cur) [] (wd ++ (presence val cur :: payload (cur.filterMap val)))
      s where
  closed := h.closed.group hl h.some
  holds := by
    have hh := h.values.holds
    simp only [List.append_assoc,List.cons_append,List.nil_append,List.length_nil,Nat.reduceAdd,
      Nat.reduceDiv,List.replicate_zero,List.append_nil] at hh ⊢
    exact hh
  codeZero := h.codeZero
  codeBit := by
    rw [hbit,hl]
    rfl
  codeIndex := fun z hz => by cases hz
  code := fun hn => absurd rfl hn
  nibbleN := fun hn => absurd rfl hn
  posData := by
    rw [h.posData,h.values.holds.pos]
    simp only [List.length_append,List.length_cons,List.length_nil]
    omega

theorem InZeros.next (h : InZeros val pre n done l wd s) (hroom : s.stream.pos+1 ≤ n)
    (index : Nat) : InZeros val pre n done (l ++ [index]) wd (nextBit index s) ∧
      (nextBit index s).stream.pos ≤ s.stream.pos+1 := by
  have hlen : (l ++ [index]).length = l.length+1 := List.length_append
  have hhead : ∀ z, l ≠ [] → (l ++ [index]).head? = some z → s.codeIndex = z := by
    intro z hl hz
    rw [List.head?_append_of_ne_nil _ hl] at hz
    exact h.codeIndex z hz
  unfold nextBit
  by_cases hbit : s.codeBit = 1#8 <<< 6
  · rw [if_pos hbit]
    rw [h.codeBit,shiftBit_eq_iff (by omega)] at hbit
    have hfit : s.stream.pos+[0#8].length ≤ s.stream.size := by
      rw [h.holds.size]
      exact hroom
    have hp := Writer.pos_writeT hfit
    have hk : ((l ++ [index]).length+6)/7 = (l.length+6)/7+1 := by omega
    have hw := h.holds.writeT [0#8] (by rw [← h.holds.pos]; exact hroom)
    refine ⟨⟨h.closed,?_,?_,?_,?_,fun _ => hp.symm,fun _ => rfl,h.posData⟩,hp.le⟩
    · rw [hk,List.replicate_succ']
      simp only [List.append_assoc,List.cons_append] at hw ⊢
      exact hw
    · rw [hk,← h.codeZero]
    · rw [hlen,show (l.length+1+6)%7 = 0 by omega]
      rfl
    · intro z hz
      dsimp only
      cases l with
      | nil =>
        have h0 : s.codeZero = 0 := h.codeZero
        rw [if_pos h0]
        exact Option.some.inj hz
      | cons z0 l =>
        rw [if_neg (by rw [h.codeZero,List.length_cons]; omega)]
        exact hhead z (List.cons_ne_nil _ _) hz
  · rw [if_neg hbit]
    rw [h.codeBit,shiftBit_eq_iff (by omega)] at hbit
    have hl : l ≠ [] := by
      rintro rfl
      exact hbit rfl
    have hk : ((l ++ [index]).length+6)/7 = (l.length+6)/7 := by omega
    refine ⟨⟨h.closed,?_,?_,?_,fun z hz => hhead z hl hz,fun _ => h.code hl,
      fun _ => h.nibbleN hl,h.posData⟩,Nat.le_succ _⟩
    · rw [hk]
      exact h.holds
    · rw [hk]
      exact h.codeZero
    · dsimp only
      rw [h.codeBit,shiftBit_succ]
      congr 1
      omega

theorem InGroup.next (h : InGroup val pre n done cur wd s) (hlt : cur.length < 7)
    (hbit : s.codeBit = 1#8 <<< (cur.length-1)) (index : Nat) :
    InGroup val pre n done cur wd (nextBit index s) ∧
      (nextBit index s).codeBit = 1#8 <<< cur.length ∧ (nextBit index s).stream = s.stream := by
  have hpos : cur.length ≠ 0 := by
    obtain ⟨i,hi,-⟩ := h.some
    exact (List.length_pos_of_mem hi).ne'
  have hne : s.codeBit ≠ 1#8 <<< 6 := by
    rw [hbit,Ne,shiftBit_eq_iff (by omega)]
    omega
  unfold nextBit
  rw [if_neg hne]
  refine ⟨⟨h.closed,h.some,h.le,⟨h.values.holds,h.values.half,h.values.nibble⟩,h.code,h.codeZero,
    h.posData⟩,?_,rfl⟩
  dsimp only
  rw [hbit,shiftBit_succ]
  congr 1
  omega

theorem InGroup.absent (h : InGroup val pre n done cur wd s) (hlt : cur.length < 7)
    (hv : val index = none) : InGroup val pre n done (cur ++ [index]) wd s := by
  have hc : counted val (done ++ cur ++ [index]) = counted val (done ++ cur) :=
    counted_append (by simpa using hv)
  have hp : presence val (cur ++ [index]) = _ := presence_snoc hlt index
  rw [hv] at hp
  have hf : (cur ++ [index]).filterMap val = cur.filterMap val := by
    rw [List.filterMap_append,List.filterMap_cons_none hv]
    exact List.append_nil _
  refine ⟨h.closed,?_,?_,?_,h.code,h.codeZero,h.posData⟩
  · obtain ⟨i,hi,hs⟩ := h.some
    exact ⟨i,List.mem_append_left _ hi,hs⟩
  · rw [List.length_append]
    exact hlt
  · rw [hf,← List.append_assoc done,hc,hp]
    exact h.values

section
variable (val pre n)

/-- The next bit of the code of the slots `cur` is that of a slot with a value. -/
structure Coding (done cur : List Nat) (wd : List Byte) (s : EncodeState) : Prop where
  closed : Closed val done wd
  lt : cur.length < 7
  values : Values n (pre ++ counted val (done ++ cur) :: (wd ++ [presence val cur]))
    (cur.filterMap val) s
  code : s.code = pre.length+1+wd.length
  codeZero : s.codeZero < 2
  codeBit : s.codeBit = 1#8 <<< cur.length

end

theorem InGroup.coding (h : InGroup val pre n done cur wd s) (hlt : cur.length < 7)
    (hbit : s.codeBit = 1#8 <<< cur.length) : Coding val pre n done cur wd s :=
  ⟨h.closed,hlt,h.values,h.code,by rw [h.codeZero]; decide,hbit⟩

theorem InZeros.coding (h : InZeros val pre n done (zs ++ [index]) wd s) (hlt : zs.length < 7)
    (hn : ∀ z ∈ zs, val z = none) : Coding val pre n done zs wd s := by
  have hl : (zs ++ [index]).length = zs.length+1 := List.length_append
  have hne : zs ++ [index] ≠ [] := List.append_ne_nil_of_right_ne_nil _ (List.cons_ne_nil _ _)
  have hk : ((zs ++ [index]).length+6)/7 = 1 := by omega
  have hnil : zs.filterMap val = [] := List.filterMap_eq_nil_iff.mpr hn
  have hh := h.holds
  rw [hk] at hh
  have hpos := hh.pos
  refine ⟨h.closed,hlt,?_,?_,?_,?_⟩
  · rw [counted_append hn,presence_none hn,hnil]
    refine ⟨?_,?_,fun h0 => absurd (h.nibbleN hne) h0⟩
    · rw [payload,List.append_nil]
      exact hh
    · rw [h.nibbleN hne]
      rfl
  · have hcode := h.code hne
    simp only [List.length_append,List.length_cons,List.length_replicate] at hpos
    omega
  · rw [h.codeZero,hk]
    decide
  · rw [h.codeBit]
    congr 1
    omega

theorem Coding.writeCode (h : Coding val pre n done cur wd s) (hv : (val index).isSome) :
    ∃ s1, writeCode index s = some s1 ∧
      Values n (pre ++ counted val (done ++ cur) :: (wd ++ [presence val (cur ++ [index])]))
        (cur.filterMap val) s1 ∧
      s1.stream.pos = s.stream.pos ∧ s1.code = s.code ∧ s1.codeBit = s.codeBit := by
  have hval := h.values
  rw [← List.cons_append,← List.append_assoc] at hval
  obtain ⟨w,hw,hp,hval⟩ := hval.modify (· ||| s.codeBit)
  have hcode : (pre ++ counted val (done ++ cur) :: wd).length = s.code := by
    rw [h.code,List.length_append,List.length_cons]
    omega
  rw [hcode] at hw
  refine ⟨{s with stream := w},?_,?_,hp,rfl,rfl⟩
  · unfold TelemetryEncoder.writeCode
    rw [if_neg (by have := h.codeZero; omega),hw]
    rfl
  · rw [List.append_assoc,List.cons_append] at hval
    rw [presence_snoc h.lt,if_pos hv,← h.codeBit]
    exact hval

theorem sendValue_values {s1 : EncodeState} {q : List Byte} {c : Byte} {ps : List Packed}
    (h1 : writeCode index s = some s1) (hval : Values n (pre ++ c :: q) ps s1)
    (hroom : s1.stream.pos+4 ≤ n) (f : Field) (buf : BitVec 32) (sz : Nat) :
    ∃ s', sendValue pre.length index f buf sz s = some s' ∧
      Values n (pre ++ (c+1#8) :: q) (ps ++ [packedOf f buf sz]) s' ∧
      s'.posData = s'.stream.pos ∧ s'.stream.pos ≤ s1.stream.pos+4 ∧ s'.code = s1.code ∧
      s'.codeBit = s1.codeBit ∧ s'.codeZero = 0 := by
  obtain ⟨s2,h2,hval2,hdata,hpos,hcode,hbit,-⟩ := writeValue_values hval f buf sz hroom
  obtain ⟨w,hw,hp,hval3⟩ := hval2.modify (·+1#8)
  refine ⟨{s2 with stream := w, codeZero := 0, sent := s2.sent ++ [(index,buf)]},?_,
    ⟨hval3.holds,hval3.half,hval3.nibble⟩,hdata.trans hp.symm,hp.trans_le hpos,hcode,hbit,rfl⟩
  unfold sendValue
  rw [h1]
  simp only [Option.bind_eq_bind,Option.bind_some]
  rw [h2]
  simp only [Option.bind_some]
  rw [hw]
  rfl

theorem Coding.send (h : Coding val pre n done cur wd s) {f : Field} {buf : BitVec 32} {sz : Nat}
    (hv : val index = some (packedOf f buf sz)) (hroom : s.stream.pos+4 ≤ n) :
    ∃ s', sendValue pre.length index f buf sz s = some s' ∧
      InGroup val pre n done (cur ++ [index]) wd s' ∧ s'.codeBit = 1#8 <<< cur.length ∧
      s'.stream.pos ≤ s.stream.pos+4 := by
  have hsome : (val index).isSome := by
    rw [hv]
    rfl
  obtain ⟨s1,h1,hval,hp,hcode,hbit⟩ := h.writeCode hsome
  obtain ⟨s',hs,hval',hdata,hpos,hcode',hbit',hz⟩ :=
    sendValue_values h1 hval (by rw [hp]; exact hroom) f buf sz
  have hf : (cur ++ [index]).filterMap val = cur.filterMap val ++ [packedOf f buf sz] := by
    rw [List.filterMap_append,List.filterMap_cons_some hv]
    rfl
  refine ⟨s',hs,⟨h.closed,?_,?_,?_,?_,hz,hdata⟩,hbit'.trans (hbit.trans h.codeBit),hp ▸ hpos⟩
  · exact ⟨index,List.mem_append_right _ (List.mem_singleton_self _),hsome⟩
  · rw [List.length_append]
    exact h.lt
  · rw [hf,← List.append_assoc done,counted_snoc hv]
    exact hval'
  · exact hcode'.trans (hcode.trans h.code)

/-- The zero codes are replaced by the distance to the slot. -/
theorem InZeros.skip {z : Nat} (h : InZeros val pre n done (z :: zs ++ [index]) wd s)
    (hlen : 7 ≤ (z :: zs).length) (hn : ∀ j ∈ z :: zs, val j = none) (hz : z+7 ≤ index)
    (hi : index < z+240) {f : Field} {buf : BitVec 32} {sz : Nat}
    (hv : val index = some (packedOf f buf sz)) (hroom : s.stream.pos+4 ≤ n) :
    ∃ s', sendValue pre.length index f buf sz s = some s' ∧
      InZeros val pre n (done ++ (z :: zs ++ [index])) []
        (wd ++ (offsetBytes (index-z) ++ payload [packedOf f buf sz])) s' ∧
      s'.stream.pos ≤ s.stream.pos+4 := by
  have hne : z :: zs ++ [index] ≠ [] := List.cons_ne_nil _ _
  have hlen' : (z :: zs ++ [index]).length = (z :: zs).length+1 := List.length_append
  obtain ⟨k,hk⟩ : ∃ k, ((z :: zs ++ [index]).length+6)/7 = k+2 :=
    ⟨((z :: zs ++ [index]).length+6)/7-2,by omega⟩
  have hcz := h.codeZero
  have hh := h.holds
  rw [hk] at hcz hh
  have hpos := hh.pos
  simp only [List.length_append,List.length_cons,List.length_replicate] at hpos
  have hbase : s.stream.pos-s.codeZero = (pre ++ counted val done :: wd).length := by
    rw [List.length_append,List.length_cons]
    omega
  rw [← List.cons_append,← List.append_assoc] at hh
  have hreset := hh.reset
  rw [← hbase] at hreset
  have hdi : (index-z)/0x7F ≤ 1 := by omega
  obtain ⟨w,hw,hhw⟩ := writeOffset_holds ((index-z)/0x7F) 4 (index-z)
    (index-z) rfl (by omega) (Or.inl (by omega)) hreset (by omega)
  have h1 : TelemetryEncoder.writeCode index s =
      some {s with stream := w, codeBit := 1#8 <<< 6} := by
    unfold TelemetryEncoder.writeCode
    rw [if_pos (by omega),if_pos (by omega),h.codeIndex z rfl]
    simp only [Option.bind_eq_bind]
    rw [hw]
    rfl
  have hval : Values n (pre ++ counted val done :: (wd ++ offsetBytes (index-z))) []
      {s with stream := w, codeBit := 1#8 <<< 6} := by
    refine ⟨?_,?_,fun h0 => absurd (h.nibbleN hne) h0⟩
    · rw [payload,List.append_nil]
      rw [List.append_assoc,List.cons_append] at hhw
      exact hhw
    · dsimp only
      rw [h.nibbleN hne]
      rfl
  have hwp : w.pos ≤ s.stream.pos := by
    rw [hhw.pos,List.length_append,← hbase,offsetBytes,List.length_append,List.length_replicate,
      List.length_singleton]
    omega
  obtain ⟨s',hs,hval',hdata,hpos',hcode,hbit,hzero⟩ :=
    sendValue_values h1 hval (by dsimp only; omega) f buf sz
  have hc : counted val (done ++ (z :: zs ++ [index])) = counted val done+1#8 := by
    rw [← List.append_assoc,counted_snoc hv,counted_append hn]
  have hh' := hval'.holds
  rw [List.nil_append,List.append_assoc,List.cons_append,List.append_assoc] at hh'
  refine ⟨s',hs,⟨h.closed.skip hlen hz hi hn hv,?_,hzero,hbit,?_,
    fun h0 => absurd rfl h0,fun h0 => absurd rfl h0,?_⟩,by dsimp only at hpos'; omega⟩
  · rw [hc]
    simp only [List.length_nil,Nat.reduceAdd,Nat.reduceDiv,List.replicate_zero,List.append_nil]
    exact hh'
  · intro _ h0
    cases h0
  · rw [hdata,hh'.pos]
    simp only [List.length_append,List.length_cons]
    omega

section
variable (val pre n)

/-- The bit of the slot `index` is the next one. -/
def Begun (evs : List Nat) (index : Nat) (s : EncodeState) : Prop :=
  (∃ done cur wd, evs = done ++ cur ∧ cur.length < 7 ∧ InGroup val pre n done cur wd s ∧
    s.codeBit = 1#8 <<< cur.length) ∨
  ∃ done zs wd, evs = done ++ zs ∧ (∀ z ∈ zs, val z = none) ∧
    InZeros val pre n done (zs ++ [index]) wd s

end

variable {evs : List Nat}

theorem Written.next (h : Written val pre n evs s) (hroom : s.stream.pos+1 ≤ n) (index : Nat) :
    Begun val pre n evs index (nextBit index s) ∧
      (nextBit index s).stream.pos ≤ s.stream.pos+1 := by
  rcases h with ⟨done,cur,wd,rfl,hg,hbit⟩ | ⟨done,zs,wd,rfl,hz,hn⟩
  · by_cases hfull : cur.length = 7
    · obtain ⟨hz,hp⟩ := (hg.full hfull hbit).next hroom index
      exact ⟨Or.inr ⟨done ++ cur,[],_,(List.append_nil _).symm,List.forall_mem_nil _,hz⟩,hp⟩
    · have hlt : cur.length < 7 := Nat.lt_of_le_of_ne hg.le hfull
      obtain ⟨hg',hbit',hp⟩ := hg.next hlt hbit index
      exact ⟨Or.inl ⟨done,cur,wd,rfl,hlt,hg',hbit'⟩,hp ▸ Nat.le_succ _⟩
  · obtain ⟨hz',hp⟩ := hz.next hroom index
    exact ⟨Or.inr ⟨done,zs,wd,rfl,hn,hz'⟩,hp⟩

theorem Begun.absent (h : Begun val pre n evs index s) (hv : val index = none) :
    Written val pre n (evs ++ [index]) s := by
  rcases h with ⟨done,cur,wd,rfl,hlt,hg,hbit⟩ | ⟨done,zs,wd,rfl,hn,hz⟩
  · refine Or.inl ⟨done,cur ++ [index],wd,List.append_assoc _ _ _,hg.absent hlt hv,?_⟩
    rw [hbit,List.length_append]
    rfl
  · refine Or.inr ⟨done,zs ++ [index],wd,List.append_assoc _ _ _,hz,fun z hz => ?_⟩
    rcases List.mem_append.mp hz with hz | hz
    · exact hn z hz
    · rw [List.mem_singleton.mp hz]
      exact hv

theorem head_add_le {z i : Nat} {zs : List Nat} (h : (z :: zs ++ [i]).Pairwise (· < ·)) :
    z+(z :: zs).length ≤ i := by
  induction zs generalizing z with
  | nil =>
    have := (List.pairwise_cons.mp h).1 i (List.mem_singleton_self i)
    exact this
  | cons y zs ih =>
    obtain ⟨h1,h2⟩ := List.pairwise_cons.mp h
    have hy := h1 y List.mem_cons_self
    have hle := ih h2
    simp only [List.length_cons] at hle ⊢
    omega

theorem Begun.send (h : Begun val pre n evs index s) (hevs : (evs ++ [index]).Pairwise (· < ·))
    (hi : index < slotsSize) {f : Field} {buf : BitVec 32} {sz : Nat}
    (hv : val index = some (packedOf f buf sz)) (hroom : s.stream.pos+4 ≤ n) :
    ∃ s', sendValue pre.length index f buf sz s = some s' ∧
      Written val pre n (evs ++ [index]) s' ∧ s'.stream.pos ≤ s.stream.pos+4 := by
  have hclose : ∀ {done cur : List Nat} {wd : List Byte}, Coding val pre n done cur wd s →
      ∃ s', sendValue pre.length index f buf sz s = some s' ∧
        Written val pre n (done ++ cur ++ [index]) s' ∧ s'.stream.pos ≤ s.stream.pos+4 := by
    intro done cur wd hc
    obtain ⟨s',hs,hg,hbit,hp⟩ := hc.send hv hroom
    refine ⟨s',hs,Or.inl ⟨done,cur ++ [index],wd,List.append_assoc _ _ _,hg,?_⟩,hp⟩
    rw [hbit,List.length_append]
    rfl
  rcases h with ⟨done,cur,wd,rfl,hlt,hg,hbit⟩ | ⟨done,zs,wd,rfl,hn,hz⟩
  · exact hclose (hg.coding hlt hbit)
  · by_cases hlt : zs.length < 7
    · exact hclose (hz.coding hlt hn)
    · cases zs with
      | nil => exact absurd (Nat.zero_lt_succ 6) hlt
      | cons z zs =>
        rw [List.append_assoc] at hevs ⊢
        have hle := head_add_le (List.pairwise_append.mp hevs).2.1
        have hi' : index < 240 := hi
        obtain ⟨s',hs,hz',hp⟩ := hz.skip (by omega) hn (by omega) (by omega) hv hroom
        exact ⟨s',hs,Or.inr ⟨_,[],_,(List.append_nil _).symm,hz',List.forall_mem_nil _⟩,hp⟩

theorem Begun.setEnc (h : Begun val pre n evs index s) (e : TelemetryEncoder) :
    Begun val pre n evs index {s with enc := e} := by
  rcases h with ⟨done,cur,wd,rfl,hlt,hg,hbit⟩ | ⟨done,zs,wd,rfl,hn,hz⟩
  · exact Or.inl ⟨done,cur,wd,rfl,hlt,⟨hg.closed,hg.some,hg.le,
      ⟨hg.values.holds,hg.values.half,hg.values.nibble⟩,hg.code,hg.codeZero,hg.posData⟩,hbit⟩
  · exact Or.inr ⟨done,zs,wd,rfl,hn,⟨hz.closed,hz.holds,hz.codeZero,hz.codeBit,hz.codeIndex,
      hz.code,hz.nibbleN,hz.posData⟩⟩

theorem Written.finish (h : Written val pre n evs s) :
    ∃ w, Wire val evs w ∧ (s.stream.reset s.posData).Holds n (pre ++ counted val evs :: w) ∧
      (s.stream.reset s.posData).pos ≤ s.stream.pos := by
  rcases h with ⟨done,cur,wd,rfl,hg,-⟩ | ⟨done,zs,wd,rfl,hz,hn⟩
  · have hr := hg.values.holds.reset_pos
    rw [← hg.posData] at hr
    refine ⟨_,hg.closed _ _ (.last hg.le hg.some),?_,?_⟩
    · simp only [List.append_assoc,List.cons_append,List.nil_append] at hr
      exact hr
    · rw [hr.pos,hg.values.holds.pos]
  · have hh := hz.holds
    rw [← List.cons_append,← List.append_assoc] at hh
    have hr := hh.reset
    have hp : s.posData = (pre ++ counted val done :: wd).length := by
      rw [hz.posData,List.length_append,List.length_cons]
      omega
    rw [← hp] at hr
    refine ⟨wd ++ [],hz.closed _ _ (.nil hn),?_,?_⟩
    · rw [counted_append hn,List.append_nil]
      exact hr
    · rw [hr.pos,hh.pos,@List.length_append _ _ (List.replicate _ _)]
      exact Nat.le_add_right _ _

section Loop
variable {casts : Casts} {garbage : Nat → BitVec 32} {pseq : Byte} {slots : Nat → EncSlot}

def valueOf (casts : Casts) (garbage : Nat → BitVec 32) (pseq : Byte) (slots : Nat → EncSlot)
    (i : Nat) : Option Packed :=
  if Sends casts (garbage i) pseq (slots i) then
    some (packedOf (slots i).field (rawOf casts (garbage i) (slots i))
      (packValue casts (slots i).value (slots i).flags.type (slots i).field.fmt).length)
  else none

theorem Written.encodeValue (h : Written (valueOf casts garbage pseq slots) pre n evs s)
    (hevs : (evs ++ [index]).Pairwise (· < ·)) (hi : index < slotsSize)
    (hp : passes (slots index).field pseq) (hroom : s.stream.pos+5 ≤ n) :
    ∃ s', encodeValue casts garbage pre.length index (slots index) s = some s' ∧
      Written (valueOf casts garbage pseq slots) pre n (evs ++ [index]) s' ∧
      s'.stream.pos ≤ s.stream.pos+5 := by
  obtain ⟨hb,hpos⟩ := h.next (by omega) index
  unfold TelemetryEncoder.encodeValue
  generalize nextBit index s = s1 at hb hpos
  dsimp only
  have hset : ∀ x : EncSlot, s1.enc.setSlot index x =
      some {s1.enc with slots := Function.update s1.enc.slots index x} := fun x => if_pos hi
  by_cases hu : (slots index).flags.upd = true
  · rw [if_pos hu]
    have hf : flagged pseq (slots index) := ⟨hp,hu⟩
    change ∃ s', (if _ ≠ rawOf casts (garbage index) (slots index) then _ else _) = _ ∧ _
    by_cases hne : (slots index).packed ≠ rawOf casts (garbage index) (slots index)
    · rw [if_pos hne,hset]
      have hv : valueOf casts garbage pseq slots index = some _ := if_pos ⟨hf,hne⟩
      obtain ⟨s',hs,hw,hp'⟩ := (hb.setEnc _).send hevs hi hv (by dsimp only; omega)
      exact ⟨s',hs,hw,by dsimp only at hp'; omega⟩
    · rw [if_neg hne,hset]
      have hv : valueOf casts garbage pseq slots index = none := if_neg fun hc => hne hc.2
      exact ⟨_,rfl,(hb.setEnc _).absent hv,by dsimp only; omega⟩
  · rw [if_neg hu]
    have hv : valueOf casts garbage pseq slots index = none := if_neg fun hc => hu hc.1.2
    exact ⟨_,rfl,hb.absent hv,by omega⟩

theorem valueLoop_written (m index : Nat)
    (h : Written (valueOf casts garbage pseq slots) pre n evs s)
    (hslots : ∀ i, index ≤ i → s.enc.slots i = slots i) (hevs : evs.Pairwise (· < ·))
    (hlt : ∀ j ∈ evs, j < index) (hm : index+m ≤ slotsSize) (hroom : s.stream.pos+5*m ≤ n) :
    ∃ s' stop, valueLoop casts garbage pseq pre.length m index s = some (s',stop) ∧
      Written (valueOf casts garbage pseq slots) pre n
        (evs ++ passing (fun i => (slots i).field) pseq index stop) s' ∧
      s'.stream.pos ≤ s.stream.pos+5*(stop-index) := by
  induction m generalizing index s evs with
  | zero =>
    refine ⟨s,index,rfl,?_,Nat.le_add_right _ _⟩
    rw [passing_self,List.append_nil]
    exact h
  | succ m ih =>
    have hslot : s.enc.slot index = some (slots index) := by
      rw [slot,if_pos (by omega),hslots index (Nat.le_refl _)]
    rw [valueLoop,hslot]
    simp only [Option.bind_eq_bind,Option.bind_some]
    by_cases hbit : (slots index).field.fmt = Fmt.bit.code
    · rw [if_pos hbit]
      refine ⟨s,index,rfl,?_,Nat.le_add_right _ _⟩
      rw [passing_self,List.append_nil]
      exact h
    rw [if_neg hbit]
    by_cases hp : passes (slots index).field pseq
    · rw [if_neg (not_not.mpr hp)]
      obtain ⟨hevs',hlt'⟩ := pairwise_snoc hevs hlt
      obtain ⟨s1,hs1,hw1,hp1⟩ := h.encodeValue hevs' (by omega) hp (by omega)
      rw [hs1]
      simp only [Option.bind_some]
      obtain ⟨s',stop,hs',hw',hp'⟩ := ih (index+1) hw1 (fun i => encodeValue_behind hslots hp hs1)
        hevs' hlt' (by omega) (by omega)
      have hle := (valueLoop_spec hs').1
      refine ⟨s',stop,hs',?_,by omega⟩
      rw [passing_cons (by omega),if_pos hp,← List.append_assoc]
      exact hw'
    · rw [if_pos hp]
      obtain ⟨s',stop,hs',hw',hp'⟩ := ih (index+1) h (fun i hi => hslots i (by omega)) hevs
        (fun j hj => Nat.lt_succ_of_lt (hlt j hj)) (by omega) (by omega)
      have hle := (valueLoop_spec hs').1
      refine ⟨s',stop,hs',?_,by omega⟩
      rw [passing_cons (by omega),if_neg hp]
      exact hw'

end Loop

/-- Behind `o` are the bits of bitfields. -/
structure Bits (n : Nat) (o : List Byte) (bs : List Bool) (s : EncodeState) : Prop where
  holds : s.stream.Holds n (o ++ packBits bs)
  codeBit : s.codeBit = 1#8 <<< ((bs.length+7)%8)
  code : bs ≠ [] → s.code+1 = s.stream.pos

theorem Bits.start {o : List Byte} (h : (s.stream.reset s.posData).Holds n o) :
    Bits n o [] {s with stream := s.stream.reset s.posData, codeBit := 1#8 <<< 7} := by
  refine ⟨?_,rfl,fun hne => absurd rfl hne⟩
  rw [show packBits [] = [] from rfl,List.append_nil]
  exact h

theorem Bits.append {o : List Byte} {bs : List Bool} (h : Bits n o bs s) (slot : EncSlot)
    (hroom : s.stream.pos+1 ≤ n) :
    ∃ s', appendBit slot s = some s' ∧ Bits n o (bs ++ [decide (slot.value ≠ 0#32)]) s' ∧
      s'.stream.pos ≤ s.stream.pos+1 ∧ s'.enc = s.enc := by
  have hlen : (bs ++ [decide (slot.value ≠ 0#32)]).length = bs.length+1 := List.length_append
  obtain ⟨p,x,hsnoc,hcase⟩ := packBits_snoc bs (decide (slot.value ≠ 0#32))
  obtain ⟨s1,hs1,hh,hcode,hbit,hpos,henc⟩ : ∃ s1 : EncodeState,
      s1 = (if s.codeBit = 1#8 <<< 7 then
        {s with code := s.stream.pos, stream := s.stream.writeT [0#8], codeBit := 1#8}
        else {s with codeBit := s.codeBit <<< 1}) ∧
      s1.stream.Holds n ((o ++ p) ++ [x]) ∧ s1.code = (o ++ p).length ∧
      s1.codeBit = 1#8 <<< (bs.length%8) ∧ s1.stream.pos ≤ s.stream.pos+1 ∧ s1.enc = s.enc := by
    refine ⟨_,rfl,?_⟩
    rcases hcase with ⟨h0,rfl,rfl⟩ | ⟨h0,hp⟩
    · rw [if_pos (by rw [h.codeBit]; congr 1; omega),h0]
      have hw := h.holds.writeT [0#8] (by rw [← h.holds.pos]; exact hroom)
      refine ⟨hw,h.holds.pos,rfl,?_,rfl⟩
      rw [hw.pos,h.holds.pos,List.length_append]
      exact Nat.le_refl _
    · have hne : bs ≠ [] := by
        rintro rfl
        exact h0 rfl
      rw [if_neg (by rw [h.codeBit,shiftBit_eq_iff (by omega)]; omega)]
      have hh := h.holds
      rw [hp,← List.append_assoc] at hh
      refine ⟨hh,?_,?_,Nat.le_succ _,rfl⟩
      · have hc := h.code hne
        rw [hh.pos,List.length_append,List.length_singleton] at hc
        exact Nat.succ.inj hc
      · dsimp only
        rw [h.codeBit,shiftBit_succ]
        congr 1
        omega
  have hbits : (bs.length+1+7)%8 = bs.length%8 := by omega
  unfold appendBit
  rw [← hs1]
  dsimp only
  by_cases hv : slot.value ≠ 0#32
  · rw [if_pos hv,hcode]
    obtain ⟨w,hw,hh'⟩ := hh.modifyAt (· ||| s1.codeBit)
    rw [hw]
    rw [if_pos (decide_eq_true hv),← hbit] at hsnoc
    refine ⟨_,rfl,⟨?_,?_,fun _ => ?_⟩,?_,henc⟩
    · rw [hsnoc,← List.append_assoc]
      exact hh'
    · rw [hlen,hbits]
      exact hbit
    · dsimp only
      rw [hh'.pos]
      simp only [List.length_append,List.length_singleton]
    · dsimp only
      rw [hh'.pos]
      rw [hh.pos] at hpos
      simp only [List.length_append,List.length_singleton] at hpos ⊢
      exact hpos
  · rw [if_neg hv]
    rw [if_neg (by rw [decide_eq_true_eq]; exact hv)] at hsnoc
    refine ⟨_,rfl,⟨?_,?_,fun _ => ?_⟩,hpos,henc⟩
    · rw [hsnoc,← List.append_assoc]
      exact hh
    · rw [hlen,hbits]
      exact hbit
    · rw [hcode,hh.pos]
      simp only [List.length_append,List.length_singleton]

theorem bitLoop_bits (m index : Nat) {o : List Byte} {bs : List Bool}
    (h : Bits n o bs s) (hm : index+m ≤ slotsSize) (hroom : s.stream.pos+m ≤ n) :
    ∃ s', bitLoop m index s = some s' ∧ Bits n o
      (bs ++ (List.range' index m).map fun i => decide ((s.enc.slots i).value ≠ 0#32)) s' := by
  induction m generalizing index s bs with
  | zero => exact ⟨s,rfl,by simpa using h⟩
  | succ m ih =>
    have hslot : s.enc.slot index = some (s.enc.slots index) := if_pos (by omega)
    rw [bitLoop,hslot]
    simp only [Option.bind_eq_bind,Option.bind_some]
    obtain ⟨s1,hs1,hb,hp,henc⟩ := h.append (s.enc.slots index) (by omega)
    rw [hs1]
    simp only [Option.bind_some]
    obtain ⟨s',hs',hb'⟩ := ih (index+1) hb (by omega) (by omega)
    refine ⟨s',hs',?_⟩
    rw [List.range'_succ,List.map_cons]
    rw [henc,List.append_assoc] at hb'
    exact hb'

theorem enforceUpdate_total {e : TelemetryEncoder} (h : e.enforcedUpd < slotsSize) :
    ∃ k, e.enforceUpdate = some {e with slots := e.marked, enforcedUpd := k} := by
  unfold enforceUpdate slot setSlot
  rw [if_pos h]
  simp only [Option.bind_eq_bind,Option.bind_some]
  rw [if_pos h]
  exact ⟨_,rfl⟩

theorem marked_value (e : TelemetryEncoder) (i : Nat) : (e.marked i).value = (e.slots i).value :=
  (e.marked_same i).2.1

theorem marked_field (e : TelemetryEncoder) (i : Nat) : (e.marked i).field = (e.slots i).field :=
  (e.marked_same i).1

theorem marked_fields (e : TelemetryEncoder) :
    (fun i => (e.marked i).field) = fun i => (e.slots i).field :=
  funext (marked_field e)

/-- The bits of the bitfields from `stop` on. -/
def bitValues (e : TelemetryEncoder) (stop : Nat) : List Bool :=
  (List.range' stop (e.slotsCnt-stop)).map fun i => decide ((e.slots i).value ≠ 0#32)

theorem bitValues_length (e : TelemetryEncoder) {stop : Nat} (h : stop ≤ e.slotsCnt) :
    stop+(e.bitValues stop).length = e.slotsCnt := by
  rw [bitValues,List.length_map,List.length_range']
  omega

theorem inZeros_start (val : Nat → Option Packed) (hdr : Hdr) {w : Writer}
    (hw : w.pos+(3+1) ≤ w.size) (e : TelemetryEncoder) :
    InZeros val (w.out ++ hdr.bytes) w.size [] [] []
      ⟨e,(hdr.write w).writeT [0#8],((hdr.write w).writeT [0#8]).pos,
        ((hdr.write w).writeT [0#8]).pos,1#8 <<< 6,0,0,0,0,[]⟩ ∧
    (hdr.write w).size = w.size ∧ (hdr.write w).pos = w.pos+3 ∧
    (w.out ++ hdr.bytes).length = w.pos+3 ∧ ((hdr.write w).writeT [0#8]).pos = w.pos+4 := by
  obtain ⟨ho,hp,hs⟩ := Hdr.write_spec (h := hdr) (s := w) (by unfold Hdr.psize; omega)
  have hp' : (hdr.write w).pos = w.pos+3 := hp
  have h0 : (hdr.write w).Holds w.size (w.out ++ hdr.bytes) := ⟨hs,by omega,ho⟩
  have hpre : (w.out ++ hdr.bytes).length = w.pos+3 := h0.pos.symm.trans hp'
  have h1 := h0.writeT [0#8] (by rw [hpre,List.length_singleton]; omega)
  have hp1 : ((hdr.write w).writeT [0#8]).pos = w.pos+4 := by
    rw [h1.pos,List.length_append,hpre]
    rfl
  refine ⟨⟨.nil,h1,rfl,rfl,fun _ h => absurd h (Option.some_ne_none _).symm,
    fun h => absurd rfl h,fun h => absurd rfl h,?_⟩,hs,hp',hpre,hp1⟩
  rw [hp1,hpre]
  rfl

/-- The frame: header, count, values and bitfields. -/
theorem encode_frame (casts : Casts) (garbage : Nat → BitVec 32) (pseq : Byte)
    {e : TelemetryEncoder} {w : Writer} (hc : e.slotsCnt ≤ slotsSize)
    (he : e.enforcedUpd < slotsSize) (hw : w.pos+(3+1+5*e.slotsCnt) ≤ w.size) (ts : BitVec 64) :
    ∃ s stop wd, ∃ hdr : Hdr, e.encode casts garbage w pseq ts = some s ∧ stop ≤ e.slotsCnt ∧
      (∀ i < stop, (e.slots i).field.fmt ≠ Fmt.bit.code) ∧
      (stop < e.slotsCnt → (e.slots stop).field.fmt = Fmt.bit.code) ∧
      hdr.ts = (ts/BitVec.ofNat 64 ts2ms).setWidth 16 ∧
      hdr.feedHash = hashByte e.hash (pseq.setWidth 2) ∧
      Wire (valueOf casts garbage pseq e.marked)
        (passing (fun i => (e.marked i).field) pseq 0 stop) wd ∧
      s.stream.out = w.out ++ hdr.bytes ++
        counted (valueOf casts garbage pseq e.marked)
            (passing (fun i => (e.marked i).field) pseq 0 stop) ::
          (wd ++ packBits (e.bitValues stop)) ∧
      s.sent = (List.range' 0 stop).flatMap fun i =>
        sentNow casts (garbage i) pseq i (e.marked i) := by
  obtain ⟨k,hk⟩ := enforceUpdate_total he
  obtain ⟨hdr,hhdr⟩ : ∃ hdr : Hdr, hdr =
      ⟨(ts/BitVec.ofNat 64 ts2ms).setWidth 16,hashByte e.hash (pseq.setWidth 2)⟩ := ⟨_,rfl⟩
  obtain ⟨hzeros,-,hp',hpre,hp1⟩ := inZeros_start (valueOf casts garbage pseq e.marked) hdr
    (show w.pos+(3+1) ≤ w.size by omega) {e with slots := e.marked, enforcedUpd := k}
  have hstart : Written (valueOf casts garbage pseq e.marked) (w.out ++ hdr.bytes) w.size [] _ :=
    Or.inr ⟨[],[],[],rfl,hzeros,List.forall_mem_nil _⟩
  obtain ⟨s1,stop,hs1,hw1,hpos1⟩ := valueLoop_written e.slotsCnt 0 hstart
    (fun _ _ => rfl) List.Pairwise.nil (List.forall_mem_nil _) (by omega)
    (by dsimp only; omega)
  obtain ⟨-,hstop,hno,hbit,henc,hsent⟩ := valueLoop_spec hs1
  obtain ⟨wd,hwire,hh,hle⟩ := hw1.finish
  rw [List.nil_append] at hh
  obtain ⟨s,hs2,hb⟩ := bitLoop_bits (e.slotsCnt-stop) stop (Bits.start hh) (by omega)
    (by dsimp only at hpos1 hle ⊢; omega)
  refine ⟨s,stop,wd,hdr,?_,by omega,?_,?_,by rw [hhdr],by rw [hhdr],hwire,?_,?_⟩
  · rw [hpre,← hp'] at hs1
    unfold encode encodeValues
    rw [← hhdr,hk]
    simp only [Option.bind_eq_bind,Option.bind_some]
    rw [hs1]
    exact hs2
  · intro i hi
    rw [← marked_field]
    exact hno i (Nat.zero_le i) hi
  · intro hlt
    rw [← marked_field]
    exact hbit (by omega)
  · rw [hb.holds.out,List.append_assoc _ (_ :: wd),List.cons_append,List.nil_append]
    have hval : (List.range' stop (e.slotsCnt-stop)).map (fun i =>
        decide ((s1.enc.slots i).value ≠ 0#32)) = e.bitValues stop := by
      refine List.map_congr_left fun i hi => ?_
      have hge := (List.mem_range'_1.mp hi).1
      have hslot : s1.enc.slots i = e.marked i := by
        rw [henc]
        exact if_neg (by omega)
      rw [hslot,marked_value]
    rw [hval]
  · rw [(bitLoop_frame hs2).2]
    dsimp only
    rw [hsent,Nat.sub_zero]
    rfl

end TelemetryEncoder

end ApxBus.Telemetry
