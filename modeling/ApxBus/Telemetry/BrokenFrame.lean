import ApxBus.Telemetry.SmallBuffer
set_option autoImplicit false

/-! A frame that does not come right: in a buffer that is too short it is too short itself, or has a
byte that is not the same. -/

namespace ApxBus.Telemetry
open Function Mandala Real32

namespace TelemetryEncoder
variable {n m index codeCnt sz : Nat} {f : Field} {buf : BitVec 32} {s s' a a' : EncodeState}

/-- Two states that differ in no more than positions and buffers. -/
structure Same (s a : EncodeState) : Prop where
  enc : a.enc = s.enc
  codeBit : a.codeBit = s.codeBit
  codeZero : a.codeZero = s.codeZero
  codeIndex : a.codeIndex = s.codeIndex
  nibbleN : a.nibbleN = s.nibbleN

theorem Same.nextBit (h : Same s a) (index : Nat) : Same (nextBit index s) (nextBit index a) := by
  unfold TelemetryEncoder.nextBit
  rw [h.codeBit,h.codeZero,h.codeIndex]
  by_cases hb : s.codeBit = 1#8 <<< 6
  · rw [if_pos hb,if_pos hb]
    exact ⟨h.enc,rfl,rfl,rfl,rfl⟩
  · rw [if_neg hb,if_neg hb]
    exact ⟨h.enc,rfl,rfl,rfl,h.nibbleN⟩

theorem Same.sent (h : Same s a) (hs : Sent m codeCnt index f buf sz s s')
    (ha : Sent n codeCnt index f buf sz a a') : Same s' a' := by
  refine ⟨?_,?_,?_,?_,?_⟩
  · rw [ha.enc,hs.enc,h.enc]
  · rw [ha.codeBit,hs.codeBit,h.codeZero,h.codeBit]
  · rw [ha.codeZero,hs.codeZero]
  · rw [ha.codeIndex,hs.codeIndex,h.codeIndex]
  · rw [ha.nibbleN,hs.nibbleN,h.nibbleN]

/-- The byte at `q` is not the same, and is written no more. -/
structure Differs (codeCnt q : Nat) (s a : EncodeState) : Prop where
  ne : a.stream.buf[q]? ≠ s.stream.buf[q]?
  cnt : codeCnt < q
  data : q < s.posData
  data' : q < a.posData
  nibble : s.nibbleN ≠ 0 → q < s.nibble ∧ q < a.nibble

/-- The frame in the buffer of `n` bytes will not be the one of `s`: it is too short, or a byte is
not the same. While `c` holds, that is not the byte of the code. -/
def Broken (n codeCnt : Nat) (c : Prop) (s a : EncodeState) : Prop :=
  Same s a ∧ Shape n a ∧
    (a.posData < s.posData ∨ ∃ q, Differs codeCnt q s a ∧ (c → q < s.code ∧ q < a.code))

theorem nextBit_posData (index : Nat) (s : EncodeState) :
    (nextBit index s).posData = s.posData := by
  unfold nextBit
  split_ifs <;> rfl

theorem nextBit_keeps (hp : s.stream.pos ≤ s.stream.size) (index : Nat) :
    s.stream.Keeps s.stream.pos (nextBit index s).stream := by
  unfold nextBit
  by_cases hb : s.codeBit = 1#8 <<< 6
  · rw [if_pos hb]
    exact Writer.keeps_writeT hp _
  · rw [if_neg hb]
    exact .refl _ _

theorem Broken.nextBit (h : Broken n codeCnt (s.codeBit ≠ 1#8 <<< 6) s a) (hs : Shape m s)
    (index : Nat) : Broken n codeCnt True (nextBit index s) (nextBit index a) := by
  obtain ⟨hsame,ha,hcase⟩ := h
  refine ⟨hsame.nextBit index,ha.nextBit index,?_⟩
  rw [nextBit_posData,nextBit_posData]
  refine hcase.imp_right fun ⟨q,hq,hcode⟩ => ⟨q,?_⟩
  have hqs := hq.data.trans_le hs.posData_le
  have hqa := hq.data'.trans_le ha.posData_le
  have hks := (nextBit_keeps (hs.size ▸ hs.pos_le) index).same q hqs
  have hka := (nextBit_keeps (ha.size ▸ ha.pos_le) index).same q hqa
  have hne : (TelemetryEncoder.nextBit index a).stream.buf[q]? ≠
      (TelemetryEncoder.nextBit index s).stream.buf[q]? := by
    rw [hks,hka]
    exact hq.ne
  have hd : q < (TelemetryEncoder.nextBit index s).posData := by
    rw [nextBit_posData]
    exact hq.data
  have hd' : q < (TelemetryEncoder.nextBit index a).posData := by
    rw [nextBit_posData]
    exact hq.data'
  refine ⟨⟨hne,hq.cnt,hd,hd',?_⟩,fun _ => ?_⟩
  · unfold TelemetryEncoder.nextBit
    rw [hsame.codeBit]
    by_cases hb : s.codeBit = 1#8 <<< 6
    · rw [if_pos hb]
      exact fun h0 => absurd rfl h0
    · rw [if_neg hb,if_neg hb]
      exact hq.nibble
  · unfold TelemetryEncoder.nextBit
    rw [hsame.codeBit]
    by_cases hb : s.codeBit = 1#8 <<< 6
    · rw [if_pos hb,if_pos hb]
      exact ⟨hqs,hqa⟩
    · rw [if_neg hb,if_neg hb]
      exact hcode hb

/-- The state before a value is sent, in a buffer with room. -/
structure Ready (m codeCnt index : Nat) (s : EncodeState) : Prop where
  shape : Shape m s
  pos : s.stream.pos = s.posData+s.codeZero
  cnt : codeCnt < s.posData
  code : s.code < s.stream.pos
  nibble : s.nibbleN ≠ 0 → s.nibble < s.stream.pos
  dist_lt : index-s.codeIndex < 240
  dist_pos : s.codeZero ≥ 2 → 0 < index-s.codeIndex

theorem Ready.startOf_eq (h : Ready m codeCnt index s) :
    startOf s = if s.codeZero ≥ 2 then s.posData else s.posData+s.codeZero := by
  have hp := h.pos
  unfold startOf
  by_cases hz : s.codeZero ≥ 2
  · rw [if_pos hz,if_pos hz,if_pos (by omega)]
    omega
  · rw [if_neg hz,if_neg hz,hp]

theorem Ready.room (h : Ready m codeCnt index s) (hroom : s.stream.pos+4 ≤ m) (f : Field)
    (buf : BitVec 32) (sz : Nat) :
    startOf s+offsetOf index s+valueLen f buf sz s.nibbleN ≤ m := by
  have hst := h.startOf_eq
  have hp := h.pos
  have hd := h.dist_lt
  have hlen : valueLen f buf sz s.nibbleN ≤ 4 := by
    have hle : ((bytes32 buf).take sz).length ≤ 4 := List.length_take_le' _ _
    unfold valueLen
    split_ifs <;> omega
  by_cases hz : s.codeZero ≥ 2
  · rw [if_pos hz] at hst
    rw [offsetOf,if_pos hz,offsetBytes_length]
    omega
  · rw [if_neg hz] at hst
    rw [offsetOf,if_neg hz]
    omega

/-- A value is sent in a buffer with room for it, and in one of `n` bytes. -/
structure Both (m n codeCnt index : Nat) (f : Field) (buf : BitVec 32) (sz : Nat)
    (s a s' a' : EncodeState) : Prop where
  same : Same s a
  ready : Ready m codeCnt index s
  shape : Shape n a
  sent : Sent m codeCnt index f buf sz s s'
  sent' : Sent n codeCnt index f buf sz a a'
  room : startOf s+offsetOf index s+valueLen f buf sz s.nibbleN ≤ m
  fits : s'.posData ≤ n
  offset : s.codeZero ≥ 2 → s'.stream.buf[s.posData]? ≠ some 0#8

theorem Both.offsetOf_eq (h : Both m n codeCnt index f buf sz s a s' a') :
    offsetOf index a = offsetOf index s := by
  unfold offsetOf
  rw [h.same.codeZero,h.same.codeIndex]

theorem Both.posData_eq (h : Both m n codeCnt index f buf sz s a s' a') :
    s'.posData = startOf s+offsetOf index s+valueLen f buf sz s.nibbleN := by
  rw [h.sent.posData]
  exact Nat.min_eq_right h.room

theorem Both.short (h : Both m n codeCnt index f buf sz s a s' a') (c : Prop)
    (hlt : startOf a < startOf s) : Broken n codeCnt c s' a' := by
  refine ⟨h.same.sent h.sent h.sent',h.sent'.shape,Or.inl ?_⟩
  rw [h.posData_eq,h.sent'.posData,h.offsetOf_eq,h.same.nibbleN]
  omega

theorem Both.differs (h : Both m n codeCnt index f buf sz s a s' a') {q : Nat} {c : Prop}
    (hq : Differs codeCnt q s a) (hcode : s.codeZero < 2 → q < s.code ∧ q < a.code)
    (hc : c → s.codeZero < 2) (hle : q < startOf a) : Broken n codeCnt c s' a' := by
  have hst := h.ready.startOf_eq
  have hqs : q < startOf s := by
    have hd := hq.data
    split_ifs at hst <;> omega
  have hcq := hq.cnt
  have hks := h.sent.keeps q hqs (by omega) (fun hz => (hcode hz).1.ne) fun hn =>
    (hq.nibble hn).1.ne
  have hka := h.sent'.keeps q hle (by omega)
    (fun hz => (hcode (h.same.codeZero ▸ hz)).2.ne)
    fun hn => (hq.nibble (h.same.nibbleN ▸ hn)).2.ne
  have hsa := h.shape.startOf_le
  have hsm := h.ready.shape.startOf_le
  refine ⟨h.same.sent h.sent h.sent',h.sent'.shape,Or.inr ⟨q,⟨?_,hcq,?_,?_,fun hn => ?_⟩,?_⟩⟩
  · rw [hks,hka]
    exact hq.ne
  · rw [h.sent.posData]
    omega
  · rw [h.sent'.posData]
    omega
  · have hn' : a'.nibbleN ≠ 0 := by
      rw [h.sent'.nibbleN,h.same.nibbleN,← h.sent.nibbleN]
      exact hn
    rw [h.sent.nibble hn,h.sent'.nibble hn']
    omega
  · intro hcc
    rw [h.sent.code,h.sent'.code]
    exact hcode (hc hcc)

/-- Zero codes that were not written are taken back all the same. -/
theorem Both.derail (h : Both m n codeCnt index f buf sz s a s' a') (hz : s.codeZero ≥ 2)
    (hle : a.posData ≤ s.posData) (hne : a.posData < s.posData ∨ n < s.posData+s.codeZero)
    {c : Prop} (hc : ¬ c) :
    Broken n codeCnt c s' a' := by
  have hst := h.ready.startOf_eq
  rw [if_pos hz] at hst
  have hza := h.same.codeZero
  have hpa := h.shape.pos
  have hsa : startOf a = if a.codeZero ≤ a.stream.pos then a.stream.pos-a.codeZero else n := by
    rw [startOf,if_pos (by omega),h.shape.size]
  by_cases hk : a.codeZero ≤ a.stream.pos
  · rw [if_pos hk] at hsa
    exact h.short c (by omega)
  · rw [if_neg hk] at hsa
    have hoff := h.posData_eq
    have hfits := h.fits
    have hlen : 0 < offsetOf index s := by
      rw [offsetOf,if_pos hz,offsetBytes_length]
      exact Nat.succ_pos _
    have hqn : s.posData < n := by omega
    have hzero := h.shape.zeros s.posData hle (by omega)
    have hnib := mt h.ready.shape.nibble (by omega)
    have hnib' := mt h.shape.nibble (by omega)
    have hcnt := h.ready.cnt
    have hka := h.sent'.keeps s.posData (by omega) (by omega) (fun h2 => by omega)
      fun hn => absurd hn hnib'
    refine ⟨h.same.sent h.sent h.sent',h.sent'.shape,Or.inr
      ⟨s.posData,⟨?_,hcnt,?_,?_,fun hn => ?_⟩,fun hcc => absurd hcc hc⟩⟩
    · rw [hka,hzero]
      exact (h.offset hz).symm
    · omega
    · rw [h.sent'.posData]
      omega
    · have hn' : a'.nibbleN ≠ 0 := by
        rw [h.sent'.nibbleN,h.same.nibbleN,← h.sent.nibbleN]
        exact hn
      have hsm := h.room
      rw [h.sent.nibble hn,h.sent'.nibble hn']
      omega

theorem Both.broken (h : Both m n codeCnt index f buf sz s a s' a')
    (hb : Broken n codeCnt True s a) : Broken n codeCnt (s'.codeBit ≠ 1#8 <<< 6) s' a' := by
  obtain ⟨-,-,hcase⟩ := hb
  have hst := h.ready.startOf_eq
  have hza := h.same.codeZero
  have hpa := h.shape.pos
  have hbit := h.sent.codeBit
  by_cases hz : s.codeZero ≥ 2
  · rw [if_pos hz] at hst hbit
    have hc : ¬ s'.codeBit ≠ 1#8 <<< 6 := not_not.mpr hbit
    rcases Nat.lt_or_ge (startOf a) s.posData with hlt | hge
    · exact h.short _ (by omega)
    · rcases hcase with hlag | ⟨q,hq,hcode⟩
      · exact h.derail hz hlag.le (Or.inl hlag) hc
      · exact h.differs hq (fun _ => hcode trivial) (fun hcc => absurd hcc hc)
          (hq.data.trans_le hge)
  · rw [if_neg hz] at hst
    have hsa : startOf a = a.stream.pos := if_neg (by omega)
    rcases hcase with hlag | ⟨q,hq,hcode⟩
    · exact h.short _ (by omega)
    · exact h.differs hq (fun _ => hcode trivial) (fun _ => by omega)
        (by have := hq.data'; have := h.shape.posData_le; omega)

theorem Broken.withEnc {c : Prop} (h : Broken n codeCnt c s a)
    (g : TelemetryEncoder → TelemetryEncoder) :
    Broken n codeCnt c (withEnc g s) (withEnc g a) := by
  obtain ⟨hs,ha,hcase⟩ := h
  refine ⟨⟨congrArg g hs.enc,hs.codeBit,hs.codeZero,hs.codeIndex,hs.nibbleN⟩,
    ⟨ha.size,ha.le,ha.pos,ha.zeros,ha.nibble⟩,hcase.imp_right fun ⟨q,hq,hc⟩ => ?_⟩
  exact ⟨q,⟨hq.ne,hq.cnt,hq.data,hq.data',hq.nibble⟩,hc⟩

section
variable {slot : EncSlot}

/-- The frame is too short, or a byte is not the same and is written no more. -/
structure Astray (s a : EncodeState) : Prop where
  enc : a.enc = s.enc
  codeBit : a.codeBit = s.codeBit
  le : s.stream.pos ≤ s.stream.size
  le' : a.stream.pos ≤ a.stream.size
  cases : a.stream.pos < s.stream.pos ∨ ∃ q, a.stream.buf[q]? ≠ s.stream.buf[q]? ∧
    q < s.stream.pos ∧ q < a.stream.pos ∧ (s.codeBit ≠ 1#8 <<< 7 → q < s.code ∧ q < a.code)

theorem Astray.append (h : Astray s a) (hroom : s.stream.pos+1 ≤ s.stream.size)
    (hs : appendBit slot s = some s') (ha : appendBit slot a = some a') : Astray s' a' := by
  have hs' := appendBit_spec h.le hs
  have ha' := appendBit_spec h.le' ha
  have hle := h.le'
  obtain ⟨hps,hpa,hcs,hca⟩ := And.intro hs'.pos (And.intro ha'.pos (And.intro hs'.code ha'.code))
  rw [h.codeBit] at hpa hca
  refine ⟨?_,?_,?_,?_,?_⟩
  · rw [hs'.enc,ha'.enc,h.enc]
  · rw [hs'.codeBit,ha'.codeBit,h.codeBit]
  · rw [hs'.size]
    split_ifs at hps <;> omega
  · rw [ha'.size]
    split_ifs at hpa <;> omega
  · refine h.cases.imp (fun hlt => ?_) fun ⟨q,hne,hq,hq',hcode⟩ => ⟨q,?_,?_,?_,fun _ => ?_⟩
    · split_ifs at hps hpa <;> omega
    · rw [hs'.keeps q hq fun hb => (hcode hb).1.ne,
        ha'.keeps q hq' fun hb => (hcode (h.codeBit ▸ hb)).2.ne]
      exact hne
    · split_ifs at hps <;> omega
    · split_ifs at hpa <;> omega
    · rw [hcs,hca]
      split_ifs with hb
      · exact ⟨hq,hq'⟩
      · exact hcode hb

theorem Astray.bitLoop {k i : Nat} (h : Astray s a) (hroom : s.stream.pos+k ≤ s.stream.size)
    (hs : bitLoop k i s = some s') (ha : bitLoop k i a = some a') : Astray s' a' := by
  induction k generalizing i s a with
  | zero =>
    cases hs
    cases ha
    exact h
  | succ k ih =>
    obtain ⟨x,hx,hs⟩ := Option.bind_eq_some_iff.mp hs
    obtain ⟨s1,hs1,hs⟩ := Option.bind_eq_some_iff.mp hs
    obtain ⟨y,hy,ha⟩ := Option.bind_eq_some_iff.mp ha
    rw [h.enc,hx,Option.some.injEq] at hy
    subst hy
    obtain ⟨a1,ha1,ha⟩ := Option.bind_eq_some_iff.mp ha
    have hsp := appendBit_spec h.le hs1
    have hpos := hsp.pos
    refine ih (h.append (by omega) hs1 ha1) ?_ hs ha
    rw [hsp.size]
    split_ifs at hpos <;> omega

theorem Astray.out_ne (h : Astray s a) : a.stream.out ≠ s.stream.out := by
  intro heq
  rcases h.cases with hlt | ⟨q,hne,hq,hq',-⟩
  · have hlen := congrArg List.length heq
    rw [Writer.length_out h.le,Writer.length_out h.le'] at hlen
    omega
  · have hs : s.stream.out[q]? = s.stream.buf[q]? := List.getElem?_take_of_lt hq
    have ha : a.stream.out[q]? = a.stream.buf[q]? := List.getElem?_take_of_lt hq'
    exact hne (by rw [← ha,heq,hs])

end

theorem Broken.astray {c : Prop} (h : Broken n codeCnt c s a) (hs : Shape m s) :
    Astray (valuesEnd s) (valuesEnd a) := by
  obtain ⟨hsame,ha,hcase⟩ := h
  have hes := hs.valuesEnd_pos
  have hea := ha.valuesEnd_pos
  refine ⟨hsame.enc,rfl,?_,?_,?_⟩
  · rw [hes]
    exact hs.le.trans hs.size.ge
  · rw [hea]
    exact ha.le.trans ha.size.ge
  · rw [hes,hea]
    refine hcase.imp id fun ⟨q,hq,_⟩ => ⟨q,hq.ne,hq.data,hq.data',fun hb => absurd rfl hb⟩

end TelemetryEncoder

end ApxBus.Telemetry
