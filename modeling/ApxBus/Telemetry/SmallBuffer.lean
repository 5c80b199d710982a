import ApxBus.StreamCut
import ApxBus.Telemetry.EncoderFrame
set_option autoImplicit false

/-! The encoder in a buffer that may be full: what each part of `encode_values` writes, and what it
writes in a shorter buffer. -/

namespace ApxBus.Telemetry
open Function Mandala Real32

theorem offsetBytes_length (d : Nat) : (offsetBytes d).length = d/0x7F+1 := by
  rw [offsetBytes,List.length_append,List.length_replicate]
  rfl

theorem offsetBytes_head (d : Nat) : ∃ b l, offsetBytes d = b :: l ∧ b ≠ 0#8 := by
  cases hk : d/0x7F with
  | zero =>
    rw [offsetBytes,hk]
    refine ⟨_,[],rfl,fun h0 => ?_⟩
    have hbit := congrArg (BitVec.getLsbD · 7) h0
    rw [BitVec.getLsbD_or] at hbit
    simp at hbit
  | succ k =>
    rw [offsetBytes,hk]
    exact ⟨0xFF#8,_,rfl,by decide⟩

theorem Hdr.write_cut {h : Hdr} {w : Writer} {n : Nat} (hn : n ≤ w.size) (hfit : w.pos+3 ≤ n) :
    h.write (w.cut n) = (h.write w).cut n := by
  have h1 : w.pos+(bytes16 h.ts).length ≤ n := by
    rw [show (bytes16 h.ts).length = 2 from rfl]
    omega
  have hp1 : (w.writeT (bytes16 h.ts)).pos = w.pos+2 := Writer.pos_writeT (h1.trans hn)
  rw [Hdr.write,Writer.cut_writeT hn h1,Writer.cut_writeT]
  · rfl
  · rw [Writer.size_writeT]
    exact hn
  · rw [hp1]
    exact hfit

namespace TelemetryEncoder
variable {n : Nat} {s s1 s' : EncodeState}

theorem writeOffset_any (k fuel d offset : Nat) {w : Writer} (hk : d/0x7F = k) (hf : k+2 ≤ fuel)
    (hd : d > 0 ∨ offset = 0x7F) (hp : w.pos ≤ w.size) :
    ∃ w', writeOffset fuel d offset w = some w' ∧
      w'.pos = min w.size (w.pos+(offsetBytes d).length) ∧ w.Keeps w.pos w' := by
  induction k generalizing fuel d offset w with
  | zero =>
    obtain ⟨fuel,rfl⟩ := Nat.exists_eq_add_of_le' hf
    have hgt : ¬ d > 0x7F := by omega
    have hend : ¬ (d-d > 0 ∨ d = 0x7F) := by omega
    rw [writeOffset,if_pos hd,if_neg hgt,writeOffset,if_neg hend,offsetBytes_length,hk]
    exact ⟨_,rfl,Writer.pos_put hp _,Writer.keeps_writeT hp _⟩
  | succ k ih =>
    obtain ⟨fuel,rfl⟩ := Nat.exists_eq_add_of_le' (Nat.one_le_of_lt hf)
    have hoff : (if d > 0x7F then 0x7F else d) = 0x7F := by split_ifs <;> omega
    rw [writeOffset,if_pos hd,hoff]
    have hput := Writer.pos_put hp (BitVec.ofNat 8 0x7F ||| 0x80#8)
    have hkeep := Writer.keeps_writeT hp [BitVec.ofNat 8 0x7F ||| 0x80#8]
    obtain ⟨w',hw',hpos,hk'⟩ := ih fuel (d-0x7F) 0x7F (by omega) (by omega) (Or.inr rfl)
      (by rw [hput,hkeep.size]; exact Nat.min_le_left _ _)
    refine ⟨w',hw',?_,hkeep.trans hk' ?_⟩
    · rw [hpos,hkeep.size,hput,offsetBytes_length,offsetBytes_length]
      omega
    · rw [hput]
      omega

theorem writeOffset_cut (fuel d offset : Nat) {w : Writer} (hn : n ≤ w.size) (hp : w.pos ≤ w.size) :
    writeOffset fuel d offset (w.cut n) = (writeOffset fuel d offset w).map fun w => w.cut n := by
  induction fuel generalizing d offset w with
  | zero => rfl
  | succ fuel ih =>
    rw [writeOffset,writeOffset]
    by_cases hd : d > 0 ∨ offset = 0x7F
    · rw [if_pos hd,if_pos hd]
      dsimp only
      rw [Writer.cut_put hn hp]
      refine ih _ _ ?_ ?_
      · rw [Writer.size_writeT]
        exact hn
      · rw [Writer.size_writeT,Writer.pos_put hp]
        exact Nat.min_le_left _ _
    · rw [if_neg hd,if_neg hd]
      rfl

/-- Behind the data are zero codes only, as many as there is room for. -/
structure Shape (n : Nat) (s : EncodeState) : Prop where
  size : s.stream.size = n
  le : s.posData ≤ n
  pos : s.stream.pos = min n (s.posData+s.codeZero)
  zeros : ∀ q, s.posData ≤ q → q < s.stream.pos → s.stream.buf[q]? = some 0#8
  nibble : s.nibbleN ≠ 0 → s.codeZero = 0

def startOf (s : EncodeState) : Nat :=
  if s.codeZero ≥ 2 then
    if s.codeZero ≤ s.stream.pos then s.stream.pos-s.codeZero else s.stream.size
  else s.stream.pos

def offsetOf (index : Nat) (s : EncodeState) : Nat :=
  if s.codeZero ≥ 2 then (offsetBytes (index-s.codeIndex)).length else 0

theorem Shape.pos_le (h : Shape n s) : s.stream.pos ≤ n := by
  rw [h.pos]
  exact Nat.min_le_left _ _

theorem Shape.posData_le (h : Shape n s) : s.posData ≤ s.stream.pos := by
  have hle := h.le
  rw [h.pos]
  omega

theorem Shape.startOf_le (h : Shape n s) : startOf s ≤ n := by
  have hle := h.pos_le
  have hsize := h.size
  unfold startOf
  split_ifs <;> omega

variable {index : Nat}

theorem Shape.nextBit (h : Shape n s) (index : Nat) : Shape n (nextBit index s) := by
  have hle := h.pos_le
  have hp := h.pos
  have hsp : s.stream.pos ≤ s.stream.size := h.size ▸ hle
  unfold TelemetryEncoder.nextBit
  by_cases hb : s.codeBit = 1#8 <<< 6
  · rw [if_pos hb]
    have hput := Writer.pos_put hsp 0#8
    rw [h.size] at hput
    refine ⟨(Writer.size_writeT _ _).trans h.size,h.le,?_,fun q hq hlt => ?_,fun h0 =>
      absurd rfl h0⟩
    · dsimp only
      omega
    · dsimp only at hq hlt ⊢
      by_cases hqp : q < s.stream.pos
      · rw [(Writer.keeps_writeT hsp [0#8]).same q hqp]
        exact h.zeros q hq hqp
      · obtain rfl : q = s.stream.pos := by omega
        exact Writer.getElem?_put (by rw [h.size]; omega) 0#8
  · rw [if_neg hb]
    exact ⟨h.size,h.le,h.pos,h.zeros,h.nibble⟩

theorem writeCode_spec (h : Shape n s) (hd : index-s.codeIndex < 240)
    (hpos : s.codeZero ≥ 2 → 0 < index-s.codeIndex) (hw : writeCode index s = some s') :
    ∃ w, s' = {s with stream := w, codeBit := if s.codeZero ≥ 2 then 1#8 <<< 6 else s.codeBit} ∧
      w.size = n ∧ w.pos = min n (startOf s+offsetOf index s) ∧
      ∀ q < startOf s, (s.codeZero < 2 → q ≠ s.code) → w.buf[q]? = s.stream.buf[q]? := by
  have hstart := h.startOf_le
  unfold writeCode at hw
  by_cases hz : s.codeZero ≥ 2
  · rw [if_pos hz] at hw
    have hfit : s.stream.reset (startOf s) = ⟨s.stream.buf,startOf s⟩ := by
      rw [Writer.reset,if_neg (by rw [h.size]; omega)]
    have hst : startOf s = if s.codeZero ≤ s.stream.pos then s.stream.pos-s.codeZero
        else s.stream.size := if_pos hz
    rw [← hst,hfit] at hw
    have hsize : (⟨s.stream.buf,startOf s⟩ : Writer).size = n := h.size
    obtain ⟨w,hw1,hp,hk⟩ := @writeOffset_any ((index-s.codeIndex)/0x7F) 4 (index-s.codeIndex)
      (index-s.codeIndex) ⟨s.stream.buf,startOf s⟩ rfl (by omega) (Or.inl (hpos hz))
      (by rw [hsize]; exact hstart)
    simp only [Option.bind_eq_bind] at hw
    rw [hw1] at hw
    cases hw
    refine ⟨w,by rw [if_pos hz],hk.size.trans hsize,?_,fun q hq _ => hk.same q hq⟩
    rw [hp,hsize,offsetOf,if_pos hz]
  · rw [if_neg hz] at hw
    obtain ⟨w,hw1,hw⟩ := Option.bind_eq_some_iff.mp hw
    cases hw
    obtain ⟨-,hp,hsz,hk⟩ := Writer.modifyAt_spec hw1
    have hle := h.pos_le
    refine ⟨w,by rw [if_neg hz],hsz.trans h.size,?_,fun q _ hc => hk q (hc (by omega))⟩
    rw [hp,startOf,offsetOf,if_neg hz,if_neg hz]
    omega

/-- The number of bytes of a value; an option may be in the byte of the last one. -/
def valueLen (f : Field) (buf : BitVec 32) (sz nibbleN : Nat) : Nat :=
  if f.fmt = Fmt.u4.code then if nibbleN = 0 then 1 else 0 else ((bytes32 buf).take sz).length

def nibbleAfter (f : Field) (nibbleN : Nat) : Nat :=
  if f.fmt = Fmt.u4.code then if nibbleN = 0 then 1 else 0 else 0

variable {f : Field} {buf : BitVec 32} {sz codeCnt : Nat}

theorem writeValue_spec (hw : writeValue f buf sz s = some s') (hp : s.stream.pos ≤ s.stream.size)
    (hdata : s.nibbleN ≠ 0 → s.posData = s.stream.pos) :
    ∃ w nibble, s' = {s with
        stream := w, posData := w.pos, nibble := nibble, nibbleN := nibbleAfter f s.nibbleN} ∧
      (nibbleAfter f s.nibbleN ≠ 0 → nibble = s.stream.pos) ∧ w.size = s.stream.size ∧
      w.pos = min s.stream.size (s.stream.pos+valueLen f buf sz s.nibbleN) ∧
      ∀ q < s.stream.pos, (s.nibbleN ≠ 0 → q ≠ s.nibble) → w.buf[q]? = s.stream.buf[q]? := by
  unfold writeValue at hw
  unfold valueLen nibbleAfter
  by_cases hu : f.fmt = Fmt.u4.code
  · rw [if_pos hu] at hw ⊢
    rw [if_pos hu]
    by_cases h0 : s.nibbleN = 0
    · rw [if_pos h0] at hw ⊢
      cases hw
      have hk := Writer.keeps_writeT hp [buf.setWidth 8 &&& 0x0F#8]
      exact ⟨_,_,rfl,fun _ => rfl,hk.size,Writer.pos_put hp _,fun q hq _ => hk.same q hq⟩
    · rw [if_neg h0] at hw ⊢
      obtain ⟨w,hw1,hw⟩ := Option.bind_eq_some_iff.mp hw
      cases hw
      obtain ⟨-,hpos,hsz,hk⟩ := Writer.modifyAt_spec hw1
      refine ⟨w,s.nibble,by rw [hpos,hdata h0],fun h1 => absurd rfl h1,hsz,?_,
        fun q _ hq => hk q (hq h0)⟩
      rw [hpos]
      omega
  · rw [if_neg hu] at hw ⊢
    rw [if_neg hu]
    cases hw
    have hk := Writer.keeps_write hp ((bytes32 buf).take sz)
    exact ⟨_,s.nibble,rfl,fun h1 => absurd rfl h1,hk.size,Writer.pos_write hp _,
      fun q hq _ => hk.same q hq⟩

/-- What sending a value does, in a buffer that may be full. -/
structure Sent (n codeCnt index : Nat) (f : Field) (buf : BitVec 32) (sz : Nat)
    (s s' : EncodeState) : Prop where
  shape : Shape n s'
  enc : s'.enc = s.enc
  posData : s'.posData = min n (startOf s+offsetOf index s+valueLen f buf sz s.nibbleN)
  codeZero : s'.codeZero = 0
  codeBit : s'.codeBit = if s.codeZero ≥ 2 then 1#8 <<< 6 else s.codeBit
  codeIndex : s'.codeIndex = s.codeIndex
  code : s'.code = s.code
  nibbleN : s'.nibbleN = nibbleAfter f s.nibbleN
  nibble : s'.nibbleN ≠ 0 → s'.nibble = min n (startOf s+offsetOf index s)
  keeps : ∀ q < startOf s, q ≠ codeCnt → (s.codeZero < 2 → q ≠ s.code) →
    (s.nibbleN ≠ 0 → q ≠ s.nibble) → s'.stream.buf[q]? = s.stream.buf[q]?

theorem Shape.half (h : Shape n s) (hn : s.nibbleN ≠ 0) :
    s.posData = min n (startOf s+offsetOf index s) := by
  have hz := h.nibble hn
  have hp := h.pos
  have hle := h.le
  rw [startOf,offsetOf,if_neg (by omega),if_neg (by omega)]
  omega

theorem Shape.sendValue (h : Shape n s) (hd : index-s.codeIndex < 240)
    (hpos : s.codeZero ≥ 2 → 0 < index-s.codeIndex)
    (hs : sendValue codeCnt index f buf sz s = some s') :
    Sent n codeCnt index f buf sz s s' := by
  have hstart := h.startOf_le
  obtain ⟨s1,h1,hs⟩ := Option.bind_eq_some_iff.mp hs
  obtain ⟨s2,h2,hs⟩ := Option.bind_eq_some_iff.mp hs
  obtain ⟨w3,h3,hs⟩ := Option.bind_eq_some_iff.mp hs
  cases hs
  obtain ⟨w1,rfl,hsz1,hp1,hk1⟩ := writeCode_spec h hd hpos h1
  have hle : w1.pos ≤ w1.size := by omega
  obtain ⟨w2,nibble,rfl,hnib,hsz2,hp2,hk2⟩ :=
    writeValue_spec h2 hle fun hn => (h.half hn).trans hp1.symm
  obtain ⟨-,hp3,hsz3,hk3⟩ := Writer.modifyAt_spec h3
  dsimp only at hsz2 hp2 hk2 hp3 hsz3 hk3 hnib
  have hdata : w2.pos = min n (startOf s+offsetOf index s+valueLen f buf sz s.nibbleN) := by
    rw [hp2,hsz1,hp1]
    omega
  refine ⟨⟨hsz3.trans (hsz2.trans hsz1),?_,?_,?_,fun _ => rfl⟩,rfl,hdata,rfl,rfl,rfl,rfl,rfl,?_,?_⟩
  · dsimp only
    omega
  · dsimp only
    omega
  · intro q hq hlt
    dsimp only at hq hlt
    omega
  · intro hn
    dsimp only
    rw [hnib hn,hp1]
  · intro q hq hc hcode hn
    dsimp only
    rw [hk3 q hc,hk2 q (by omega) hn,hk1 q hq hcode]

/-- The state in a buffer that ends at `n`. -/
def cutState (n : Nat) (s : EncodeState) : EncodeState :=
  {s with stream := s.stream.cut n, code := min n s.code}

section Cut
variable {m : Nat}

theorem nextBit_cut (hn : n ≤ s.stream.size) (hp : s.stream.pos ≤ s.stream.size) (index : Nat) :
    nextBit index (cutState n s) = cutState n (nextBit index s) := by
  unfold nextBit cutState
  dsimp only
  by_cases hb : s.codeBit = 1#8 <<< 6
  · rw [if_pos hb,if_pos hb,Writer.cut_put hn hp]
    rfl
  · rw [if_neg hb,if_neg hb]

theorem writeCode_cut (hn : n ≤ s.stream.size) (hp : s.stream.pos ≤ n)
    (hz : s.codeZero ≤ s.stream.pos) (hcode : s.codeZero < 2 → s.code < n) :
    writeCode index (cutState n s) = (writeCode index s).map (cutState n) := by
  have hpos : (s.stream.cut n).pos = s.stream.pos := Nat.min_eq_right hp
  unfold writeCode
  by_cases h2 : s.codeZero ≥ 2
  · rw [if_pos h2,if_pos (show (cutState n s).codeZero ≥ 2 from h2)]
    unfold cutState
    dsimp only
    rw [hpos,if_pos hz,if_pos hz,Writer.cut_reset hn (by omega),writeOffset_cut]
    · simp only [Option.bind_eq_bind]
      cases writeOffset 4 (index-s.codeIndex) (index-s.codeIndex)
        (s.stream.reset (s.stream.pos-s.codeZero)) <;> rfl
    · exact hn
    · rw [Writer.reset,if_neg (by omega)]
      exact (Nat.sub_le _ _).trans (hp.trans hn)
  · have hc := hcode (by omega)
    rw [if_neg h2,if_neg (show ¬ (cutState n s).codeZero ≥ 2 from h2)]
    unfold cutState
    dsimp only
    rw [Nat.min_eq_right hc.le,Writer.cut_modifyAt hn hc]
    simp only [Option.bind_eq_bind]
    cases h : s.stream.modifyAt s.code (· ||| s.codeBit) with
    | none => rfl
    | some w =>
      simp only [Option.map_some,Option.bind_some]
      rw [Nat.min_eq_right hc.le]

theorem writeValue_cut (hn : n ≤ s.stream.size)
    (hp : s.stream.pos+valueLen f buf sz s.nibbleN ≤ n) (hnib : s.nibbleN ≠ 0 → s.nibble < n) :
    writeValue f buf sz (cutState n s) = (writeValue f buf sz s).map (cutState n) := by
  have hpos : (s.stream.cut n).pos = s.stream.pos := Nat.min_eq_right (by omega)
  unfold valueLen at hp
  unfold writeValue
  by_cases hu : f.fmt = Fmt.u4.code
  · rw [if_pos hu,if_pos hu]
    rw [if_pos hu] at hp
    by_cases h0 : s.nibbleN = 0
    · rw [if_pos h0,if_pos (show (cutState n s).nibbleN = 0 from h0)]
      rw [if_pos h0] at hp
      have hw : (s.stream.writeT [buf.setWidth 8 &&& 0x0F#8]).pos = s.stream.pos+1 :=
        Writer.pos_writeT (hp.trans hn)
      unfold cutState
      dsimp only
      rw [Writer.cut_put hn (by omega),Option.map_some,hpos,Writer.pos_cut,hw,Nat.min_eq_right hp]
    · rw [if_neg h0,if_neg (show (cutState n s).nibbleN ≠ 0 from h0)]
      unfold cutState
      dsimp only
      rw [Writer.cut_modifyAt hn (hnib h0)]
      simp only [Option.bind_eq_bind]
      cases h : s.stream.modifyAt s.nibble (· ||| (buf.setWidth 8 &&& 0x0F#8) <<< 4) with
      | none => rfl
      | some w => rfl
  · rw [if_neg hu,if_neg hu]
    rw [if_neg hu] at hp
    have hw : (s.stream.writeT ((bytes32 buf).take sz)).pos = s.stream.pos+_ :=
      Writer.pos_writeT (hp.trans hn)
    rw [Writer.writeT_fits (hp.trans hn),← Writer.write_fits (hp.trans hn)] at hw
    unfold cutState
    dsimp only
    rw [Writer.cut_write hn hp,Option.map_some,Writer.pos_cut,hw,Nat.min_eq_right hp]

theorem sendValue_cut (h : Shape m s) (hn : n ≤ m) (hd : index-s.codeIndex < 240)
    (hpos : s.codeZero ≥ 2 → 0 < index-s.codeIndex) (hp : s.stream.pos ≤ n)
    (hz : s.codeZero ≤ s.stream.pos) (hcode : s.codeZero < 2 → s.code < n)
    (hnib : s.nibbleN ≠ 0 → s.nibble < n) (hcnt : codeCnt < n)
    (hfit : startOf s+offsetOf index s+valueLen f buf sz s.nibbleN ≤ n) :
    sendValue codeCnt index f buf sz (cutState n s) =
      (sendValue codeCnt index f buf sz s).map (cutState n) := by
  have hsize : n ≤ s.stream.size := h.size ▸ hn
  unfold sendValue
  rw [writeCode_cut hsize hp hz hcode]
  simp only [Option.bind_eq_bind]
  cases h1 : writeCode index s with
  | none => rfl
  | some s1 =>
    obtain ⟨hsz1,hp1,hnn,hnb,hdata⟩ : s1.stream.size = m ∧
        s1.stream.pos = min m (startOf s+offsetOf index s) ∧ s1.nibbleN = s.nibbleN ∧
        s1.nibble = s.nibble ∧ s1.posData = s.posData := by
      obtain ⟨w1,rfl,hsz1,hp1,-⟩ := writeCode_spec h hd hpos h1
      exact ⟨hsz1,hp1,rfl,rfl,rfl⟩
    rw [Option.map_some,Option.bind_some,Option.bind_some,
      writeValue_cut (hsz1 ▸ hn) (by rw [hnn]; omega) (by rw [hnn,hnb]; exact hnib)]
    cases h2 : writeValue f buf sz s1 with
    | none => rfl
    | some s2 =>
      have hhalf : s1.nibbleN ≠ 0 → s1.posData = s1.stream.pos := by
        rw [hnn,hdata,hp1]
        exact h.half
      have hn2 : n ≤ s2.stream.size := by
        obtain ⟨w2,nibble,rfl,-,hsz2,-⟩ := writeValue_spec h2 (by omega) hhalf
        exact hn.trans (hsz1.ge.trans hsz2.ge)
      have hm := Writer.cut_modifyAt hn2 hcnt (·+1#8)
      rw [Option.map_some,Option.bind_some,Option.bind_some]
      change ((s2.stream.cut n).modifyAt codeCnt (·+1#8)).bind _ = _
      rw [hm]
      cases s2.stream.modifyAt codeCnt (·+1#8) <;> rfl

theorem Shape.cut (h : Shape m s) (hn : n ≤ m) (hd : s.posData ≤ n) : Shape n (cutState n s) := by
  have hp := h.pos
  refine ⟨Writer.size_cut (hn.trans h.size.ge),hd,?_,fun q hq hlt => ?_,h.nibble⟩
  · change min n s.stream.pos = min n (s.posData+s.codeZero)
    omega
  · have hlt' : q < min n s.stream.pos := hlt
    change (s.stream.cut n).buf[q]? = _
    rw [Writer.getElem?_cut (by omega)]
    exact h.zeros q hq (by omega)

end Cut

section
variable {casts : Casts} {garbage : Nat → BitVec 32} {pseq : Byte}

theorem valueLoop_succ {k : Nat} {slot : EncSlot} (hslot : s.enc.slot index = some slot) :
    valueLoop casts garbage pseq codeCnt (k+1) index s =
      if slot.field.fmt = Fmt.bit.code then some (s,index)
      else if passes slot.field pseq then
        (encodeValue casts garbage codeCnt index slot s).bind
          (valueLoop casts garbage pseq codeCnt k (index+1))
      else valueLoop casts garbage pseq codeCnt k (index+1) s := by
  rw [valueLoop,hslot]
  simp only [Option.bind_eq_bind,Option.bind_some]
  by_cases hp : passes slot.field pseq
  · rw [if_pos hp,if_neg (not_not.mpr hp)]
  · rw [if_neg hp,if_pos hp]

def withEnc (g : TelemetryEncoder → TelemetryEncoder) (s : EncodeState) : EncodeState :=
  {s with enc := g s.enc}

theorem encodeValue_eq (hi : index < slotsSize) {slot : EncSlot} (hp : passes slot.field pseq) :
    ∃ g : TelemetryEncoder → TelemetryEncoder, ∀ codeCnt s,
      encodeValue casts garbage codeCnt index slot s =
        if Sends casts (garbage index) pseq slot then
          sendValue codeCnt index slot.field (rawOf casts (garbage index) slot)
            (packValue casts slot.value slot.flags.type slot.field.fmt).length
            (withEnc g (nextBit index s))
        else some (withEnc g (nextBit index s)) := by
  by_cases hu : slot.flags.upd = true
  · let slot' : EncSlot := {slot with flags := {slot.flags with upd := false}}
    by_cases hne : slot.packed ≠ rawOf casts (garbage index) slot
    · let sent : EncSlot := {slot' with packed := rawOf casts (garbage index) slot}
      refine ⟨fun e => {e with slots := Function.update e.slots index sent},fun codeCnt s => ?_⟩
      have hsend : Sends casts (garbage index) pseq slot := ⟨⟨hp,hu⟩,hne⟩
      unfold encodeValue
      rw [if_pos hu,if_pos hsend]
      change (if slot.packed ≠ rawOf casts (garbage index) slot then _ else _) = _
      rw [if_pos hne,setSlot,if_pos hi]
      rfl
    · refine ⟨fun e => {e with slots := Function.update e.slots index slot'},fun codeCnt s => ?_⟩
      have hsend : ¬ Sends casts (garbage index) pseq slot := fun hc => hne hc.2
      unfold encodeValue
      rw [if_pos hu,if_neg hsend]
      change (if slot.packed ≠ rawOf casts (garbage index) slot then _ else _) = _
      rw [if_neg hne,setSlot,if_pos hi]
      rfl
  · refine ⟨id,fun codeCnt s => ?_⟩
    have hsend : ¬ Sends casts (garbage index) pseq slot := fun hc => hu hc.1.2
    unfold encodeValue
    rw [if_neg hu,if_neg hsend]
    rfl

end

section
variable {slot : EncSlot}

/-- What the bit of a bitfield does, in a buffer that may be full. -/
structure Appended (s s' : EncodeState) : Prop where
  enc : s'.enc = s.enc
  size : s'.stream.size = s.stream.size
  pos : s'.stream.pos =
    if s.codeBit = 1#8 <<< 7 then min s.stream.size (s.stream.pos+1) else s.stream.pos
  codeBit : s'.codeBit = if s.codeBit = 1#8 <<< 7 then 1#8 else s.codeBit <<< 1
  code : s'.code = if s.codeBit = 1#8 <<< 7 then s.stream.pos else s.code
  keeps : ∀ q < s.stream.pos, (s.codeBit ≠ 1#8 <<< 7 → q ≠ s.code) →
    s'.stream.buf[q]? = s.stream.buf[q]?

/-- The bit of the next bitfield, in a new byte when the last one is full. -/
def nextFlag (s : EncodeState) : EncodeState :=
  if s.codeBit = 1#8 <<< 7 then
    {s with code := s.stream.pos, stream := s.stream.writeT [0#8], codeBit := 1#8}
  else {s with codeBit := s.codeBit <<< 1}

theorem appendBit_eq (slot : EncSlot) (s : EncodeState) : appendBit slot s =
    if slot.value ≠ 0#32 then
      ((nextFlag s).stream.modifyAt (nextFlag s).code (· ||| (nextFlag s).codeBit)).map fun w =>
        {nextFlag s with stream := w}
    else some (nextFlag s) := by
  rw [Option.map_eq_bind]
  rfl

theorem nextFlag_spec (hp : s.stream.pos ≤ s.stream.size) : Appended s (nextFlag s) := by
  unfold nextFlag
  by_cases hb : s.codeBit = 1#8 <<< 7
  · rw [if_pos hb]
    refine ⟨rfl,Writer.size_writeT _ _,?_,?_,?_,fun q hq _ => ?_⟩
    · rw [if_pos hb]
      exact Writer.pos_put hp _
    · rw [if_pos hb]
    · rw [if_pos hb]
    · exact (Writer.keeps_writeT hp [0#8]).same q hq
  · rw [if_neg hb]
    refine ⟨rfl,rfl,?_,?_,?_,fun _ _ _ => rfl⟩
    · rw [if_neg hb]
    · rw [if_neg hb]
    · rw [if_neg hb]

theorem appendBit_spec (hp : s.stream.pos ≤ s.stream.size) (h : appendBit slot s = some s') :
    Appended s s' := by
  have h1 := nextFlag_spec hp
  have hcode : ∀ q < s.stream.pos, (s.codeBit ≠ 1#8 <<< 7 → q ≠ s.code) →
    q ≠ (nextFlag s).code := by
    intro q hq hc
    rw [h1.code]
    split_ifs with hb
    · exact hq.ne
    · exact hc hb
  rw [appendBit_eq] at h
  by_cases hv : slot.value ≠ 0#32
  · rw [if_pos hv] at h
    obtain ⟨w,hw,rfl⟩ := Option.map_eq_some_iff.mp h
    obtain ⟨-,hpos,hsize,hk⟩ := Writer.modifyAt_spec hw
    exact ⟨h1.enc,hsize.trans h1.size,hpos.trans h1.pos,h1.codeBit,h1.code,fun q hq hc =>
      (hk q (hcode q hq hc)).trans (h1.keeps q hq hc)⟩
  · rw [if_neg hv] at h
    cases h
    exact h1

theorem nextFlag_cut (hn : n ≤ s.stream.size) (hp : s.stream.pos ≤ s.stream.size) :
    nextFlag (cutState n s) = cutState n (nextFlag s) := by
  unfold nextFlag cutState
  dsimp only
  by_cases hb : s.codeBit = 1#8 <<< 7
  · rw [if_pos hb,if_pos hb,Writer.cut_put hn hp]
    rfl
  · rw [if_neg hb,if_neg hb]

theorem appendBit_cut (hn : n ≤ s.stream.size) (hp : s.stream.pos ≤ s.stream.size)
    (hcode : (nextFlag s).code < n) :
    appendBit slot (cutState n s) = (appendBit slot s).map (cutState n) := by
  have hsize := (nextFlag_spec hp).size
  rw [appendBit_eq,appendBit_eq,nextFlag_cut hn hp]
  by_cases hv : slot.value ≠ 0#32
  · rw [if_pos hv,if_pos hv]
    have hm := Writer.cut_modifyAt (hn.trans hsize.ge) hcode (· ||| (nextFlag s).codeBit)
    unfold cutState
    dsimp only
    rw [Nat.min_eq_right hcode.le,hm,Option.map_map,Option.map_map]
    refine congrArg (Option.map · _) (funext fun w => ?_)
    dsimp only [Function.comp_apply]
    rw [Nat.min_eq_right hcode.le]
  · rw [if_neg hv,if_neg hv]
    rfl

end

section
variable {casts : Casts} {garbage : Nat → BitVec 32} {pseq : Byte} {e : TelemetryEncoder}
  {w w' : Writer}

def valuesEnd (s : EncodeState) : EncodeState :=
  {s with stream := s.stream.reset s.posData, codeBit := 1#8 <<< 7}

theorem Shape.valuesEnd_pos (h : Shape n s) : (valuesEnd s).stream = ⟨s.stream.buf,s.posData⟩ := by
  have hle := h.le
  change s.stream.reset s.posData = _
  rw [Writer.reset,if_neg (by rw [h.size]; omega)]

theorem valuesEnd_cut (hn : n ≤ s.stream.size) (hd : s.posData ≤ n) :
    valuesEnd (cutState n s) = cutState n (valuesEnd s) := by
  unfold valuesEnd cutState
  dsimp only
  rw [Writer.cut_reset hn hd]

def startState (e : TelemetryEncoder) (w : Writer) : EncodeState :=
  ⟨e,w.writeT [0#8],(w.writeT [0#8]).pos,(w.writeT [0#8]).pos,1#8 <<< 6,0,0,0,0,[]⟩

theorem startState_cut (hn : n ≤ w.size) (hfit : w.pos+1 ≤ n) (e : TelemetryEncoder) :
    startState e (w.cut n) = cutState n (startState e w) := by
  have hp : (w.writeT [0#8]).pos = w.pos+1 := Writer.pos_writeT (hfit.trans hn)
  unfold startState cutState
  dsimp only
  rw [Writer.cut_put hn (by omega),Writer.pos_cut,hp,Nat.min_eq_right hfit]

def hdrOf (e : TelemetryEncoder) (pseq : Byte) (ts : BitVec 64) : Hdr :=
  ⟨(ts/BitVec.ofNat 64 ts2ms).setWidth 16,hashByte e.hash (pseq.setWidth 2)⟩

theorem encode_eq {e1 : TelemetryEncoder} (he : e.enforceUpdate = some e1) (ts : BitVec 64) :
    e.encode casts garbage w pseq ts =
      (valueLoop casts garbage pseq ((hdrOf e pseq ts).write w).pos e1.slotsCnt 0
        (startState e1 ((hdrOf e pseq ts).write w))).bind fun r =>
          bitLoop (e1.slotsCnt-r.2) r.2 (valuesEnd r.1) := by
  unfold encode encodeValues
  rw [he]
  rfl

theorem nextBit_within (h : s.stream.Within n) (index : Nat) :
    (nextBit index s).stream.Within n := by
  unfold nextBit
  by_cases hb : s.codeBit = 1#8 <<< 6
  · rw [if_pos hb]
    exact h.writeT _
  · rw [if_neg hb]
    exact h

theorem writeOffset_within {fuel d offset : Nat} (h : w.Within n)
    (hw : writeOffset fuel d offset w = some w') : w'.Within n := by
  induction fuel generalizing d offset w with
  | zero => cases hw
  | succ fuel ih =>
    rw [writeOffset] at hw
    by_cases hd : d > 0 ∨ offset = 0x7F
    · rw [if_pos hd] at hw
      exact ih (h.writeT _) hw
    · rw [if_neg hd] at hw
      cases hw
      exact h

theorem writeCode_within (h : s.stream.Within n) (hs : writeCode index s = some s') :
    s'.stream.Within n := by
  unfold writeCode at hs
  split_ifs at hs <;> obtain ⟨w,hw,hs⟩ := Option.bind_eq_some_iff.mp hs <;> cases hs
  · exact writeOffset_within (h.reset _) hw
  · exact writeOffset_within (h.reset _) hw
  · exact h.modifyAt hw

theorem writeValue_within (h : s.stream.Within n) (hs : writeValue f buf sz s = some s') :
    s'.stream.Within n := by
  unfold writeValue at hs
  split_ifs at hs
  · cases hs
    exact h.writeT _
  · obtain ⟨w,hw,hs⟩ := Option.bind_eq_some_iff.mp hs
    cases hs
    exact h.modifyAt hw
  · cases hs
    exact h.write _

theorem sendValue_within (h : s.stream.Within n)
    (hs : sendValue codeCnt index f buf sz s = some s') : s'.stream.Within n := by
  obtain ⟨s1,h1,hs⟩ := Option.bind_eq_some_iff.mp hs
  obtain ⟨s2,h2,hs⟩ := Option.bind_eq_some_iff.mp hs
  obtain ⟨w3,h3,hs⟩ := Option.bind_eq_some_iff.mp hs
  cases hs
  exact (writeValue_within (writeCode_within h h1) h2).modifyAt h3

theorem valueLoop_within {k i stop : Nat} (h : s.stream.Within n)
    (hs : valueLoop casts garbage pseq codeCnt k i s = some (s',stop)) : s'.stream.Within n := by
  induction k generalizing i s with
  | zero =>
    cases hs
    exact h
  | succ k ih =>
    obtain ⟨slot,hslot,hs⟩ := Option.bind_eq_some_iff.mp hs
    split_ifs at hs with hbit hp
    · cases hs
      exact h
    · obtain ⟨s1,hs1,hs⟩ := Option.bind_eq_some_iff.mp hs
      refine ih ?_ hs
      have hi : i < slotsSize := by
        by_contra hi
        rw [TelemetryEncoder.slot,if_neg hi] at hslot
        cases hslot
      obtain ⟨g,hg⟩ := @encodeValue_eq i casts garbage pseq hi slot hp
      rw [hg] at hs1
      split_ifs at hs1
      · exact sendValue_within (s := withEnc g (nextBit i s)) (nextBit_within h i) hs1
      · cases hs1
        exact nextBit_within h i
    · exact ih h hs

theorem bitLoop_within {k i : Nat} (h : s.stream.Within n) (hs : bitLoop k i s = some s') :
    s'.stream.Within n := by
  induction k generalizing i s with
  | zero =>
    cases hs
    exact h
  | succ k ih =>
    obtain ⟨slot,-,hs⟩ := Option.bind_eq_some_iff.mp hs
    obtain ⟨s1,hs1,hs⟩ := Option.bind_eq_some_iff.mp hs
    have hspec := appendBit_spec (h.le.trans h.size.ge) hs1
    have hpos := hspec.pos
    have hle := h.le
    have hsize := h.size
    refine ih ⟨hspec.size.trans hsize,?_⟩ hs
    split_ifs at hpos <;> omega

theorem encode_within (h : w.Within n) {ts : BitVec 64}
    (hs : e.encode casts garbage w pseq ts = some s) : s.stream.Within n := by
  obtain ⟨e1,he1,-⟩ := Option.bind_eq_some_iff.mp hs
  rw [encode_eq he1] at hs
  obtain ⟨⟨s1,stop⟩,h1,hs⟩ := Option.bind_eq_some_iff.mp hs
  have hstart : (startState e1 ((hdrOf e pseq ts).write w)).stream.Within n :=
    ((h.writeT _).writeT _).writeT _
  exact bitLoop_within ((valueLoop_within hstart h1).reset _) hs

end

end TelemetryEncoder

end ApxBus.Telemetry
