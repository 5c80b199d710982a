import ApxBus.Serial.Cobs
set_option autoImplicit false

/-! Packets over a serial stream: cut anywhere, and after anything, they are read back. -/

namespace ApxBus.Serial

/-- The encoding of `data` in blocks: each is led by its length, and between two blocks stands a
zero unless the first is full. -/
inductive Blocks : List Byte → List Byte → Prop where
  | last {code : Byte} {block : List Byte} (hz : ∀ c ∈ block, c ≠ 0#8)
      (hc : code.toNat = block.length+1) : Blocks (code :: block) block
  | zero {code : Byte} {block wire data : List Byte} (hz : ∀ c ∈ block, c ≠ 0#8)
      (hc : code.toNat = block.length+1) (hf : code ≠ 0xFF#8) (h : Blocks wire data) :
      Blocks (code :: block ++ wire) (block ++ 0#8 :: data)
  | full {block wire data : List Byte} (hz : ∀ c ∈ block, c ≠ 0#8)
      (hc : block.length = 254) (h : Blocks wire data) :
      Blocks (0xFF#8 :: block ++ wire) (block ++ data)

namespace CobsEncoder

theorem copy_append (esc : Byte) (e : CobsEncoder) (a b : List Byte) :
    copy esc e (a ++ b) = copy esc (copy esc e a) b := by
  induction a generalizing e with
  | nil => rfl
  | cons c a ih =>
    simp only [List.cons_append,copy]
    split_ifs <;> exact ih _

/-- `block` is being written behind `done`. -/
structure Writing (e : CobsEncoder) (done block : List Byte) : Prop where
  out : ∃ x, e.out = done ++ x :: block
  codePtr : e.codePtr = done.length
  code : e.code.toNat = block.length+1
  nonzero : ∀ c ∈ block, c ≠ 0#8

variable {e : CobsEncoder} {done block : List Byte}

theorem startBlock_writing (done : List Byte) : (startBlock done).Writing done [] :=
  ⟨⟨1#8,rfl⟩,rfl,rfl,by simp⟩

theorem Writing.finishBlock (h : e.Writing done block) :
    e.finishBlock = done ++ e.code :: block := by
  obtain ⟨x,hx⟩ := h.out
  rw [CobsEncoder.finishBlock,hx,h.codePtr,List.set_append_right _ _ (Nat.le_refl _)]
  simp

theorem Writing.nextBlock (h : e.Writing done block) :
    e.nextBlock.Writing (done ++ e.code :: block) [] := by
  rw [CobsEncoder.nextBlock,h.finishBlock]
  exact startBlock_writing _

theorem nextBlock_code (e : CobsEncoder) : e.nextBlock.code ≠ 0xFF#8 := by
  simp [nextBlock,startBlock]

theorem Writing.full_length (h : e.Writing done block) (hf : e.code = 0xFF#8) :
    block.length = 254 := by
  have hc := h.code
  rw [hf] at hc
  simp only [BitVec.toNat_ofNat] at hc
  omega

theorem Writing.put (h : e.Writing done block) {c : Byte} (hc : c ≠ 0#8) (hf : e.code ≠ 0xFF#8) :
    (e.put c).Writing done (block ++ [c]) := by
  obtain ⟨x,hx⟩ := h.out
  have hlt : e.code.toNat ≠ 255 := fun h => hf (BitVec.eq_of_toNat_eq h)
  have hcode := h.code
  refine ⟨⟨x,by simp [CobsEncoder.put,hx]⟩,h.codePtr,?_,?_⟩
  · simp only [CobsEncoder.put,BitVec.toNat_add,List.length_append,List.length_singleton]
    have h1 : (1#8).toNat = 1 := rfl
    have h256 := e.code.isLt
    omega
  · intro b hb
    rcases List.mem_append.mp hb with hb | hb
    · exact h.nonzero b hb
    · rw [List.mem_singleton.mp hb]
      exact hc

/-- What is written for `data` once `block` has begun. -/
theorem Writing.copy (h : e.Writing done block) (data : List Byte) :
    ∃ wire, (CobsEncoder.copy 0#8 e data).finishBlock = done ++ wire ∧
      Blocks wire (block ++ data) := by
  induction data generalizing e done block with
  | nil =>
    refine ⟨e.code :: block,by rw [CobsEncoder.copy,h.finishBlock],?_⟩
    rw [List.append_nil]
    exact .last h.nonzero h.code
  | cons c cs ih =>
    rw [CobsEncoder.copy]
    by_cases hf : e.code = 0xFF#8
    · have hlen := h.full_length hf
      have hn := h.nextBlock
      have hnf := e.nextBlock_code
      simp only [hf,if_true]
      by_cases hc : c = 0#8
      · obtain ⟨wire,hw,hb⟩ := ih hn.nextBlock
        rw [if_neg (by simp [hc])]
        refine ⟨0xFF#8 :: block ++ ([e.nextBlock.code] ++ wire),by rw [hw,hf]; simp,?_⟩
        rw [hc]
        refine .full h.nonzero hlen ?_
        exact .zero hn.nonzero hn.code hnf hb
      · obtain ⟨wire,hw,hb⟩ := ih (hn.put hc hnf)
        rw [if_pos hc]
        refine ⟨0xFF#8 :: block ++ wire,by rw [hw,hf]; simp,?_⟩
        exact .full h.nonzero hlen hb
    · simp only [hf,if_false]
      by_cases hc : c = 0#8
      · obtain ⟨wire,hw,hb⟩ := ih h.nextBlock
        rw [if_neg (by simp [hc])]
        refine ⟨e.code :: block ++ wire,by rw [hw]; simp,?_⟩
        rw [hc]
        exact .zero h.nonzero h.code hf hb
      · obtain ⟨wire,hw,hb⟩ := ih (h.put hc hf)
        rw [if_pos hc]
        exact ⟨wire,hw,by simpa using hb⟩

def checksum (src : List Byte) : List Byte :=
  bytes16 ((crc32 src src.length crcInit).setWidth 16)

theorem encode_blocks (src : List Byte) :
    ∃ wire, encode 0#8 src = wire ++ [0#8] ∧ Blocks wire (src ++ checksum src) := by
  obtain ⟨wire,hw,hb⟩ := (startBlock_writing []).copy (src ++ checksum src)
  refine ⟨wire,?_,hb⟩
  rw [copy_append] at hw
  simp only [encode]
  exact congrArg (· ++ [0#8]) hw

end CobsEncoder

namespace CobsDecoder
variable {packetSize : Nat} {d : CobsDecoder packetSize} {code : Byte} {got : List Byte}

def bytes (esc : Byte) : CobsDecoder packetSize → List Byte →
    CobsDecoder packetSize × List (List Byte)
  | d, [] => (d,[])
  | d, c :: cs =>
    match d.byte esc c with
    | (d,true) => let (e,ps) := bytes esc d cs; (e,d.packet :: ps)
    | (d,false) => bytes esc d cs

theorem bytes_append (esc : Byte) (d : CobsDecoder packetSize) (a b : List Byte) :
    d.bytes esc (a ++ b) = (((d.bytes esc a).1.bytes esc b).1,
      (d.bytes esc a).2 ++ ((d.bytes esc a).1.bytes esc b).2) := by
  induction a generalizing d with
  | nil => rfl
  | cons c a ih =>
    simp only [List.cons_append,bytes]
    cases h : d.byte esc c with
    | mk d' f => cases f <;> simp [ih]

/-- `got` is what is decoded, of blocks of which the last has the code `code` and still `copy`
bytes to come. -/
structure Holds (d : CobsDecoder packetSize) (code : Byte) (copy : Nat) (got : List Byte) :
    Prop where
  code : d.code = code
  copy : d.copy.toNat = copy
  rcnt : d.rcnt = got.length
  got : d.buf.toList.take got.length = got

theorem restart_holds (d : CobsDecoder packetSize) : d.restart.Holds 0xFF#8 0 [] :=
  ⟨rfl,rfl,rfl,by simp⟩

theorem take_set {l : List Byte} {n : Nat} (h : n < l.length) (c : Byte) :
    (l.set n c).take (n+1) = l.take n ++ [c] := by
  rw [List.take_succ_eq_append_getElem (by simpa using h),List.take_set_of_le (Nat.le_refl n),
    List.getElem_set_self]

theorem Holds.write {copy : Nat} (h : d.Holds code copy got) (c : Byte)
    (hr : got.length < packetSize+2) :
    ∃ d', d.writeDecodedByte c = some d' ∧ d'.Holds code copy (got ++ [c]) ∧
      d'.code = d.code ∧ d'.copy = d.copy := by
  have hlt : d.rcnt < packetSize+2 := h.rcnt ▸ hr
  refine ⟨_,dif_pos hlt,⟨h.code,h.copy,by simp [h.rcnt],?_⟩,rfl,rfl⟩
  rw [Vector.toList_set,List.length_append,List.length_singleton,h.rcnt,
    take_set (by simpa using hr),h.got]

theorem Holds.data {copy : Nat} (h : d.Holds code (copy+1) got) {c : Byte} (hc : c ≠ 0#8)
    (hr : got.length < packetSize+2) :
    ∃ d', d.byte 0#8 c = (d',false) ∧ d'.Holds code copy (got ++ [c]) := by
  have hcopy := h.copy
  have hz : d.copy ≠ 0#8 := by
    intro hz
    rw [hz] at hcopy
    simp at hcopy
  obtain ⟨d',hw,hh,-,hcp⟩ := h.write c hr
  refine ⟨{d' with copy := d'.copy-1#8},by simp [byte,hc,dataByte,hz,hw],
    hh.code,?_,hh.rcnt,hh.got⟩
  have h1 := d.copy.isLt
  simp only [hcp,BitVec.toNat_sub,BitVec.toNat_ofNat]
  omega

theorem Holds.block {block : List Byte} (h : d.Holds code block.length got)
    (hz : ∀ c ∈ block, c ≠ 0#8) (hr : got.length+block.length ≤ packetSize+2) :
    ∃ d', d.bytes 0#8 block = (d',[]) ∧ d'.Holds code 0 (got ++ block) := by
  induction block generalizing d got with
  | nil => exact ⟨d,rfl,by simpa using h⟩
  | cons c block ih =>
    simp only [List.length_cons] at hr
    obtain ⟨d',hd,hh⟩ := h.data (hz c (by simp)) (by omega)
    obtain ⟨d'',hd',hh'⟩ := ih hh (fun x hx => hz x (by simp [hx])) (by simp; omega)
    exact ⟨d'',by simp [bytes,hd,hd'],by simpa using hh'⟩

def gap (code : Byte) : List Byte := if code = 0xFF#8 then [] else [0#8]

theorem gap_full : gap 0xFF#8 = [] := rfl

theorem gap_zero (h : code ≠ 0xFF#8) : gap code = [0#8] := if_neg h

theorem Holds.lead (h : d.Holds code 0 got) {c : Byte} (hc : c ≠ 0#8)
    (hr : (got ++ gap code).length ≤ packetSize+2) :
    ∃ d', d.byte 0#8 c = (d',false) ∧ d'.Holds c (c.toNat-1) (got ++ gap code) := by
  have hz : d.copy = 0#8 := BitVec.eq_of_toNat_eq h.copy
  have hpos : c.toNat ≠ 0 := fun h => hc (BitVec.eq_of_toNat_eq h)
  have hsub : (c-1#8).toNat = c.toNat-1 := by
    have hlt := c.isLt
    simp only [BitVec.toNat_sub,BitVec.toNat_ofNat]
    omega
  by_cases hf : code = 0xFF#8
  · subst hf
    rw [gap_full,List.append_nil]
    exact ⟨{d with code := c, copy := c-1#8},by simp [byte,hc,dataByte,hz,h.code],
      rfl,hsub,h.rcnt,h.got⟩
  · rw [gap_zero hf] at hr ⊢
    simp only [List.length_append,List.length_singleton] at hr
    obtain ⟨d',hw,hh,-,-⟩ := h.write 0#8 (by omega)
    exact ⟨{d' with code := c, copy := c-1#8},by simp [byte,hc,dataByte,hz,h.code,hf,hw],
      rfl,hsub,hh.rcnt,hh.got⟩

theorem Holds.wire {wire data : List Byte} (hb : Blocks wire data) (h : d.Holds code 0 got)
    (hr : (got ++ gap code ++ data).length ≤ packetSize+2) :
    ∃ d' code', d.bytes 0#8 wire = (d',[]) ∧ d'.Holds code' 0 (got ++ gap code ++ data) := by
  have hblock : ∀ {d : CobsDecoder packetSize} {code got} {c : Byte} {block : List Byte},
      d.Holds code 0 got → c.toNat = block.length+1 → (∀ c ∈ block, c ≠ 0#8) →
      (got ++ gap code ++ block).length ≤ packetSize+2 →
      ∃ d', d.bytes 0#8 (c :: block) = (d',[]) ∧ d'.Holds c 0 (got ++ gap code ++ block) := by
    intro d code got c block h hc hz hr
    have hcz : c ≠ 0#8 := by
      rintro rfl
      simp at hc
    rw [List.length_append] at hr
    obtain ⟨d1,hd1,hh1⟩ := h.lead hcz (by omega)
    rw [show c.toNat-1 = block.length by omega] at hh1
    obtain ⟨d2,hd2,hh2⟩ := hh1.block hz hr
    exact ⟨d2,by simp [bytes,hd1,hd2],hh2⟩
  induction hb generalizing d code got with
  | last hz hc =>
    obtain ⟨d',hd,hh⟩ := hblock h hc hz hr
    exact ⟨d',_,hd,hh⟩
  | @zero c block wire data hz hc hf hb ih =>
    simp only [List.length_append,List.length_cons] at hr
    obtain ⟨d1,hd1,hh1⟩ := hblock h hc hz (by simp only [List.length_append]; omega)
    obtain ⟨d2,code',hd2,hh2⟩ := ih hh1 (by
      simp only [gap_zero hf,List.length_append,List.length_singleton]; omega)
    refine ⟨d2,code',by rw [bytes_append,hd1]; simp [hd2],?_⟩
    simpa [gap_zero hf] using hh2
  | @full block wire data hz hc hb ih =>
    simp only [List.length_append] at hr
    obtain ⟨d1,hd1,hh1⟩ := hblock h (c := 0xFF#8) (by rw [hc]; rfl) hz
      (by simp only [List.length_append]; omega)
    obtain ⟨d2,code',hd2,hh2⟩ := ih hh1 (by
      simp only [gap_full,List.length_append,List.length_nil]; omega)
    refine ⟨d2,code',by rw [bytes_append,hd1]; simp [hd2],?_⟩
    simpa [gap_full] using hh2

/-- The two bytes behind `p` are read as its checksum. -/
theorem Holds.delimiter_eq {p : List Byte} {b0 b1 : Byte} (h : d.Holds code 0 (p ++ [b0,b1]))
    (hp : p ≠ []) :
    d.buf.toList.take p.length = p ∧
    d.delimiter = if le16 b0 b1 ≠ (crc32 p p.length crcInit).setWidth 16 then d.fail .errorCRC
      else {d with rsize := p.length, status := .packetAvailable}.restart := by
  have hz : d.copy = 0#8 := BitVec.eq_of_toNat_eq h.copy
  have hpos := List.length_pos_iff.mpr hp
  have hlen : (p ++ [b0,b1]).length = p.length+2 := by simp
  have hr := h.rcnt
  rw [hlen] at hr
  have hg := h.got
  rw [hlen] at hg
  have hsub : d.rcnt-2 = p.length := by omega
  have hlong : ¬ d.rcnt ≤ 2 := by omega
  have htake : d.buf.toList.take p.length = p := by
    have ht := congrArg (List.take p.length) hg
    simpa [List.take_take] using ht
  have hget : ∀ i, i < p.length+2 → d.buf.toList.getD i 0#8 = (p ++ [b0,b1]).getD i 0#8 := by
    intro i hi
    rw [← hg]
    simp [List.getD_eq_getElem?_getD,hi]
  have hcrc : crc32 d.buf.toList p.length crcInit = crc32 p p.length crcInit := by
    rw [← crc32_take,htake]
  have h0 : d.buf.toList.getD p.length 0#8 = b0 := by
    rw [hget _ (by omega)]
    simp
  have h1 : d.buf.toList.getD (p.length+1) 0#8 = b1 := by
    rw [hget _ (by omega)]
    simp
  refine ⟨htake,?_⟩
  unfold CobsDecoder.delimiter
  rw [if_neg (not_not.mpr hz),if_neg hlong,hsub]
  dsimp only
  rw [hcrc,h0,h1]

theorem Holds.delimiter {p : List Byte} (h : d.Holds code 0 (p ++ CobsEncoder.checksum p))
    (hp : p ≠ []) :
    ∃ d', d.byte 0#8 0#8 = (d',true) ∧ d'.packet = p ∧ d'.Holds 0xFF#8 0 [] := by
  obtain ⟨htake,hdel⟩ := Holds.delimiter_eq h hp
  rw [le16_bytes,if_neg (not_not.mpr rfl)] at hdel
  refine ⟨_,by simp only [byte,if_true,hdel]; rfl,?_,restart_holds _⟩
  exact htake

theorem Holds.encoded (h : d.Holds 0xFF#8 0 []) {p : List Byte} (hp : p ≠ [])
    (hl : p.length ≤ packetSize) :
    ∃ d', d.bytes 0#8 (CobsEncoder.encode 0#8 p) = (d',[p]) ∧ d'.Holds 0xFF#8 0 [] := by
  obtain ⟨wire,hw,hb⟩ := CobsEncoder.encode_blocks p
  obtain ⟨d1,code,hd1,hh1⟩ := h.wire hb (by simp [gap_full,CobsEncoder.checksum]; omega)
  obtain ⟨d2,hd2,hpkt,hh2⟩ := Holds.delimiter (by simpa [gap_full] using hh1) hp
  refine ⟨d2,?_,hh2⟩
  rw [hw,bytes_append,hd1]
  simp [bytes,hd2,hpkt]

theorem Holds.stream (h : d.Holds 0xFF#8 0 []) {ps : List (List Byte)}
    (hp : ∀ p ∈ ps, p ≠ [] ∧ p.length ≤ packetSize) :
    (d.bytes 0#8 (ps.flatMap (CobsEncoder.encode 0#8))).2 = ps := by
  induction ps generalizing d with
  | nil => rfl
  | cons p ps ih =>
    obtain ⟨d',hd,hh⟩ := h.encoded (hp p (by simp)).1 (hp p (by simp)).2
    rw [List.flatMap_cons,bytes_append,hd]
    exact congrArg (p :: ·) (ih hh fun q hq => hp q (by simp [hq]))

theorem delimiter_holds (d : CobsDecoder packetSize) :
    (d.bytes 0#8 [0#8]).1.Holds 0xFF#8 0 [] ∧ (d.bytes 0#8 [0#8]).2.length ≤ 1 := by
  have hdel : ∃ e : CobsDecoder packetSize, d.delimiter = e.restart := by
    unfold CobsDecoder.delimiter
    dsimp only
    split_ifs <;> exact ⟨_,rfl⟩
  obtain ⟨e,he⟩ := hdel
  by_cases hf : e.restart.status = .packetAvailable <;>
    simp [bytes,byte,he,hf,restart_holds]

def Same (d e : CobsDecoder packetSize) : Prop := ∃ s, e = {d with status := s}

theorem Same.trans {d e f : CobsDecoder packetSize} (h : Same d e) (h' : Same e f) :
    Same d f := by
  obtain ⟨s,rfl⟩ := h
  obtain ⟨t,rfl⟩ := h'
  exact ⟨t,rfl⟩

theorem Same.delimiter {d e : CobsDecoder packetSize} (h : Same d e) :
    d.delimiter = e.delimiter := by
  obtain ⟨s,rfl⟩ := h
  rfl

theorem fail_same {d e : CobsDecoder packetSize} (h : Same d e) (st : SerialDecoderStatus) :
    Same (d.fail st) (e.fail st) := by
  obtain ⟨s,rfl⟩ := h
  exact ⟨st,rfl⟩

theorem Same.write {d e : CobsDecoder packetSize} (h : Same d e) (c : Byte) :
    (d.writeDecodedByte c = none ∧ e.writeDecodedByte c = none) ∨
    ∃ d' e', d.writeDecodedByte c = some d' ∧ e.writeDecodedByte c = some e' ∧ Same d' e' := by
  obtain ⟨s,rfl⟩ := h
  by_cases hr : d.rcnt < packetSize+2
  · exact Or.inr ⟨_,_,dif_pos hr,dif_pos hr,⟨s,rfl⟩⟩
  · exact Or.inl ⟨dif_neg hr,dif_neg hr⟩

theorem Same.dataByte {d e : CobsDecoder packetSize} (h : Same d e) (esc c : Byte) :
    Same (d.dataByte esc c) (e.dataByte esc c) := by
  have hcopy : e.copy = d.copy := by obtain ⟨s,rfl⟩ := h; rfl
  have hcode : e.code = d.code := by obtain ⟨s,rfl⟩ := h; rfl
  unfold CobsDecoder.dataByte
  rw [hcopy,hcode]
  by_cases hc : d.copy ≠ 0#8
  · rw [if_pos hc,if_pos hc]
    rcases h.write c with ⟨hd,he⟩ | ⟨d',e',hd,he,s,rfl⟩
    · rw [hd,he]
      exact fail_same h _
    · rw [hd,he]
      exact ⟨s,rfl⟩
  · rw [if_neg hc,if_neg hc]
    by_cases hf : d.code ≠ 0xFF#8
    · rw [if_pos hf,if_pos hf]
      rcases h.write esc with ⟨hd,he⟩ | ⟨d',e',hd,he,s,rfl⟩
      · rw [hd,he]
        exact fail_same h _
      · rw [hd,he]
        exact ⟨s,rfl⟩
    · rw [if_neg hf,if_neg hf]
      obtain ⟨s,rfl⟩ := h
      exact ⟨s,rfl⟩

theorem Same.bytes {d e : CobsDecoder packetSize} (h : Same d e) (esc : Byte) (cs : List Byte) :
    Same (d.bytes esc cs).1 (e.bytes esc cs).1 ∧ (d.bytes esc cs).2 = (e.bytes esc cs).2 := by
  induction cs generalizing d e with
  | nil => exact ⟨h,rfl⟩
  | cons c cs ih =>
    by_cases hc : c = esc
    · have hb : d.bytes esc (c :: cs) = e.bytes esc (c :: cs) := by
        simp only [CobsDecoder.bytes,byte,hc,if_true,h.delimiter]
      exact ⟨⟨_,congrArg Prod.fst hb.symm⟩,congrArg Prod.snd hb⟩
    · simp only [CobsDecoder.bytes,byte,hc,if_false]
      exact ih (h.dataByte esc c)

theorem write_status {d' : CobsDecoder packetSize} {c : Byte}
    (h : d.writeDecodedByte c = some d') : d'.status = d.status := by
  unfold writeDecodedByte at h
  split_ifs at h
  cases h
  rfl

theorem dataByte_status {esc c : Byte} (h : d.status ≠ .packetAvailable) :
    (d.dataByte esc c).status ≠ .packetAvailable := by
  unfold dataByte
  split
  · split
    · simp [fail,restart]
    · rename_i d' hw
      rw [write_status hw]
      exact h
  · split
    · simp [fail,restart]
    · rename_i d' hw
      split_ifs at hw with hf
      · rw [write_status hw]
        exact h
      · cases hw
        exact h

/-- `decode` either takes all bytes and no packet is complete, or stops behind the first byte
that completes one. -/
theorem decodeLoop_bytes (esc : Byte) (sz : Nat) (hd : d.status ≠ .packetAvailable)
    (cs : List Byte) :
    (∃ e, decodeLoop esc sz d cs = (e,sz) ∧ e.status ≠ .packetAvailable ∧
      Same e (d.bytes esc cs).1 ∧ (d.bytes esc cs).2 = []) ∨
    ∃ e rest done, decodeLoop esc sz d cs = (e,sz-rest.length) ∧ e.status = .packetAvailable ∧
      cs = done ++ rest ∧ done ≠ [] ∧
      d.bytes esc cs = ((e.bytes esc rest).1,e.packet :: (e.bytes esc rest).2) := by
  induction cs generalizing d with
  | nil =>
    refine Or.inl ⟨_,rfl,?_,?_,rfl⟩
    · split_ifs <;> simp [hd]
    · split_ifs
      · exact ⟨d.status,rfl⟩
      · exact ⟨d.status,rfl⟩
      · exact ⟨d.status,rfl⟩
  | cons c cs ih =>
    by_cases hc : c = esc
    · by_cases hf : d.delimiter.status = .packetAvailable
      · refine Or.inr ⟨d.delimiter,cs,[c],?_,hf,rfl,by simp,?_⟩
        · simp [decodeLoop,byte,hc,hf]
        · simp [bytes,byte,hc,hf]
      · simp only [decodeLoop,bytes,byte,hc,hf,if_true,decide_false]
        rcases ih hf with h | ⟨e,rest,done,h1,h2,h3,-,h5⟩
        · exact Or.inl h
        · exact Or.inr ⟨e,rest,esc :: done,h1,h2,by rw [h3]; rfl,by simp,h5⟩
    · simp only [decodeLoop,bytes,byte,hc,if_false]
      rcases ih (dataByte_status hd) with h | ⟨e,rest,done,h1,h2,h3,-,h5⟩
      · exact Or.inl h
      · exact Or.inr ⟨e,rest,c :: done,h1,h2,by rw [h3]; rfl,by simp,h5⟩

theorem feedRest_bytes (esc : Byte) {fuel : Nat} {src : List Byte} (hf : src.length < fuel) :
    Same (d.feedRest esc fuel src).1 (d.bytes esc src).1 ∧
      (d.feedRest esc fuel src).2 = (d.bytes esc src).2 := by
  induction fuel generalizing d src with
  | zero => omega
  | succ fuel ih =>
    have hs := Same.bytes (d := {d with status := .unknown}) ⟨d.status,rfl⟩ esc src
    rcases decodeLoop_bytes (d := {d with status := .unknown}) esc src.length (by simp) src with
      ⟨e,hd,he,hsame,hnil⟩ | ⟨e,rest,done,hd,he,rfl,hne,hb⟩
    · simp only [feedRest,decode,hd,he,if_false]
      exact ⟨hsame.trans hs.1,hnil.symm.trans hs.2⟩
    · have hpos := List.length_pos_iff.mpr hne
      have hlen : (done ++ rest).length-rest.length = done.length := by simp
      rw [List.length_append] at hf
      have hrest : rest.length < fuel := by omega
      obtain ⟨h1,h2⟩ := ih (d := e) hrest
      simp only [feedRest,decode,hd,he,if_true,hlen,List.drop_left]
      rw [hb] at hs
      exact ⟨h1.trans hs.1,by rw [h2,← hs.2]⟩

theorem feed_bytes (esc : Byte) (d : CobsDecoder packetSize) (chunks : List (List Byte)) :
    Same (d.feed esc chunks).1 (d.bytes esc chunks.flatten).1 ∧
      (d.feed esc chunks).2 = (d.bytes esc chunks.flatten).2 := by
  induction chunks generalizing d with
  | nil => exact ⟨⟨d.status,rfl⟩,rfl⟩
  | cons chunk chunks ih =>
    obtain ⟨h1,h2⟩ := feedRest_bytes (d := d) esc (Nat.lt_succ_self chunk.length)
    obtain ⟨h3,h4⟩ := ih (d.feedRest esc (chunk.length+1) chunk).1
    obtain ⟨h5,h6⟩ := h1.bytes esc chunks.flatten
    rw [List.flatten_cons,bytes_append]
    exact ⟨h3.trans h5,by rw [← h2,← h6,← h4]; rfl⟩

/-- A zero and then any packets, cut in any way and received in any state: behind the packet
that the zero may complete come exactly these packets. -/
theorem cobs_stream (d : CobsDecoder packetSize) (ps chunks : List (List Byte))
    (hp : ∀ p ∈ ps, 1 ≤ p.length ∧ p.length ≤ packetSize)
    (hc : chunks.flatten = [0#8] ++ ps.flatMap (CobsEncoder.encode 0#8)) :
    (d.feed 0#8 chunks).2 = (d.feed 0#8 [[0#8]]).2 ++ ps ∧
      (d.feed 0#8 [[0#8]]).2.length ≤ 1 := by
  obtain ⟨hh,hl⟩ := delimiter_holds d
  have h0 : (d.feed 0#8 [[0#8]]).2 = (d.bytes 0#8 [0#8]).2 := (feed_bytes 0#8 d [[0#8]]).2
  refine ⟨?_,h0 ▸ hl⟩
  rw [(feed_bytes 0#8 d chunks).2,hc,bytes_append,h0]
  refine congrArg (_ ++ ·) (hh.stream fun p hm => ⟨?_,(hp p hm).2⟩)
  exact List.length_pos_iff.mp (hp p hm).1

/-- Two packets cut inside the first, received behind the unfinished beginning of another. -/
theorem cobs_stream_two :
    ((⟨Vector.replicate 5 0#8,0,1,2#8,7#8,.dataAccepted⟩ : CobsDecoder 3).feed 0#8
      [[0#8,2#8,1#8,4#8],[2#8,194#8,153#8,0#8,4#8,5#8,16#8,182#8,0#8]]).2 =
      [[1#8,0#8,2#8],[5#8]] := by
  have h := cobs_stream (⟨Vector.replicate 5 0#8,0,1,2#8,7#8,.dataAccepted⟩ : CobsDecoder 3)
    [[1#8,0#8,2#8],[5#8]] [[0#8,2#8,1#8,4#8],[2#8,194#8,153#8,0#8,4#8,5#8,16#8,182#8,0#8]]
    (by decide) (by decide)
  have h0 : ((⟨Vector.replicate 5 0#8,0,1,2#8,7#8,.dataAccepted⟩ : CobsDecoder 3).feed 0#8
      [[0#8]]).2 = [] := by decide
  rw [h0] at h
  exact h.1

end CobsDecoder

end ApxBus.Serial
