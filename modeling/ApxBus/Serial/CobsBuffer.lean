import ApxBus.Serial.CobsFrames
set_option autoImplicit false

/-! What the serial codecs touch of their buffers, `_buf` of `xbus/serial/CobsEncoder.h` and
`CobsDecoder.h`. -/

namespace ApxBus.Serial

/-- A store into a buffer; outside of it there is no result. -/
def store (buf : List Byte) (i : Nat) (c : Byte) : Option (List Byte) :=
  if i < buf.length then some (buf.set i c) else none

/-- The variables of `CobsEncoder::encode`, over the whole of `_buf`. -/
structure EncodeState where
  buf : List Byte
  dest : Nat
  codePtr : Nat
  code : Byte
  deriving DecidableEq, Repr

namespace EncodeState

def startBlock (s : EncodeState) : Option EncodeState := do
  return ⟨← store s.buf s.dest 1#8,s.dest+1,s.dest,1#8⟩

def finishBlock (s : EncodeState) : Option EncodeState := do
  return {s with buf := ← store s.buf s.codePtr s.code}

def nextBlock (s : EncodeState) : Option EncodeState := do (← s.finishBlock).startBlock

def put (s : EncodeState) (c : Byte) : Option EncodeState := do
  return {s with buf := ← store s.buf s.dest c, dest := s.dest+1, code := s.code+1#8}

def copy (esc : Byte) : EncodeState → List Byte → Option EncodeState
  | s, [] => some s
  | s, c :: cs => do
    let s ← if s.code = 0xFF#8 then s.nextBlock else some s
    if c ≠ esc then copy esc (← s.put c) cs else copy esc (← s.nextBlock) cs

/-- `encode`: the buffer and the returned size. -/
def encode (esc : Byte) (buf src : List Byte) : Option (List Byte × Nat) := do
  let s ← startBlock ⟨buf,0,0,1#8⟩
  let s ← copy esc s src
  let crc16 := (crc32 src src.length crcInit).setWidth 16
  let s ← copy esc s (bytes16 crc16)
  let s ← s.finishBlock
  return (← store s.buf s.dest esc,s.dest+1)

/-- The state over `buf` writes what the encoder `e` has written. -/
structure Mirrors (s : EncodeState) (e : CobsEncoder) (buf : List Byte) : Prop where
  buf : s.buf = e.out ++ buf.drop e.out.length
  dest : s.dest = e.out.length
  codePtr : s.codePtr = e.codePtr
  code : s.code = e.code
  inside : e.codePtr < e.out.length

variable {s : EncodeState} {e : CobsEncoder} {buf : List Byte}

theorem store_append {out : List Byte} {c : Byte} (h : out.length < buf.length) :
    store (out ++ buf.drop out.length) out.length c =
      some (out ++ [c] ++ buf.drop (out ++ [c]).length) := by
  have hlen : out.length < (out ++ buf.drop out.length).length := by
    rw [List.length_append,List.length_drop]
    omega
  rw [store,if_pos hlen,List.drop_eq_getElem_cons h,List.set_append_right _ _ (Nat.le_refl _),
    Nat.sub_self,List.set_cons_zero,List.length_append,List.length_singleton]
  simp

theorem startBlock_mirrors {out : List Byte} {code : Byte} {codePtr : Nat}
    (h : out.length < buf.length) :
    ∃ s', startBlock ⟨out ++ buf.drop out.length,out.length,codePtr,code⟩ = some s' ∧
      s'.Mirrors (CobsEncoder.startBlock out) buf := by
  refine ⟨_,by rw [startBlock,store_append h]; rfl,rfl,?_,rfl,rfl,?_⟩
  · simp [CobsEncoder.startBlock]
  · simp [CobsEncoder.startBlock]

theorem Mirrors.finishBlock (h : s.Mirrors e buf) :
    s.finishBlock = some ⟨e.finishBlock ++ buf.drop e.finishBlock.length,e.finishBlock.length,
      s.codePtr,s.code⟩ := by
  have hlen : e.finishBlock.length = e.out.length := List.length_set
  have hlt : s.codePtr < s.buf.length := by
    rw [h.buf,h.codePtr,List.length_append]
    exact Nat.lt_add_right _ h.inside
  rw [EncodeState.finishBlock,store,if_pos hlt,h.buf,h.codePtr,h.code,h.dest,hlen,
    List.set_append_left _ _ h.inside]
  rfl

theorem Mirrors.nextBlock (h : s.Mirrors e buf) (hfit : e.out.length < buf.length) :
    ∃ s', s.nextBlock = some s' ∧ s'.Mirrors e.nextBlock buf := by
  have hlen : e.finishBlock.length = e.out.length := List.length_set
  rw [EncodeState.nextBlock,h.finishBlock]
  exact startBlock_mirrors (by rw [hlen]; exact hfit)

theorem Mirrors.put (h : s.Mirrors e buf) (hfit : e.out.length < buf.length) (c : Byte) :
    ∃ s', s.put c = some s' ∧ s'.Mirrors (e.put c) buf := by
  have hput : s.put c = some ⟨e.out ++ [c] ++ buf.drop (e.out ++ [c]).length,e.out.length+1,
      s.codePtr,s.code+1#8⟩ := by
    rw [EncodeState.put,h.buf,h.dest,store_append hfit]
    rfl
  refine ⟨_,hput,rfl,?_,h.codePtr,?_,?_⟩
  · simp [CobsEncoder.put]
  · rw [h.code]
    rfl
  · rw [CobsEncoder.put,List.length_append]
    exact Nat.lt_add_right _ h.inside

end EncodeState

namespace CobsEncoder

theorem nextBlock_length (e : CobsEncoder) : e.nextBlock.out.length = e.out.length+1 := by
  simp [nextBlock,startBlock,finishBlock]

theorem put_length (e : CobsEncoder) (c : Byte) : (e.put c).out.length = e.out.length+1 := by
  simp [put]

theorem copy_length_le (esc : Byte) (e : CobsEncoder) (cs : List Byte) :
    e.out.length ≤ (copy esc e cs).out.length := by
  induction cs generalizing e with
  | nil => exact Nat.le_refl _
  | cons c cs ih =>
    have hnext := e.nextBlock_length
    rw [copy]
    split_ifs <;> refine le_trans ?_ (ih _) <;> simp only [put_length,nextBlock_length] <;> omega

end CobsEncoder

namespace EncodeState

variable {s : EncodeState} {e : CobsEncoder} {buf : List Byte}

theorem copy_cons (esc : Byte) (s : EncodeState) (c : Byte) (cs : List Byte) :
    s.copy esc (c :: cs) = (if s.code = 0xFF#8 then s.nextBlock else some s).bind fun s =>
      if c ≠ esc then (s.put c).bind (copy esc · cs) else s.nextBlock.bind (copy esc · cs) := by
  rw [copy]
  split_ifs <;> rfl

theorem Mirrors.leave (h : s.Mirrors e buf)
    (hfit : (if e.code = 0xFF#8 then e.nextBlock else e).out.length ≤ buf.length) :
    ∃ s', (if s.code = 0xFF#8 then s.nextBlock else some s) = some s' ∧
      s'.Mirrors (if e.code = 0xFF#8 then e.nextBlock else e) buf := by
  rw [h.code]
  split_ifs at hfit ⊢
  · rw [CobsEncoder.nextBlock_length] at hfit
    exact h.nextBlock hfit
  · exact ⟨s,rfl,h⟩

theorem Mirrors.copy {esc : Byte} (h : s.Mirrors e buf) {cs : List Byte}
    (hfit : (CobsEncoder.copy esc e cs).out.length ≤ buf.length) :
    ∃ s', s.copy esc cs = some s' ∧ s'.Mirrors (CobsEncoder.copy esc e cs) buf := by
  induction cs generalizing s e with
  | nil => exact ⟨s,rfl,h⟩
  | cons c cs ih =>
    rw [CobsEncoder.copy] at hfit ⊢
    rw [copy_cons]
    generalize he1 : (if e.code = 0xFF#8 then e.nextBlock else e) = e1 at hfit ⊢
    by_cases hc : c ≠ esc
    · rw [if_pos hc] at hfit ⊢
      have hput := (CobsEncoder.copy_length_le esc (e1.put c) cs).trans hfit
      rw [CobsEncoder.put_length] at hput
      obtain ⟨s1,hs1,h1⟩ := h.leave (by rw [he1]; omega)
      rw [he1] at h1
      obtain ⟨s2,hs2,h2⟩ := h1.put (by omega) c
      obtain ⟨s3,hs3,h3⟩ := ih h2 hfit
      refine ⟨s3,?_,h3⟩
      rw [hs1,Option.bind_some,if_pos hc,hs2,Option.bind_some,hs3]
    · rw [if_neg hc] at hfit ⊢
      have hnext := (CobsEncoder.copy_length_le esc e1.nextBlock cs).trans hfit
      rw [CobsEncoder.nextBlock_length] at hnext
      obtain ⟨s1,hs1,h1⟩ := h.leave (by rw [he1]; omega)
      rw [he1] at h1
      obtain ⟨s2,hs2,h2⟩ := h1.nextBlock (by omega)
      obtain ⟨s3,hs3,h3⟩ := ih h2 hfit
      refine ⟨s3,?_,h3⟩
      rw [hs1,Option.bind_some,if_neg hc,hs2,Option.bind_some,hs3]

/-- Over any buffer with room for its result, `encode` writes just that. -/
theorem encode_eq {esc : Byte} {buf src : List Byte}
    (hfit : (CobsEncoder.encode esc src).length ≤ buf.length) :
    encode esc buf src = some (CobsEncoder.encode esc src ++
      buf.drop (CobsEncoder.encode esc src).length,(CobsEncoder.encode esc src).length) := by
  have hout : CobsEncoder.encode esc src = (CobsEncoder.copy esc (CobsEncoder.copy esc
      (CobsEncoder.startBlock []) src) (CobsEncoder.checksum src)).finishBlock ++ [esc] := rfl
  generalize he : CobsEncoder.copy esc (CobsEncoder.startBlock []) src = e at hout
  generalize hf : CobsEncoder.copy esc e (CobsEncoder.checksum src) = f at hout
  have hlen : f.finishBlock.length = f.out.length := List.length_set
  rw [hout,List.length_append,List.length_singleton,hlen] at hfit
  have hef := CobsEncoder.copy_length_le esc e (CobsEncoder.checksum src)
  rw [hf] at hef
  obtain ⟨s0,hs0,h0⟩ : ∃ s', startBlock ⟨buf,0,0,1#8⟩ = some s' ∧
      s'.Mirrors (CobsEncoder.startBlock []) buf := @startBlock_mirrors buf [] 1#8 0 (by
        rw [List.length_nil]
        omega)
  obtain ⟨s1,hs1,h1⟩ : ∃ s', s0.copy esc src = some s' ∧ s'.Mirrors e buf := by
    rw [← he]
    exact h0.copy (by rw [he]; omega)
  obtain ⟨s2,hs2,h2⟩ : ∃ s', s1.copy esc (CobsEncoder.checksum src) = some s' ∧
      s'.Mirrors f buf := by
    rw [← hf]
    exact h1.copy (by rw [hf]; omega)
  have hstore := @store_append buf f.finishBlock esc (by omega)
  have hrun : encode esc buf src = some (f.finishBlock ++ [esc] ++
      buf.drop (f.finishBlock ++ [esc]).length,f.finishBlock.length+1) := by
    simp only [encode,hs0,hs1,Option.bind_eq_bind,Option.bind_some]
    rw [show bytes16 ((crc32 src src.length crcInit).setWidth 16) = CobsEncoder.checksum src
      from rfl,hs2,Option.bind_some,h2.finishBlock,Option.bind_some,hstore]
    rfl
  rw [hrun,hout,List.length_append,List.length_singleton]

end EncodeState

theorem Blocks.nonzero {wire data : List Byte} (h : Blocks wire data) : ∀ c ∈ wire, c ≠ 0#8 := by
  have hcode : ∀ {code : Byte} {block : List Byte}, code.toNat = block.length+1 →
      code ≠ 0#8 := by
    rintro code block hc rfl
    simp at hc
  induction h with
  | last hz hc => exact List.forall_mem_cons.mpr ⟨hcode hc,hz⟩
  | zero hz hc hf hb ih =>
    exact List.forall_mem_append.mpr ⟨List.forall_mem_cons.mpr ⟨hcode hc,hz⟩,ih⟩
  | full hz hc hb ih =>
    exact List.forall_mem_append.mpr ⟨List.forall_mem_cons.mpr ⟨by decide,hz⟩,ih⟩

namespace CobsEncoder

variable {e : CobsEncoder} {done block : List Byte}

theorem Writing.copy_length (h : e.Writing done block) (data : List Byte) :
    (CobsEncoder.copy 0#8 e data).finishBlock.length ≤
      done.length+1+(block.length+data.length)+(block.length+data.length-1)/254 := by
  induction data generalizing e done block with
  | nil =>
    rw [CobsEncoder.copy,h.finishBlock,List.length_append,List.length_cons,List.length_nil]
    omega
  | cons c cs ih =>
    rw [CobsEncoder.copy]
    have hnext := h.nextBlock
    by_cases hf : e.code = 0xFF#8
    · have hlen := h.full_length hf
      have hnf := e.nextBlock_code
      simp only [hf,if_true]
      by_cases hc : c ≠ 0#8
      · rw [if_pos hc]
        have hle := ih (hnext.put hc hnf)
        simp only [List.length_append,List.length_cons,List.length_nil] at hle ⊢
        omega
      · rw [if_neg hc]
        have hle := ih hnext.nextBlock
        simp only [List.length_append,List.length_cons,List.length_nil] at hle ⊢
        omega
    · simp only [hf,if_false]
      by_cases hc : c ≠ 0#8
      · rw [if_pos hc]
        have hle := ih (h.put hc hf)
        simp only [List.length_append,List.length_cons,List.length_nil] at hle ⊢
        omega
      · rw [if_neg hc]
        have hle := ih hnext
        simp only [List.length_append,List.length_cons,List.length_nil] at hle ⊢
        omega

/-- What `_buf` has room for besides the packet. -/
def overhead (packetSize : Nat) : Nat := 2+(packetSize+2+253)/254+1

theorem encode_length (src : List Byte) :
    (encode 0#8 src).length ≤ src.length+overhead src.length := by
  have hle := (startBlock_writing []).copy_length (src ++ checksum src)
  rw [copy_append] at hle
  have hsum : (checksum src).length = 2 := rfl
  simp only [List.length_append,List.length_nil,hsum] at hle
  rw [encode,List.length_append,List.length_singleton,overhead]
  change (copy 0#8 (copy 0#8 (startBlock []) src) (checksum src)).finishBlock.length+1 ≤ _
  omega

/-- The output for a packet: where it is written, how long it is, and what it is made of. -/
theorem encode_inside {packetSize : Nat} {buf src : List Byte}
    (hbuf : buf.length = packetSize+overhead packetSize) (hsrc : src.length ≤ packetSize) :
    ∃ wire, (∀ c ∈ wire, c ≠ 0#8) ∧
      wire.length+1 ≤ src.length+2+(src.length+2+253)/254+1 ∧
      EncodeState.encode 0#8 buf src =
        some (wire ++ [0#8] ++ buf.drop (wire.length+1),wire.length+1) ∧
      ∀ small, small.length = wire.length+1 →
        EncodeState.encode 0#8 small src = some (wire ++ [0#8],wire.length+1) := by
  obtain ⟨wire,hw,hb⟩ := encode_blocks src
  have hlen := encode_length src
  have hlast : (wire ++ [0#8]).length = wire.length+1 := by simp
  rw [hw,hlast,overhead] at hlen
  have hrun : ∀ buf, wire.length+1 ≤ buf.length → EncodeState.encode 0#8 buf src =
      some (wire ++ [0#8] ++ buf.drop (wire.length+1),wire.length+1) := by
    intro buf hfit
    rw [← hlast,← hw] at hfit ⊢
    exact EncodeState.encode_eq hfit
  refine ⟨wire,hb.nonzero,by omega,hrun buf ?_,?_⟩
  · rw [hbuf,overhead]
    omega
  · intro small hs
    rw [hrun small hs.ge,List.drop_eq_nil_of_le hs.le,List.append_nil]

/-- A packet with a block of full length and a zero, in a buffer for packets of its size. -/
theorem encode_inside_full :
    let src := List.replicate 300 5#8 ++ [0#8,6#8]
    let buf := List.replicate (302+overhead 302) 9#8
    ∃ wire : List Byte, (∀ c ∈ wire, c ≠ 0#8) ∧
      wire.length+1 ≤ src.length+2+(src.length+2+253)/254+1 ∧
      EncodeState.encode 0#8 buf src =
        some (wire ++ [0#8] ++ buf.drop (wire.length+1),wire.length+1) ∧
      ∀ small, small.length = wire.length+1 →
        EncodeState.encode 0#8 small src = some (wire ++ [0#8],wire.length+1) := by
  intro src buf
  have hsrc : src.length = 302 := by rw [List.length_append,List.length_replicate]; rfl
  exact encode_inside List.length_replicate hsrc.le

end CobsEncoder

/-- `loadWord` of what lies in the memory; there is no result when a byte of it does not. -/
def loadWordIn (p : List Byte) : Option (BitVec 32) :=
  if 4 ≤ p.length then some (loadWord p) else none

/-- `CRC32_SW` of data in a memory that ends with `p`. -/
def crc32SwIn : List Byte → Nat → BitVec 32 → Option (BitVec 32)
  | p, sz+4, crc => do crc32SwIn (p.drop 4) sz (stmCrc (← loadWordIn p) crc)
  | _, 0, crc => some crc
  | p, 3, crc => do return stmCrc ((← loadWordIn p) &&& 0x00FFFFFF) crc
  | p, 2, crc => do return stmCrc ((← loadWordIn p) &&& 0x0000FFFF) crc
  | p, 1, crc => do return stmCrc ((← loadWordIn p) &&& 0x000000FF) crc

theorem crc32SwIn_eq (p : List Byte) (sz : Nat) (crc : BitVec 32) :
    crc32SwIn p sz crc = if 4*((sz+3)/4) ≤ p.length then some (crc32Sw p sz crc) else none := by
  have hword : ∀ (p : List Byte) (f : BitVec 32 → BitVec 32),
      (loadWordIn p).bind (fun w => some (f w)) =
        if 4 ≤ p.length then some (f (loadWord p)) else none := by
    intro p f
    rw [loadWordIn]
    split_ifs <;> rfl
  induction p, sz, crc using crc32Sw.induct with
  | case1 p sz crc ih =>
    rw [crc32SwIn,crc32Sw,loadWordIn]
    by_cases hp : 4 ≤ p.length
    · rw [if_pos hp]
      refine (ih : crc32SwIn _ _ _ = _).trans ?_
      rw [List.length_drop]
      exact if_congr (by omega) rfl rfl
    · rw [if_neg hp,if_neg (by omega)]
      rfl
  | case2 p crc => rfl
  | case3 p crc => exact hword p _
  | case4 p crc => exact hword p _
  | case5 p crc => exact hword p _

namespace CobsDecoder

variable {packetSize : Nat}

/-- `delimiter` with its reads of `_buf` and those of the checksum checked. The writes of
`writeDecodedByte` are in range by its own test. -/
def delimiterIn (d : CobsDecoder packetSize) : Option (CobsDecoder packetSize) :=
  if d.copy ≠ 0#8 then some (d.fail .errorSize)
  else if d.rcnt ≤ 2 then some (d.fail .errorSize)
  else do
    let rcnt := d.rcnt-2
    let packetCrc16 := le16 (← d.buf.toList[rcnt]?) (← d.buf.toList[rcnt+1]?)
    let crc16 := (← crc32SwIn d.buf.toList rcnt crcInit).setWidth 16
    if packetCrc16 ≠ crc16 then some (d.fail .errorCRC)
    else some {d with rsize := rcnt, status := .packetAvailable}.restart

def byteIn (esc : Byte) (d : CobsDecoder packetSize) (c : Byte) :
    Option (CobsDecoder packetSize × Bool) :=
  if c = esc then do
    let d ← d.delimiterIn
    return (d,d.status = .packetAvailable)
  else some (d.dataByte esc c,false)

def decodeLoopIn (esc : Byte) (sz : Nat) : CobsDecoder packetSize → List Byte →
    Option (CobsDecoder packetSize × Nat)
  | d, [] => some (d.decodeLoop esc sz [])
  | d, c :: cs => do
    match ← d.byteIn esc c with
    | (d,true) => some (d,sz-cs.length)
    | (d,false) => decodeLoopIn esc sz d cs

def decodeIn (esc : Byte) (d : CobsDecoder packetSize) (src : List Byte) :
    Option (CobsDecoder packetSize × Nat) :=
  decodeLoopIn esc src.length {d with status := .unknown} src

/-- A call of `decode`: the chunk, the returned count and the decoder behind it. -/
structure Call (packetSize : Nat) where
  src : List Byte
  cnt : Nat
  after : CobsDecoder packetSize
  deriving DecidableEq, Repr

/-- `feedRest`, with the calls it makes. -/
def feedRestIn (esc : Byte) : Nat → CobsDecoder packetSize → List Byte →
    Option (CobsDecoder packetSize × List (Call packetSize))
  | 0, d, _ => some (d,[])
  | fuel+1, d, src => do
    let (e,cnt) ← d.decodeIn esc src
    if e.status = .packetAvailable then
      let (f,cs) ← feedRestIn esc fuel e (src.drop cnt)
      return (f,⟨src,cnt,e⟩ :: cs)
    else return (e,[⟨src,cnt,e⟩])

def feedIn (esc : Byte) : CobsDecoder packetSize → List (List Byte) →
    Option (CobsDecoder packetSize × List (Call packetSize))
  | d, [] => some (d,[])
  | d, chunk :: chunks => do
    let (d,cs) ← feedRestIn esc (chunk.length+1) d chunk
    let (d,cs') ← feedIn esc d chunks
    return (d,cs ++ cs')

/-- The packet has at least a byte, and the two bytes behind it are its checksum. -/
structure Framed (d : CobsDecoder packetSize) : Prop where
  pos : 1 ≤ d.rsize
  le : d.rsize ≤ packetSize
  checksum : (d.buf.toList.drop d.rsize).take 2 = CobsEncoder.checksum d.packet

structure Call.Safe (call : Call packetSize) : Prop where
  cnt : call.src ≠ [] → 1 ≤ call.cnt ∧ call.cnt ≤ call.src.length
  framed : call.after.status = .packetAvailable → call.after.Framed

variable {d : CobsDecoder packetSize} {esc : Byte} {part : List Byte}

theorem delimiter_framed (hr : d.rcnt ≤ packetSize+2)
    (h : d.delimiter.status = .packetAvailable) : d.delimiter.Framed := by
  unfold delimiter at h ⊢
  dsimp only at h ⊢
  split_ifs at h ⊢ with hc hs hcrc
  · cases h
  · cases h
  · cases h
  · have hlen : d.buf.toList.length = packetSize+2 := Vector.length_toList
    have htake : (d.buf.toList.take (d.rcnt-2)).length = d.rcnt-2 := by
      rw [List.length_take]
      omega
    refine ⟨by simp only [restart]; omega,by simp only [restart]; omega,?_⟩
    simp only [restart,packet,CobsEncoder.checksum,htake,crc32_take]
    rw [← not_not.mp hcrc,bytes16_le16,List.drop_eq_getElem_cons (by omega),
      List.drop_eq_getElem_cons (by omega)]
    simp [List.getD_eq_getElem?_getD,hlen,
      show d.rcnt-2 < packetSize+2 by omega,show d.rcnt-2+1 < packetSize+2 by omega]

theorem delimiterIn_eq (hr : d.rcnt ≤ packetSize+2) :
    d.delimiterIn = if packetSize % 4 = 1 ∧ d.copy = 0#8 ∧ d.rcnt = packetSize+2 then none
      else some d.delimiter := by
  have hlen : d.buf.toList.length = packetSize+2 := Vector.length_toList
  have hget : ∀ i < packetSize+2, d.buf.toList[i]? = some (d.buf.toList.getD i 0#8) := by
    intro i hi
    rw [List.getD_eq_getElem?_getD,List.getElem?_eq_getElem (by omega),Option.getD_some]
  unfold delimiterIn delimiter
  by_cases hc : d.copy ≠ 0#8
  · rw [if_pos hc,if_pos hc,if_neg fun h => hc h.2.1]
  by_cases hs : d.rcnt ≤ 2
  · rw [if_neg hc,if_neg hc,if_pos hs,if_pos hs,if_neg (by omega)]
  rw [if_neg hc,if_neg hc,if_neg hs,if_neg hs]
  dsimp only
  rw [hget _ (by omega),hget _ (by omega),crc32SwIn_eq,hlen]
  rw [not_not] at hc
  by_cases hout : packetSize % 4 = 1 ∧ d.copy = 0#8 ∧ d.rcnt = packetSize+2
  · rw [if_pos hout,if_neg (by omega)]
    rfl
  · have hfit : 4*((d.rcnt-2+3)/4) ≤ packetSize+2 := by
      by_contra hgt
      exact hout ⟨by omega,hc,by omega⟩
    rw [if_neg hout,if_pos hfit]
    exact (apply_ite some _ _ _).symm

/-- What is received since the last restart, behind another byte. -/
def heldPart (esc : Byte) (n : Nat) (part : List Byte) (c : Byte) : List Byte :=
  if c = esc then []
  else if (received esc (part ++ [c])).got.length ≤ n then part ++ [c] else []

def Fills (esc : Byte) (n : Nat) (part : List Byte) : Prop :=
  (unstuff esc part).map List.length = some n

/-- No delimiter finds a full buffer of which the last word reaches outside. -/
def Inside (esc : Byte) (packetSize : Nat) : List Byte → List Byte → Prop
  | _, [] => True
  | part, c :: cs =>
    ¬ (c = esc ∧ packetSize % 4 = 1 ∧ Fills esc (packetSize+2) part) ∧
      Inside esc packetSize (heldPart esc (packetSize+2) part c) cs

theorem inside_append (a b : List Byte) :
    Inside esc packetSize part (a ++ b) ↔ Inside esc packetSize part a ∧
      Inside esc packetSize (a.foldl (heldPart esc (packetSize+2)) part) b := by
  induction a generalizing part with
  | nil => simp [Inside]
  | cons c a ih =>
    rw [List.cons_append,Inside,Inside,ih,List.foldl_cons,and_assoc]

theorem lastPart_concat (n : Nat) (part run : List Byte) (c : Byte) :
    lastPart esc n part (run ++ [c]) =
      if (received esc (lastPart esc n part run ++ [c])).got.length ≤ n then
        lastPart esc n part run ++ [c] else [] := by
  induction run generalizing part with
  | nil => rw [List.nil_append,lastPart,lastPart]; split_ifs <;> rfl
  | cons b run ih =>
    rw [List.cons_append,lastPart,lastPart]
    by_cases hb : (received esc (part ++ [b])).got.length ≤ n
    · rw [if_pos hb,if_pos hb]
      exact ih _
    · rw [if_neg hb,if_neg hb]
      exact ih _

theorem inside_runs (run cs : List Byte) :
    Inside esc packetSize (lastPart esc (packetSize+2) [] run) cs ↔
      (packetSize % 4 = 1 → ∀ r ∈ runs esc run cs,
        ¬ Fills esc (packetSize+2) (lastPart esc (packetSize+2) [] r)) := by
  induction cs generalizing run with
  | nil => simp [Inside,runs]
  | cons c cs ih =>
    rw [Inside,runs,heldPart]
    by_cases hc : c = esc
    · rw [if_pos hc,if_pos hc,List.forall_mem_cons]
      have hnil := ih []
      rw [lastPart] at hnil
      rw [hnil]
      tauto
    · rw [if_neg hc,if_neg hc,← lastPart_concat,ih]
      tauto

theorem At.rcnt_le (h : d.At esc part) : d.rcnt ≤ packetSize+2 := by
  have hg := congrArg List.length h.got
  rw [List.length_take,Vector.length_toList] at hg
  have hr := h.rcnt
  omega

theorem At.fills_iff (h : d.At esc part) :
    Fills esc (packetSize+2) part ↔ d.copy = 0#8 ∧ d.rcnt = packetSize+2 := by
  have hcopy : d.copy = (received esc part).copy := BitVec.eq_of_toNat_eq h.copy
  rw [Fills,unstuff,hcopy,h.rcnt]
  split_ifs with hc
  · simp [hc]
  · simp [hc]

theorem At.byteIn (h : d.At esc part) (c : Byte) :
    d.byteIn esc c =
      if c = esc ∧ packetSize % 4 = 1 ∧ d.copy = 0#8 ∧ d.rcnt = packetSize+2 then none
      else some (d.byte esc c) := by
  rw [CobsDecoder.byteIn,byte]
  by_cases hc : c = esc
  · rw [if_pos hc,if_pos hc,delimiterIn_eq h.rcnt_le]
    by_cases hout : packetSize % 4 = 1 ∧ d.copy = 0#8 ∧ d.rcnt = packetSize+2
    · rw [if_pos hout,if_pos ⟨hc,hout⟩]
      rfl
    · rw [if_neg hout,if_neg fun h => hout h.2]
      rfl
  · rw [if_neg hc,if_neg hc,if_neg fun h => hc h.1]

theorem At.byte (h : d.At esc part) (c : Byte) :
    (d.byte esc c).1.At esc (heldPart esc (packetSize+2) part c) := by
  rw [CobsDecoder.byte,heldPart]
  by_cases hc : c = esc
  · rw [if_pos hc,if_pos hc]
    exact h.delimiter.1
  · rw [if_neg hc,if_neg hc]
    exact h.dataByte c

/-- The loop of `decode` up to the byte it returns behind. -/
theorem At.decodeLoopIn (h : d.At esc part) (hd : d.status ≠ .packetAvailable) (sz : Nat)
    (cs : List Byte) :
    (d.decodeLoopIn esc sz cs = none ∧ ¬ Inside esc packetSize part cs) ∨
    ∃ e done rest, cs = done ++ rest ∧ d.decodeLoopIn esc sz cs = some (e,sz-rest.length) ∧
      d.decodeLoop esc sz cs = (e,sz-rest.length) ∧ Inside esc packetSize part done ∧
      e.At esc (done.foldl (heldPart esc (packetSize+2)) part) ∧
      if e.status = .packetAvailable then done ≠ [] ∧ e.Framed else rest = [] := by
  induction cs generalizing d part with
  | nil =>
    refine Or.inr ⟨_,[],[],rfl,rfl,rfl,trivial,?_,?_⟩
    · split_ifs <;> exact ⟨h.code,h.copy,h.rcnt,h.got⟩
    · rw [if_neg]
      split_ifs <;> simp [hd]
  | cons c cs ih =>
    have hfull := h.fills_iff
    rw [CobsDecoder.decodeLoopIn,decodeLoop,h.byteIn c]
    by_cases hout : c = esc ∧ packetSize % 4 = 1 ∧ d.copy = 0#8 ∧ d.rcnt = packetSize+2
    · rw [if_pos hout]
      exact Or.inl ⟨rfl,fun hi => hi.1 ⟨hout.1,hout.2.1,hfull.mpr hout.2.2⟩⟩
    have hfine : ¬ (c = esc ∧ packetSize % 4 = 1 ∧ Fills esc (packetSize+2) part) :=
      fun hi => hout ⟨hi.1,hi.2.1,hfull.mp hi.2.2⟩
    have hat := h.byte c
    rw [if_neg hout,Option.bind_eq_bind,Option.bind_some]
    by_cases hp : (d.byte esc c).2 = true
    · have hc : c = esc := by
        by_contra hc
        simp [CobsDecoder.byte,hc] at hp
      have hs : d.delimiter.status = .packetAvailable := by
        simpa [CobsDecoder.byte,hc] using hp
      have hb : d.byte esc c = (d.delimiter,true) := by simp [CobsDecoder.byte,hc,hs]
      rw [hb] at hat ⊢
      refine Or.inr ⟨d.delimiter,[c],cs,rfl,rfl,rfl,⟨hfine,trivial⟩,hat,?_⟩
      rw [if_pos hs]
      exact ⟨List.cons_ne_nil _ _,delimiter_framed h.rcnt_le hs⟩
    · have hb : d.byte esc c = ((d.byte esc c).1,false) := Prod.ext rfl (by simpa using hp)
      have hs : (d.byte esc c).1.status ≠ .packetAvailable := by
        unfold CobsDecoder.byte at hp ⊢
        split_ifs at hp ⊢
        · simpa using hp
        · exact dataByte_status hd
      rw [hb]
      rcases ih hat hs with ⟨hnone,hi⟩ | ⟨e,done,rest,rfl,hrun,hloop,hi,he,hend⟩
      · exact Or.inl ⟨hnone,fun hc => hi hc.2⟩
      · refine Or.inr ⟨e,c :: done,rest,rfl,hrun,hloop,⟨hfine,hi⟩,he,?_⟩
        split_ifs at hend ⊢
        · exact ⟨List.cons_ne_nil _ _,hend.2⟩
        · exact hend

/-- A chunk, and the rest of it after every packet. -/
theorem At.feedRestIn (h : d.At esc part) {fuel : Nat} {src : List Byte}
    (hf : src.length < fuel) :
    (d.feedRestIn esc fuel src = none ∧ ¬ Inside esc packetSize part src) ∨
    ∃ e calls, d.feedRestIn esc fuel src = some (e,calls) ∧ (d.feedRest esc fuel src).1 = e ∧
      Inside esc packetSize part src ∧ e.At esc (src.foldl (heldPart esc (packetSize+2)) part) ∧
      ∀ call ∈ calls, call.Safe := by
  induction fuel generalizing d part src with
  | zero => omega
  | succ fuel ih =>
    have hd : {d with status := .unknown}.At esc part := ⟨h.code,h.copy,h.rcnt,h.got⟩
    rw [CobsDecoder.feedRestIn,feedRest,decodeIn,decode]
    rcases hd.decodeLoopIn (by simp) src.length src with
      ⟨hnone,hi⟩ | ⟨e,done,rest,rfl,hrun,hloop,hi,he,hend⟩
    · rw [hnone]
      exact Or.inl ⟨rfl,hi⟩
    rw [hrun,hloop,Option.bind_eq_bind,Option.bind_some]
    have hcnt : (done ++ rest).length-rest.length = done.length := by simp
    dsimp only
    rw [hcnt,List.drop_left,inside_append,List.foldl_append]
    by_cases hs : e.status = .packetAvailable
    · rw [if_pos hs] at hend
      rw [if_pos hs,if_pos hs]
      have hpos := List.length_pos_iff.mpr hend.1
      rw [List.length_append] at hf
      have hsafe : (⟨done ++ rest,done.length,e⟩ : Call packetSize).Safe :=
        ⟨fun _ => ⟨hpos,by simp⟩,fun _ => hend.2⟩
      have hrest : rest.length < fuel := by omega
      rcases ih he hrest with ⟨hnone,hr⟩ | ⟨f,calls,hcalls,hfeed,hr,hf,hall⟩
      · rw [hnone]
        exact Or.inl ⟨rfl,fun hi => hr hi.2⟩
      · rw [hcalls]
        exact Or.inr ⟨f,_,rfl,hfeed,⟨hi,hr⟩,hf,List.forall_mem_cons.mpr ⟨hsafe,hall⟩⟩
    · rw [if_neg hs] at hend
      rw [if_neg hs,if_neg hs]
      subst hend
      have hsafe : (⟨done ++ [],done.length,e⟩ : Call packetSize).Safe := by
        refine ⟨fun hne => ?_,fun hp => absurd hp hs⟩
        rw [List.append_nil] at hne ⊢
        exact ⟨List.length_pos_iff.mpr hne,le_rfl⟩
      exact Or.inr ⟨e,_,rfl,rfl,⟨hi,trivial⟩,he,List.forall_mem_singleton.mpr hsafe⟩

theorem At.feedIn (h : d.At esc part) (chunks : List (List Byte)) :
    (d.feedIn esc chunks = none ∧ ¬ Inside esc packetSize part chunks.flatten) ∨
    ∃ e calls, d.feedIn esc chunks = some (e,calls) ∧ (d.feed esc chunks).1 = e ∧
      Inside esc packetSize part chunks.flatten ∧ ∀ call ∈ calls, call.Safe := by
  induction chunks generalizing d part with
  | nil => exact Or.inr ⟨d,[],rfl,rfl,trivial,by simp⟩
  | cons chunk chunks ih =>
    rw [CobsDecoder.feedIn,feed,List.flatten_cons,inside_append]
    rcases h.feedRestIn (Nat.lt_succ_self chunk.length) with
      ⟨hnone,hi⟩ | ⟨e,calls,hrun,hrest,hi,he,hall⟩
    · rw [hnone]
      exact Or.inl ⟨rfl,fun hc => hi hc.1⟩
    rw [hrun,Option.bind_eq_bind,Option.bind_some]
    dsimp only
    rw [hrest]
    rcases ih he with ⟨hnone,hi'⟩ | ⟨f,calls',hrun',hfeed,hi',hall'⟩
    · rw [hnone]
      exact Or.inl ⟨rfl,fun hc => hi' hc.2⟩
    · rw [hrun']
      exact Or.inr ⟨f,_,rfl,hfeed,⟨hi,hi'⟩,List.forall_mem_append.mpr ⟨hall,hall'⟩⟩

/-- Any stream is decoded inside the buffer, each packet with the checksum behind it, unless the
decoding of a run fills the buffer of a decoder for packets of one byte more than whole words. -/
theorem feedIn_iff (esc : Byte) (buf : Vector Byte (packetSize+2)) (chunks : List (List Byte)) :
    (∃ d calls, (fresh buf).feedIn esc chunks = some (d,calls) ∧ ∀ call ∈ calls, call.Safe) ↔
      (packetSize % 4 = 1 → ∀ run ∈ runs esc [] chunks.flatten,
        ¬ Fills esc (packetSize+2) (lastPart esc (packetSize+2) [] run)) := by
  rw [← inside_runs,lastPart]
  rcases (fresh_at esc buf).feedIn chunks with ⟨hnone,hi⟩ | ⟨d,calls,hrun,-,hi,hall⟩
  · refine iff_of_false ?_ hi
    rintro ⟨d,calls,hrun,-⟩
    rw [hnone] at hrun
    cases hrun
  · exact iff_of_true ⟨d,calls,hrun,hall⟩ hi

/-- The checksum of a packet of one byte is computed from a word that reaches outside the buffer
of a decoder for such packets. -/
theorem feedIn_outside : CobsEncoder.encode 0#8 [5#8] = [4#8,5#8,16#8,182#8,0#8] ∧
    ¬ ∃ d calls, (fresh (Vector.replicate 3 0#8) : CobsDecoder 1).feedIn 0#8
      [[4#8,5#8,16#8,182#8,0#8]] = some (d,calls) ∧ ∀ call ∈ calls, call.Safe := by
  refine ⟨by decide +kernel,?_⟩
  rintro ⟨d,calls,hrun,-⟩
  have hnone : (fresh (Vector.replicate 3 0#8) : CobsDecoder 1).feedIn 0#8
      [[4#8,5#8,16#8,182#8,0#8]] = none := by decide +kernel
  rw [hnone] at hrun
  cases hrun

end CobsDecoder

end ApxBus.Serial
