import ApxBus.Telemetry.Format
import Mathlib.Logic.Function.Basic
set_option autoImplicit false

/-! The decoder of the stream, `xbus/telemetry/TelemetryDecoder.cpp`. -/

namespace ApxBus.Telemetry
open Function Mandala

/-- `dec_flags_s`. -/
structure DecFlags where
  type : TypeId
  upd : Bool
  deriving DecidableEq, Repr

def DecFlags.zero : DecFlags := ⟨.byte,false⟩

/-- `fields` are the bytes of `_slots.fields`, into which the format parts are read. -/
structure TelemetryDecoder where
  fields : Nat → Byte
  flags : Nat → DecFlags
  value : Nat → BitVec 32
  slotsCnt : Nat
  xpdrValue : Fin xpdrDatasetSize → BitVec 32
  xpdrType : Fin xpdrDatasetSize → TypeId
  timestampMs : BitVec 64
  dtMs : BitVec 32
  ts : BitVec 16
  valid : Bool
  hash : Hash
  hashValid : Nat

namespace TelemetryDecoder

/-- A new decoder; the hash is indeterminate. -/
def init (hash : Hash) : TelemetryDecoder where
  fields := fun _ => 0#8
  flags := fun _ => DecFlags.zero
  value := fun _ => 0#32
  slotsCnt := 0
  xpdrValue := fun _ => 0#32
  xpdrType := fun _ => .byte
  timestampMs := 0#64
  dtMs := 0#32
  ts := 0#16
  valid := false
  hash := hash
  hashValid := 0

def fieldsSize : Nat := 3*slotsSize

def table (d : TelemetryDecoder) (sz : Nat) : List Byte := (List.range sz).map d.fields

@[simp] theorem table_length (d : TelemetryDecoder) (sz : Nat) : (d.table sz).length = sz := by
  rw [table,List.length_map,List.length_range]

def fieldAt (d : TelemetryDecoder) (i : Nat) : Field :=
  Field.ofBytes (d.fields (3*i)) (d.fields (3*i+1)) (d.fields (3*i+2))

def isHashValid (d : TelemetryDecoder) : Prop := d.hashValid = 4

instance (d : TelemetryDecoder) : Decidable d.isHashValid := inferInstanceAs (Decidable (_ = _))

def reset (d : TelemetryDecoder) (resetHash : Bool) : TelemetryDecoder :=
  let d := if resetHash then {d with hash := Hash.ofWord 0#32, hashValid := 0} else d
  {d with
    slotsCnt := 0
    valid := false
    flags := fun _ => DecFlags.zero
    value := fun _ => 0#32}

def getHash (d : TelemetryDecoder) (sz : Nat) : BitVec 32 := tableHash (d.table sz)

def checkHash (d : TelemetryDecoder) (sz : Nat) : TelemetryDecoder × Bool :=
  if ¬ d.isHashValid ∨ d.getHash sz ≠ d.hash.hash then (d,false)
  else ({d with slotsCnt := sz/3, valid := true},true)

/-- The variables of `decode_values`. -/
structure DecodeState where
  dec : TelemetryDecoder
  stream : Reader
  cnt : Nat
  code : Byte
  codeBit : Byte
  nibbleV : Byte
  nibbleN : Nat
  upd : Bool
  index : Nat

/-- A field that `decode_values` uses; there is no result at or past `_slots_cnt`. -/
def DecodeState.field (s : DecodeState) : Option Field :=
  if s.index < s.dec.slotsCnt then some (s.dec.fieldAt s.index) else none

def mark (d : TelemetryDecoder) (i : Nat) (value : BitVec 32) (type : TypeId) : TelemetryDecoder :=
  {d with value := update d.value i value, flags := update d.flags i ⟨type,true⟩}

def DecodeState.setValue (s : DecodeState) (value : BitVec 32) (type : TypeId) :
    Option DecodeState :=
  if s.index < s.dec.slotsCnt then
    some {s with dec := s.dec.mark s.index value type, upd := true, cnt := s.cnt-1}
  else none

/-- The loop over the bytes of an offset; a byte of 0x7F is followed by another. The loop takes
a byte in each round, and one round more at the end of the stream. -/
def readOffset : Nat → Byte → BitVec 16 → Byte → Reader → Option (BitVec 16 × Byte × Reader)
  | 0, _, _, _, _ => none
  | fuel+1, offset, dindex, code, r =>
    if offset = 0x7F#8 then
      let (offset,r) := r.read8
      if offset &&& 0x80#8 = 0#8 then some (dindex,0#8,r)
      else
        let offset := offset &&& 0x7F#8
        readOffset fuel offset (dindex+offset.setWidth 16) 0x80#8 r
    else some (dindex,code,r)

/-- A code that is an offset: the index moves on by it. -/
def skipSlots (s : DecodeState) : Option (DecodeState × Bool) :=
  let offset := s.code &&& 0x7F#8
  if offset < 7#8 then some (s,true)
  else do
    let (dindex,code,stream) ←
      readOffset (s.stream.available+2) offset (offset.setWidth 16) s.code s.stream
    let s := {s with code := code, stream := stream}
    if code &&& 0x80#8 = 0#8 then some (s,true)
    else if dindex.toInt < 7 then some (s,true)
    else
      let s := {s with index := s.index+dindex.toNat}
      if s.index ≥ s.dec.slotsCnt then some (s,true)
      else some ({s with codeBit := 1#8 <<< 6, code := 1#8 <<< 6},false)

def nextCode (s : DecodeState) : Option (DecodeState × Bool) :=
  if s.codeBit = 1#8 <<< 6 then
    let (code,stream) := s.stream.read8
    let s := {s with code := code, stream := stream, codeBit := 1#8, nibbleN := 0}
    if code &&& 0x80#8 ≠ 0#8 then skipSlots s else some (s,false)
  else some ({s with codeBit := s.codeBit <<< 1},false)

/-- The value as it is stored, with its type: a byte of options holds two of them, the low nibble
first. -/
def splitNibbles (f : Field) (value : BitVec 32) (type : TypeId) (s : DecodeState) :
    DecodeState × BitVec 32 × TypeId :=
  if f.fmt = Fmt.u4.code then
    if s.nibbleN = 0 then
      ({s with nibbleN := 1, nibbleV := value.setWidth 8},value &&& 0x0F#32,.byte)
    else ({s with nibbleN := 0},(s.nibbleV >>> 4).setWidth 32,.byte)
  else ({s with nibbleN := 0},value,type)

def storeValue (f : Field) (value : BitVec 32) (type : TypeId) (s : DecodeState) :
    Option (DecodeState × Bool) := do
  let (s,value,type) := splitNibbles f value type s
  let s ← s.setValue value type
  some (s,s.cnt = 0)

/-- The value of the slot at `index` is read, and whether the loop ends here. -/
def readValue (s : DecodeState) : Option (DecodeState × Bool) := do
  let f ← s.field
  let value := s.dec.value s.index
  if s.nibbleN = 0 then
    let (sz,value,type) ← unpackValue s.stream.rest value .real f.fmt s.stream.available
    if sz = 0 ∨ sz > s.stream.available then some (s,true)
    else storeValue f value type {s with stream := s.stream.reset (s.stream.pos+sz)}
  else storeValue f value .real s

def valueStep (pseq : Byte) (s : DecodeState) : Option (DecodeState × Bool) := do
  let f ← s.field
  if f.fmt = Fmt.bit.code then some (s,true)
  else if ¬ passes f pseq then some (s,false)
  else
    let (s,stop) ← nextCode s
    if stop then some (s,true)
    else if s.stream.available = 0 ∧ s.nibbleN = 0 then some (s,true)
    else if s.code &&& s.codeBit = 0#8 then some (s,false)
    else readValue s

/-- The loop over the values. The index grows in each round, so `_slots_cnt+1` are enough. -/
def valueLoop (pseq : Byte) : Nat → DecodeState → Option DecodeState
  | 0, _ => none
  | fuel+1, s =>
    if s.index < s.dec.slotsCnt ∧ s.stream.available > 0 ∧ s.cnt > 0 then do
      let (s,stop) ← valueStep pseq s
      if stop then some s else valueLoop pseq fuel {s with index := s.index+1}
    else some s

def findBit : Nat → DecodeState → Option DecodeState
  | 0, s => some s
  | n+1, s => do
    let f ← s.field
    if f.fmt = Fmt.bit.code then some s else findBit n {s with index := s.index+1}

/-- The bit of the next bitfield, in a new code when the last one is used up. -/
def nextBit (s : DecodeState) : DecodeState :=
  if s.codeBit = 1#8 <<< 7 then
    let (code,stream) := s.stream.read8
    {s with code := code, stream := stream, codeBit := 1#8}
  else {s with codeBit := s.codeBit <<< 1}

def bitLoop : Nat → DecodeState → Option DecodeState
  | 0, s => some s
  | n+1, s => do
    let f ← s.field
    if f.fmt ≠ Fmt.bit.code then some s
    else if s.codeBit = 1#8 <<< 7 ∧ s.stream.available = 0 then some s
    else
      let s := nextBit s
      let s ← s.setValue (if s.code &&& s.codeBit ≠ 0#8 then 1#32 else 0#32) .byte
      bitLoop n {s with index := s.index+1}

/-- The part of `decode_values` behind the loop over the values. -/
def readBits (s : DecodeState) : Option DecodeState :=
  if s.index < s.dec.slotsCnt ∧ s.stream.available > 0 ∧ s.cnt = 0 then do
    let s ← findBit (s.dec.slotsCnt-s.index) s
    let cnt := s.dec.slotsCnt-s.index
    bitLoop cnt {s with cnt := cnt, codeBit := 1#8 <<< 7}
  else some s

/-- `decode_values`: the decoder, the stream, and what is returned. -/
def decodeValues (d : TelemetryDecoder) (stream : Reader) (pseq : Byte) :
    Option (TelemetryDecoder × Reader × Bool) :=
  if stream.available = 0 then some (d,stream,false)
  else do
    let (cnt,stream) := stream.read8
    let s ← valueLoop pseq (d.slotsCnt+1) ⟨d,stream,cnt.toNat,0#8,1#8 <<< 6,0#8,0,false,0⟩
    let s ← readBits s
    if s.stream.available ≠ 0 ∨ s.cnt ≠ 0 then some (s.dec.reset true,s.stream,false)
    else some (s.dec,s.stream,s.upd)

/-- The loop of `decode_xpdr`. -/
def xpdrLoop (dict : Dictionary) : List (Fin xpdrDatasetSize) → TelemetryDecoder → Reader →
    Option (TelemetryDecoder × Reader × Bool)
  | [], d, stream => some (d,stream,true)
  | i :: is, d, stream => do
    let (sz,value,type) ← unpackValue stream.rest (d.xpdrValue i) (d.xpdrType i)
      (xpdrDataset dict i).fmt stream.available
    let d := {d with
      xpdrValue := update d.xpdrValue i value
      xpdrType := update d.xpdrType i type}
    if sz = 0 ∨ sz > stream.available then some (d,stream,false)
    else xpdrLoop dict is d (stream.reset (stream.pos+sz))

def decodeXpdr (dict : Dictionary) (d : TelemetryDecoder) (stream : Reader) :
    Option (TelemetryDecoder × Reader × Bool) :=
  if stream.available = 0 then some (d,stream,false)
  else xpdrLoop dict (List.finRange xpdrDatasetSize) d stream

/-- The hash byte that comes with a frame is compared, or collected. -/
def collectHash (d : TelemetryDecoder) (seq : BitVec 2) (feed : Byte) : TelemetryDecoder :=
  let h := d.hash.get seq.toFin
  if h ≠ feed then
    let d := if d.hashValid > 0 ∨ h ≠ 0#8 then d.reset true else d
    {d with hash := d.hash.set seq.toNat feed seq.isLt, hashValid := d.hashValid+1}
  else if ¬ d.isHashValid then {d with hashValid := d.hashValid+1} else d

def feedHash (d : TelemetryDecoder) (seq : BitVec 2) (feed : Byte) : TelemetryDecoder :=
  let d := d.collectHash seq feed
  -- this should never happen
  if d.hashValid > 4 then d.reset true else d

def clock (d : TelemetryDecoder) (ts : BitVec 16) : TelemetryDecoder :=
  let dts : BitVec 32 := (ts-d.ts).setWidth 32
  let dts := if dts = 0#32 then 0x0000FFFF#32+1#32 else dts
  let dtMs := dts*BitVec.ofNat 32 ts2ms
  {d with ts := ts, dtMs := dtMs, timestampMs := d.timestampMs+dtMs.setWidth 64}

/-- `decode`: the decoder, the stream, and what is returned. -/
def decode (dict : Dictionary) (d : TelemetryDecoder) (pid : Pid) (stream : Reader) :
    Option (TelemetryDecoder × Reader × Bool) :=
  if stream.available < Hdr.psize then some (d,stream,false)
  else
    let isXpdr := pid.uid.setWidth 16 = dict.xpdr
    let (hdr,stream) := Hdr.read stream
    if isXpdr ∧ hdr.feedHash ≠ xpdrVersion then some (d,stream,true)
    else
      let d := if isXpdr then d else d.feedHash pid.seq hdr.feedHash
      let d := d.clock hdr.ts
      if isXpdr then d.decodeXpdr dict stream
      else if d.isHashValid ∧ d.slotsCnt ≠ 0 then
        {d with valid := true}.decodeValues stream (pid.seq.setWidth 8)
      else if d.isHashValid ∧ stream.available = 1 then
        -- empty dataset stream
        let (b,stream) := stream.read8
        if b = 0#8 then some ({d with valid := true},stream,false)
        else some ({d with valid := false},stream,false)
      else some ({d with valid := false},stream,false)

/-- The bytes of a part are read into the table at `pos`. -/
def writeFields (d : TelemetryDecoder) (pos : Nat) (src : List Byte) : TelemetryDecoder :=
  {d with fields := fun i => if pos ≤ i then src.getD (i-pos) (d.fields i) else d.fields i}

/-- The end of `decode_format`, behind the middle parts: the old table is still right, or there
is none. -/
def recheck (d : TelemetryDecoder) : TelemetryDecoder :=
  if d.slotsCnt = 0 then d
  else
    let (d,ok) := d.checkHash (d.slotsCnt*3)
    if ok then d else d.reset false

/-- The number of the part is the last one, or there are no numbers. -/
def isFinal (hdr : FormatRespHdr) : Prop :=
  hdr.part.toNat+1 = hdr.pcnt.toNat ∨ (hdr.part = 0#8 ∧ hdr.pcnt = 0#8)

instance (hdr : FormatRespHdr) : Decidable (isFinal hdr) := inferInstanceAs (Decidable (_ ∨ _))

def firstPart (d : TelemetryDecoder) (hdr : FormatRespHdr) : TelemetryDecoder :=
  if hdr.part = 0#8 then
    let d := if hdr.hash ≠ d.hash.hash then d.reset true else d
    {d with hash := Hash.ofWord hdr.hash, hashValid := 4}
  else d

/-- Behind the last part the table of `sz` bytes may be complete. -/
def finishPart (d : TelemetryDecoder) (hdr : FormatRespHdr) (sz : Nat) : TelemetryDecoder × Bool :=
  if isFinal hdr then
    if sz%3 ≠ 0 then (d.reset true,false)
    else
      let (d,ok) := d.checkHash sz
      if ok then (d,true) else (d.recheck,true)
  else (d.recheck,true)

def readPart (d : TelemetryDecoder) (hdr : FormatRespHdr) (stream : Reader) :
    TelemetryDecoder × Bool :=
  let blockSize := hdr.psz.toNat
  let pos := hdr.part.toNat*blockSize
  let sz := stream.available
  if isFinal hdr ∧ sz > blockSize then (d.reset true,false)
  else if ¬ isFinal hdr ∧ sz ≠ blockSize then (d.reset true,false)
  else if pos+sz > fieldsSize then (d.reset true,false)
  else (d.writeFields pos stream.rest).finishPart hdr (pos+sz)

/-- `decode_format`, with `*hdr` as it is before: the decoder, the header, and what is
returned. -/
def decodeFormat (d : TelemetryDecoder) (stream : Reader) (hdr : FormatRespHdr) :
    TelemetryDecoder × FormatRespHdr × Bool :=
  if stream.available < FormatRespHdr.psize then (d.reset true,hdr,false)
  else
    let (hdr,stream) := FormatRespHdr.read stream
    if hdr.version ≠ fmtVersion then (d.reset true,hdr,false)
    else if hdr.psz = 0#8 then (d.reset true,hdr,false)
    else if hdr.part ≠ 0#8 ∧ hdr.hash ≠ d.hash.hash then (d.reset true,hdr,false)
    else
      let (d,ok) := (d.firstPart hdr).readPart hdr stream
      (d,hdr,ok)

inductive Op where
  | decode (pid : Pid) (stream : Reader)
  | decodeFormat (stream : Reader) (hdr : FormatRespHdr)
  | reset (resetHash : Bool)

def step (dict : Dictionary) (d : TelemetryDecoder) : Op → Option TelemetryDecoder
  | .decode pid stream => (d.decode dict pid stream).map Prod.fst
  | .decodeFormat stream hdr => some (d.decodeFormat stream hdr).1
  | .reset resetHash => some (d.reset resetHash)

def run (dict : Dictionary) (d : TelemetryDecoder) (ops : List Op) : Option TelemetryDecoder :=
  ops.foldlM (step dict) d

end TelemetryDecoder

end ApxBus.Telemetry
