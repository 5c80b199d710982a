import ApxBus.Telemetry.Format
import Mathlib.Logic.Function.Basic
set_option autoImplicit false

/-! The encoder of the stream, `xbus/telemetry/TelemetryEncoder.cpp`. -/

namespace ApxBus.Telemetry
open Function Mandala Real32

/-- `enc_flags_s`; `timeout` is `to`. -/
structure EncFlags where
  type : TypeId
  upd : Bool
  aux : Bool
  timeout : BitVec 4
  deriving DecidableEq, Repr

def EncFlags.zero : EncFlags := ⟨.byte,false,false,0#4⟩

/-- What the four arrays of `enc_slots_s` hold at one index. -/
structure EncSlot where
  field : Field
  flags : EncFlags
  value : BitVec 32
  packed : BitVec 32
  deriving DecidableEq, Repr

def EncSlot.new (field : Field) : EncSlot := ⟨field,EncFlags.zero,0#32,0#32⟩

/-- Slots `0..slotsSize-1` exist; the operations reach them through `slot` and `setSlot`. For
`insertedIndex` the source has -1 where there is none. -/
structure TelemetryEncoder where
  hash : Hash
  slots : Nat → EncSlot
  slotsCnt : Nat
  slotsUpdCnt : Nat
  enforcedUpd : Nat
  syncCnt : Nat
  insertedIndex : Option Nat
  xpdrSlotIdx : Fin xpdrDatasetSize → Byte

inductive UpdateResult where
  | ok | skipped | synced | syncOvf
  deriving DecidableEq, Repr

namespace TelemetryEncoder

/-- An element of the `_slots` arrays; outside of them, which the source does not check, there is
no result. -/
def slot (e : TelemetryEncoder) (i : Nat) : Option EncSlot :=
  if i < slotsSize then some (e.slots i) else none

def setSlot (e : TelemetryEncoder) (i : Nat) (s : EncSlot) : Option TelemetryEncoder :=
  if i < slotsSize then some {e with slots := update e.slots i s} else none

/-- The bytes of the first `_slots_cnt` fields. -/
def table (e : TelemetryEncoder) : List Byte :=
  (List.range e.slotsCnt).flatMap fun i => (e.slots i).field.bytes

theorem table_length (e : TelemetryEncoder) : e.table.length = 3*e.slotsCnt := by
  simp [table,List.length_flatMap,Field.bytes_length,Nat.mul_comm]

def updateFeeds (e : TelemetryEncoder) : TelemetryEncoder :=
  {e with hash := Hash.ofWord (tableHash e.table)}

def clear (e : TelemetryEncoder) : TelemetryEncoder :=
  let e := {e with
    slotsCnt := 0
    slotsUpdCnt := 0
    syncCnt := 0
    slots := fun _ => EncSlot.new ⟨⟨0#11,0#3,0#2⟩,0#8⟩}
  {e.updateFeeds with xpdrSlotIdx := fun _ => 0xFF#8}

/-- The constructor. What it leaves indeterminate is not read before it is set. -/
def init : TelemetryEncoder :=
  clear ⟨Vector.replicate 4 0#8,fun _ => EncSlot.new ⟨⟨0#11,0#3,0#2⟩,0#8⟩,0,0,0,0,none,fun _ => 0#8⟩

/-- The first of `n` indices from `index` on whose field is one to stop at, or the index behind
them. -/
def scan (e : TelemetryEncoder) (stop : Field → Bool) : Nat → Nat → Option Nat
  | 0, index => some index
  | n+1, index => do
    let s ← e.slot index
    if stop s.field then some index else e.scan stop n (index+1)

/-- `slot_lookup`; the source has -1 where there is no index. -/
def slotLookup (e : TelemetryEncoder) (uid : BitVec 11) : Option (Option Nat) := do
  let i ← e.scan (fun f => f.pid.uid = uid) e.slotsCnt 0
  some (if i < e.slotsCnt then some i else none)

/-- The sorted index of `add`: bitfields at the end, and options before them. -/
def sortedIndex (e : TelemetryEncoder) (field : Field) : Option Nat :=
  if field.fmt = Fmt.bit.code then do
    let index ← e.scan (fun f => f.fmt = Fmt.bit.code) e.slotsCnt 0
    e.scan (fun f => f.pid.uid > field.pid.uid) (e.slotsCnt-index) index
  else if field.fmt = Fmt.u4.code then do
    let index ← e.scan (fun f => f.fmt = Fmt.bit.code ∨ f.fmt = Fmt.u4.code) e.slotsCnt 0
    e.scan (fun f => f.fmt = Fmt.bit.code ∨ f.pid.uid > field.pid.uid) (e.slotsCnt-index) index
  else
    e.scan (fun f => f.fmt = Fmt.bit.code ∨ f.fmt = Fmt.u4.code ∨ f.pid.uid > field.pid.uid)
      e.slotsCnt 0

/-- The loop of `_insert`, with `dest` counting down to `index`. -/
def shiftUp (index : Nat) : Nat → TelemetryEncoder → Option TelemetryEncoder
  | 0, e => some e
  | dest+1, e =>
    if dest+1 > index then do
      let s ← e.slot dest
      let e ← e.setSlot (dest+1) s
      shiftUp index dest e
    else some e

def insert (e : TelemetryEncoder) (index : Nat) (field : Field) : Option TelemetryEncoder := do
  let e ← if index < e.slotsCnt then shiftUp index e.slotsCnt e else some e
  let e ← e.setSlot index (EncSlot.new field)
  some {e with slotsCnt := e.slotsCnt+1}.updateFeeds

/-- One round of the loop in `add` that looks up the transponder slots. -/
def resyncXpdr (dict : Dictionary) (e : TelemetryEncoder) (i : Fin xpdrDatasetSize) :
    Option TelemetryEncoder := do
  let j ← e.scan (fun f => f.pid.uid.setWidth 16 = (xpdrDataset dict i).uid) e.slotsCnt 0
  some (if j < e.slotsCnt then
    {e with xpdrSlotIdx := update e.xpdrSlotIdx i (BitVec.ofNat 8 j)} else e)

def add (dict : Dictionary) (e : TelemetryEncoder) (field : Field) :
    Option (TelemetryEncoder × Bool) :=
  let e := {e with insertedIndex := none}
  if e.slotsCnt ≥ slotsSize then some (e,false)
  else do
    let dup ← e.slotLookup field.pid.uid
    if dup.isSome then some (e,true)
    else
      let index ← e.sortedIndex field
      let e ← e.insert index field
      let e := {e with insertedIndex := some index}
      let updCnt ← e.scan (fun f => f.fmt = Fmt.bit.code) e.slotsCnt 0
      let e ← (List.finRange xpdrDatasetSize).foldlM (resyncXpdr dict)
        {e with slotsUpdCnt := updCnt}
      some (e,true)

/-- `_set_data`. -/
def setData (e : TelemetryEncoder) (n : Nat) (raw : BitVec 32) (type : TypeId) :
    Option TelemetryEncoder := do
  let s ← e.slot n
  let s := {s with flags := {s.flags with timeout := 0#4}}
  if s.value = raw ∧ s.flags.type = type then e.setSlot n s
  else
    let upd := s.flags.upd || s.field.pid.seq ≠ seqScheduled
    e.setSlot n {s with value := raw, flags := {s.flags with type := type, upd := upd}}

def update (dict : Dictionary) (e : TelemetryEncoder) (pid : Pid) (raw : BitVec 32)
    (type : TypeId) (sync : Bool) : Option (TelemetryEncoder × UpdateResult) := do
  let idx ← e.slotLookup pid.uid
  match idx with
  | some idx => do
    let e ← e.setData idx raw type
    some (e,.ok)
  | none =>
    if ¬ sync then some (e,.skipped)
    else
      let pos := e.slotsCnt+e.syncCnt
      let i ← e.scan (fun f => f.pid.uid = pid.uid) e.syncCnt e.slotsCnt
      if i < pos then do
        let e ← e.setData i raw type
        some (e,if pos ≥ slotsSize then .syncOvf else .skipped)
      else if pos ≥ slotsSize then some (e,.syncOvf)
      else
        let fmt := dict.fmt (pid.uid.setWidth 16)
        if fmt.ds = dsAux then some (e,.skipped)
        else do
          let pos := pos+1
          let e := {e with syncCnt := e.syncCnt+1}
          let s ← e.slot pos
          let f : Field := ⟨⟨pid.uid,priFinal,fmt.seq⟩,fmt.fmt.setWidth 8⟩
          let e ← e.setSlot pos {s with field := f}
          let e ← e.setData pos raw type
          some (e,if pos ≥ slotsSize then .syncOvf else .synced)

def moveData (s : EncSlot) (e : TelemetryEncoder) : Option TelemetryEncoder :=
  match e.insertedIndex with
  | some dest => do
    let d ← e.slot dest
    e.setSlot dest {s with field := d.field}
  | none => some e

/-- The loop of `sync_flush`: the pending fields are added one by one. -/
def flushLoop (dict : Dictionary) : Nat → Nat → TelemetryEncoder → Option TelemetryEncoder
  | 0, _, e => some e
  | n+1, i, e => do
    let s ← e.slot i
    let (e,added) ← e.add dict s.field
    if ¬ added then some e
    else
      let e ← moveData s e
      flushLoop dict n (i+1) e

def syncFlush (dict : Dictionary) (e : TelemetryEncoder) : Option TelemetryEncoder := do
  let e ← flushLoop dict e.syncCnt e.slotsCnt e
  some {e with syncCnt := 0}

/-- The part of `encode_values` before its loop: the next slot is sent again. -/
def enforceUpdate (e : TelemetryEncoder) : Option TelemetryEncoder := do
  let s ← e.slot e.enforcedUpd
  let e ← e.setSlot e.enforcedUpd
    {s with flags := {s.flags with upd := true}, packed := s.packed+0x01010101#32}
  let next := e.enforcedUpd+1
  some {e with
    enforcedUpd := if next ≥ e.slotsCnt then 0 else if next ≥ e.slotsUpdCnt then 0 else next}

/-- The variables of `encode_values`; pointers are positions in the buffer of the stream. `sent`
is not in the source: it lists the values written to the stream, each with its slot. -/
structure EncodeState where
  enc : TelemetryEncoder
  stream : Writer
  posData : Nat
  code : Nat
  codeBit : Byte
  codeZero : Nat
  codeIndex : Nat
  nibble : Nat
  nibbleN : Nat
  sent : List (Nat × BitVec 32)

/-- The loop that writes an offset, at most 0x7F a byte; a byte of 0x7F is never the last. -/
def writeOffset : Nat → Nat → Nat → Writer → Option Writer
  | 0, _, _, _ => none
  | fuel+1, dindex, offset, w =>
    if dindex > 0 ∨ offset = 0x7F then
      let offset := if dindex > 0x7F then 0x7F else dindex
      writeOffset fuel (dindex-offset) offset (w.writeT [BitVec.ofNat 8 offset ||| 0x80#8])
    else some w

/-- The local `raw` with the packed bytes in it; the others are what it held before. -/
def fillRaw (garbage : BitVec 32) (packed : List Byte) : BitVec 32 :=
  le32 (packed.getD 0 (garbage.extractLsb' 0 8)) (packed.getD 1 (garbage.extractLsb' 8 8))
    (packed.getD 2 (garbage.extractLsb' 16 8)) (packed.getD 3 (garbage.extractLsb' 24 8))

/-- The presence of a slot is written: as a bit of its code, or as an offset that replaces the codes
without a value. -/
def writeCode (index : Nat) (s : EncodeState) : Option EncodeState :=
  if s.codeZero ≥ 2 then do
    -- below zero the unsigned position is beyond the end
    let stream := s.stream.reset
      (if s.codeZero ≤ s.stream.pos then s.stream.pos-s.codeZero else s.stream.size)
    let dindex := index-s.codeIndex
    let stream ← writeOffset 4 dindex dindex stream
    some {s with stream := stream, codeBit := 1#8 <<< 6}
  else do
    let stream ← s.stream.modifyAt s.code (· ||| s.codeBit)
    some {s with stream := stream}

/-- The packed value of a slot is written. -/
def writeValue (f : Field) (buf : BitVec 32) (sz : Nat) (s : EncodeState) : Option EncodeState :=
  if f.fmt = Fmt.u4.code then
    let v := buf.setWidth 8 &&& 0x0F#8
    if s.nibbleN = 0 then
      let stream := s.stream.writeT [v]
      some {s with nibbleN := 1, nibble := s.stream.pos, stream := stream, posData := stream.pos}
    else do
      let stream ← s.stream.modifyAt s.nibble (· ||| v <<< 4)
      some {s with nibbleN := 0, stream := stream}
  else
    let stream := s.stream.write ((bytes32 buf).take sz)
    some {s with nibbleN := 0, stream := stream, posData := stream.pos}

def sendValue (codeCnt index : Nat) (f : Field) (buf : BitVec 32) (sz : Nat) (s : EncodeState) :
    Option EncodeState := do
  let s ← writeCode index s
  let s ← writeValue f buf sz s
  let stream ← s.stream.modifyAt codeCnt (·+1#8)
  some {s with stream := stream, codeZero := 0, sent := s.sent ++ [(index,buf)]}

/-- The bit of the next field that passes the filter, in a new code when the last one is full. -/
def nextBit (index : Nat) (s : EncodeState) : EncodeState :=
  if s.codeBit = 1#8 <<< 6 then
    {s with
      codeIndex := if s.codeZero = 0 then index else s.codeIndex
      codeZero := s.codeZero+1
      codeBit := 1#8
      code := s.stream.pos
      stream := s.stream.writeT [0#8]
      nibbleN := 0}
  else {s with codeBit := s.codeBit <<< 1}

/-- One round of the loop over the values, for a field that passes the filter. `garbage` is what
the local `raw` holds before the value is packed. -/
def encodeValue (casts : Casts) (garbage : Nat → BitVec 32) (codeCnt index : Nat)
    (slot : EncSlot) (s : EncodeState) : Option EncodeState :=
  let s := nextBit index s
  if slot.flags.upd then
    let packed := packValue casts slot.value slot.flags.type slot.field.fmt
    let raw := fillRaw (garbage index) packed
    let slot' := {slot with flags := {slot.flags with upd := false}}
    if slot.packed ≠ raw then do
      let enc ← s.enc.setSlot index {slot' with packed := raw}
      sendValue codeCnt index slot.field raw packed.length {s with enc := enc}
    else do
      let enc ← s.enc.setSlot index slot'
      some {s with enc := enc}
  else some s

def valueLoop (casts : Casts) (garbage : Nat → BitVec 32) (pseq : Byte) (codeCnt : Nat) :
    Nat → Nat → EncodeState → Option (EncodeState × Nat)
  | 0, index, s => some (s,index)
  | n+1, index, s => do
    let slot ← s.enc.slot index
    if slot.field.fmt = Fmt.bit.code then some (s,index)
    else if ¬ passes slot.field pseq then valueLoop casts garbage pseq codeCnt n (index+1) s
    else do
      let s ← encodeValue casts garbage codeCnt index slot s
      valueLoop casts garbage pseq codeCnt n (index+1) s

def appendBit (slot : EncSlot) (s : EncodeState) : Option EncodeState :=
  let s := if s.codeBit = 1#8 <<< 7 then
      {s with code := s.stream.pos, stream := s.stream.writeT [0#8], codeBit := 1#8}
    else {s with codeBit := s.codeBit <<< 1}
  if slot.value ≠ 0#32 then do
    let stream ← s.stream.modifyAt s.code (· ||| s.codeBit)
    some {s with stream := stream}
  else some s

def bitLoop : Nat → Nat → EncodeState → Option EncodeState
  | 0, _, s => some s
  | n+1, index, s => do
    let slot ← s.enc.slot index
    let s ← appendBit slot s
    bitLoop n (index+1) s

/-- `encode_values`. The variables without an initial value are set before they are read. -/
def encodeValues (casts : Casts) (garbage : Nat → BitVec 32) (e : TelemetryEncoder)
    (stream : Writer) (pseq : Byte) : Option EncodeState := do
  let codeCnt := stream.pos
  let stream := stream.writeT [0#8]
  let e ← e.enforceUpdate
  let s : EncodeState := ⟨e,stream,stream.pos,stream.pos,1#8 <<< 6,0,0,0,0,[]⟩
  let (s,index) ← valueLoop casts garbage pseq codeCnt e.slotsCnt 0 s
  let s := {s with stream := s.stream.reset s.posData, codeBit := 1#8 <<< 7}
  bitLoop (e.slotsCnt-index) index s

def hashByte (h : Hash) (seq : BitVec 2) : Byte := h.get seq.toFin

/-- `encode`, which always returns `true`. -/
def encode (casts : Casts) (garbage : Nat → BitVec 32) (e : TelemetryEncoder) (stream : Writer)
    (pseq : Byte) (timestampMs : BitVec 64) : Option EncodeState :=
  let hdr : Hdr :=
    ⟨(timestampMs/BitVec.ofNat 64 ts2ms).setWidth 16,hashByte e.hash (pseq.setWidth 2)⟩
  encodeValues casts garbage e (hdr.write stream) pseq

/-- `encode_format`. A size of 0 is a division by zero. -/
def encodeFormat (e : TelemetryEncoder) (stream : Writer) (part size : Byte) : Option Writer :=
  if size = 0#8 then none
  else
    let cnt := e.slotsCnt*3
    let pcnt := BitVec.ofNat 8 (cnt/size.toNat)
    let pcnt := if cnt%size.toNat ≠ 0 then pcnt+1#8 else pcnt
    let sz := if part < pcnt then cnt-part.toNat*size.toNat else 0
    let sz := if sz > size.toNat then size.toNat else sz
    let h : FormatRespHdr := ⟨fmtVersion,part,pcnt,size,e.hash.hash⟩
    let stream := h.write stream
    some (if sz > 0 then stream.write ((e.table.drop (part.toNat*size.toNat)).take sz) else stream)

/-- The loop of `encode_xpdr`, and what the function returns. -/
def xpdrLoop (dict : Dictionary) (casts : Casts) (e : TelemetryEncoder) :
    List (Fin xpdrDatasetSize) → Writer → Option (Writer × Bool)
  | [], stream => some (stream,true)
  | i :: is, stream =>
    let index := (e.xpdrSlotIdx i).toNat
    if index ≥ e.slotsCnt then xpdrLoop dict casts e is stream
    else do
      let s ← e.slot index
      let buf := packValue casts s.value s.flags.type (xpdrDataset dict i).fmt
      if buf.length = 0 then some (stream,false)
      else xpdrLoop dict casts e is (stream.write buf)

def encodeXpdr (dict : Dictionary) (casts : Casts) (e : TelemetryEncoder) (stream : Writer)
    (timestampMs : BitVec 64) : Option (Writer × Bool) :=
  let hdr : Hdr :=
    ⟨(timestampMs/BitVec.ofNat 64 ts2ms).setWidth 16,xpdrVersion⟩
  xpdrLoop dict casts e (List.finRange xpdrDatasetSize) (hdr.write stream)

end TelemetryEncoder

end ApxBus.Telemetry
