import ApxBus.Crc32
import Mathlib.Data.Vector.Basic
set_option autoImplicit false

/-! Byte stuffing of serial packets, `xbus/serial/CobsEncoder.h` and `CobsDecoder.h`. -/

namespace ApxBus.Serial

/-- The encoder while it writes: `out` is `_buf` up to `dest`, and `codePtr` the place of the
code of the block that is being written. -/
structure CobsEncoder where
  out : List Byte
  codePtr : Nat
  code : Byte
  deriving DecidableEq, Repr

namespace CobsEncoder

def startBlock (out : List Byte) : CobsEncoder := ⟨out ++ [1#8],out.length,1#8⟩

def finishBlock (e : CobsEncoder) : List Byte := e.out.set e.codePtr e.code

def nextBlock (e : CobsEncoder) : CobsEncoder := startBlock e.finishBlock

def put (e : CobsEncoder) (c : Byte) : CobsEncoder :=
  {e with out := e.out ++ [c], code := e.code+1#8}

def copy (esc : Byte) (e : CobsEncoder) : List Byte → CobsEncoder
  | [] => e
  | c :: cs =>
    -- a full block is finished in a round of its own, which takes no byte
    let e := if e.code = 0xFF#8 then e.nextBlock else e
    if c ≠ esc then copy esc (e.put c) cs else copy esc e.nextBlock cs

def encode (esc : Byte) (src : List Byte) : List Byte :=
  let e := copy esc (startBlock []) src
  let crc16 := (crc32 src src.length crcInit).setWidth 16
  let e := copy esc e (bytes16 crc16)
  e.finishBlock ++ [esc]

end CobsEncoder

inductive SerialDecoderStatus where
  | unknown | packetAvailable | dataAccepted | dataDropped
  | errorOverflow | errorSize | errorCRC
  deriving DecidableEq, Repr

/-- The decoder for packets of at most `packetSize` bytes, with room for the checksum. -/
structure CobsDecoder (packetSize : Nat) where
  buf : Vector Byte (packetSize+2)
  rsize : Nat
  rcnt : Nat
  code : Byte
  copy : Byte
  status : SerialDecoderStatus
  deriving DecidableEq, Repr

namespace CobsDecoder
variable {packetSize : Nat}

/-- A new decoder; the contents of its buffer are indeterminate. -/
def fresh (buf : Vector Byte (packetSize+2)) : CobsDecoder packetSize :=
  ⟨buf,0,0,0xFF#8,0#8,.unknown⟩

def restart (d : CobsDecoder packetSize) : CobsDecoder packetSize :=
  {d with code := 0xFF#8, copy := 0#8, rcnt := 0}

def reset (d : CobsDecoder packetSize) : CobsDecoder packetSize :=
  {d with status := .unknown}.restart

def fail (d : CobsDecoder packetSize) (status : SerialDecoderStatus) : CobsDecoder packetSize :=
  {d with status := status}.restart

/-- There is no result when the buffer is full. -/
def writeDecodedByte (d : CobsDecoder packetSize) (c : Byte) : Option (CobsDecoder packetSize) :=
  if h : d.rcnt < packetSize+2 then some {d with buf := d.buf.set d.rcnt c, rcnt := d.rcnt+1}
  else none

def delimiter (d : CobsDecoder packetSize) : CobsDecoder packetSize :=
  if d.copy ≠ 0#8 then d.fail .errorSize
  else if d.rcnt ≤ 2 then d.fail .errorSize
  else
    let rcnt := d.rcnt-2
    let packetCrc16 := le16 (d.buf.toList.getD rcnt 0#8) (d.buf.toList.getD (rcnt+1) 0#8)
    let crc16 := (crc32 d.buf.toList rcnt crcInit).setWidth 16
    if packetCrc16 ≠ crc16 then d.fail .errorCRC
    else {d with rsize := rcnt, status := .packetAvailable}.restart

def dataByte (esc : Byte) (d : CobsDecoder packetSize) (c : Byte) : CobsDecoder packetSize :=
  if d.copy ≠ 0#8 then
    match d.writeDecodedByte c with
    | none => d.fail .errorOverflow
    | some d => {d with copy := d.copy-1#8}
  else
    match if d.code ≠ 0xFF#8 then d.writeDecodedByte esc else some d with
    | none => d.fail .errorOverflow
    | some d => {d with code := c, copy := c-1#8}

/-- One round of the loop in `decode`, and whether it returns. -/
def byte (esc : Byte) (d : CobsDecoder packetSize) (c : Byte) : CobsDecoder packetSize × Bool :=
  if c = esc then
    let d := d.delimiter
    (d,d.status = .packetAvailable)
  else (d.dataByte esc c,false)

/-- The loop of `decode` over what is left of the `sz` bytes. -/
def decodeLoop (esc : Byte) (sz : Nat) : CobsDecoder packetSize → List Byte →
    CobsDecoder packetSize × Nat
  | d, [] =>
    (if d.status = .unknown then {d with status := if sz ≠ 0 then .dataAccepted else .dataDropped}
      else d,sz)
  | d, c :: cs =>
    match d.byte esc c with
    | (d,true) => (d,sz-cs.length)
    | (d,false) => decodeLoop esc sz d cs

/-- `decode`, and the number of bytes processed. -/
def decode (esc : Byte) (d : CobsDecoder packetSize) (src : List Byte) :
    CobsDecoder packetSize × Nat := decodeLoop esc src.length {d with status := .unknown} src

def packet (d : CobsDecoder packetSize) : List Byte := d.buf.toList.take d.rsize

/-- A chunk is given to `decode`, and the unprocessed rest again after every packet. A packet
takes at least one byte, so as many rounds as there are bytes are enough, and one more. -/
def feedRest (esc : Byte) : Nat → CobsDecoder packetSize → List Byte →
    CobsDecoder packetSize × List (List Byte)
  | 0, d, _ => (d,[])
  | fuel+1, d, src =>
    let (d,cnt) := d.decode esc src
    if d.status = .packetAvailable then
      let p := d.packet
      let (d,ps) := feedRest esc fuel d (src.drop cnt)
      (d,p :: ps)
    else (d,[])

def feed (esc : Byte) : CobsDecoder packetSize → List (List Byte) →
    CobsDecoder packetSize × List (List Byte)
  | d, [] => (d,[])
  | d, chunk :: chunks =>
    let (d,ps) := feedRest esc (chunk.length+1) d chunk
    let (d,qs) := feed esc d chunks
    (d,ps ++ qs)

end CobsDecoder

end ApxBus.Serial
