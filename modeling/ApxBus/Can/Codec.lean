import ApxBus.Can.PoolRefinement
set_option autoImplicit false

/-! Packets cut into CAN messages and read back, `xbus/can/CanCodec.cpp`. -/

namespace ApxBus.Can

/-- `xcan_msg_s`. -/
structure XcanMsg where
  id : BitVec 32
  dlc : BitVec 4
  ext : Bool
  data : Vector Byte 8
  deriving DecidableEq, Repr

/-- `memcpy(&data[pos], src, n)` inside the eight bytes; the others keep what they held. -/
def putBytes (v : Vector Byte 8) (pos : Nat) (src : List Byte) : Vector Byte 8 :=
  Vector.ofFn fun i => if pos ≤ i.val then src.getD (i.val-pos) v[i] else v[i]

/-- The loop of `send_packet`: `src` and `cnt` are the bytes to send, the two of the checksum
included in the count, and `frm` the number of the next frame. `send n` is what the n-th call of
`send_message` returns. The result holds the messages passed to it. -/
def sendFrames (extid : Extid) (crc16 : BitVec 16) (send : Nat → Bool) :
    Nat → Nat → List Byte → BitVec 3 → XcanMsg → Nat → Bool × List XcanMsg × XcanMsg
  | 0, _, _, _, tx, _ => (true,[],tx)
  | fuel+1, cnt, src, frm, tx, n =>
    if cnt = 0 then (true,[],tx)
    else
      let lo := crc16.extractLsb' 0 8
      let hi := crc16.extractLsb' 8 8
      let dlc := if cnt > 8 then 8 else cnt
      let id := if cnt > 8 then {extid with frm := frm}.raw else {extid with frm := frmEnd}.raw
      let frm := if cnt > 8 then
          (if frm = frmStart ∨ frm.toNat ≥ frmSeqMax then 0#3 else frm+1#3) else frm
      let data :=
        if cnt > 8 then
          if cnt = 9 then putBytes (putBytes tx.data 0 (src.take 7)) 7 [lo]
          else putBytes tx.data 0 (src.take 8)
        else if cnt > 2 then
          putBytes (putBytes (putBytes tx.data 0 (src.take (cnt-2))) (cnt-2) [lo]) (cnt-1) [hi]
        else if cnt = 2 then putBytes (putBytes tx.data 0 [lo]) 1 [hi]
        else putBytes tx.data 0 [hi]
      let tx := {tx with id := id, dlc := BitVec.ofNat 4 dlc, data := data}
      if send n then
        let (ok,msgs,last) := sendFrames extid crc16 send fuel (cnt-dlc) (src.drop dlc) frm tx (n+1)
        (ok,tx :: msgs,last)
      else (false,[tx],tx)

/-- `send_packet`: the return value, the messages sent and `txmsg` as it is left behind. -/
def sendPacket (extidDefaults : Extid) (txmsg : XcanMsg) (send : Nat → Bool)
    (data : List Byte) : Bool × List XcanMsg × XcanMsg :=
  if data.length < 2 then (true,[],txmsg)
  else
    let (pid,stream) := (Reader.mk data 0).read16
    let extid := {extidDefaults with pid := pid}
    let cnt := stream.available
    let tx := {txmsg with ext := true}
    if cnt ≤ 8 then
      let tx := {tx with
        id := {extid with frm := frmSingle}.raw
        dlc := BitVec.ofNat 4 cnt
        data := if cnt > 0 then putBytes tx.data 0 (stream.rest.take cnt) else tx.data}
      (send 0,[tx],tx)
    else
      let crc16 := (crc32 data data.length crcInit).setWidth 16
      sendFrames extid crc16 send (cnt+2) (cnt+2) stream.rest frmStart tx 0

/-- The receiving side, and the two virtual methods it asks. `updateNodeId` gives the
identifier defaults that the node takes when it hears its own address. -/
structure Codec where
  pool : Pool
  extidDefaults : Extid
  txmsg : XcanMsg
  acceptFilter : Extid → Bool
  updateNodeId : Extid → Extid

namespace Codec

/-- `sendAddressing`: an empty packet under the node's own address. -/
def sendAddressing (c : Codec) : Codec × XcanMsg :=
  let extid := {c.extidDefaults with pid := 0xFFFF#16, frm := frmSingle}
  let tx := {c.txmsg with id := extid.raw, ext := true, dlc := 0#4}
  ({c with txmsg := tx},tx)

def pushMessage (c : Codec) (msg : XcanMsg) : Option (Codec × ErrorType × List XcanMsg) :=
  let extid := Extid.ofRaw msg.id
  if extid.src = c.extidDefaults.src then
    let c := {c with extidDefaults := c.updateNodeId c.extidDefaults}
    let (c,tx) := c.sendAddressing
    some (c,.msgDropped,[tx])
  else if ¬ c.acceptFilter extid then some (c,.msgAccepted,[])
  else do
    let (p,rv) ← c.pool.push extid msg.data (msg.dlc.setWidth 8)
    some ({c with pool := p},rv,[])

/-- `check_crc`: the size without the checksum, or 0. -/
def checkCrc (dest : List Byte) (sz : Nat) : Nat :=
  let sz := sz-2
  let packetCrc16 := le16 (dest.getD sz 0#8) (dest.getD (sz+1) 0#8)
  let crc16 := (crc32 dest sz crcInit).setWidth 16
  if packetCrc16 ≠ crc16 then 0 else sz

/-- The loop of `read_packet`: packets that fail the check are read and dropped. Each round but
the last empties a tree, so `sizeTrees+1` rounds are enough. -/
def readLoop : Nat → Codec → List Byte → BitVec 7 → Option (Codec × Pool.ReadResult)
  | 0, _, _, _ => none
  | fuel+1, c, dest, src => do
    let (p,r) ← c.pool.readPacket dest src
    let c := {c with pool := p}
    if r.cnt ≤ 2+8 then some (c,r)
    else
      let cnt := checkCrc r.dest r.cnt
      if cnt > 0 then some (c,{r with cnt := cnt})
      else readLoop fuel c r.dest r.srcId

def readPacket (c : Codec) (dest : List Byte) (src : BitVec 7) :
    Option (Codec × Pool.ReadResult) := readLoop (sizeTrees+1) c dest src

end Codec

end ApxBus.Can
