import ApxBus.Backport.Variables
set_option autoImplicit false

/-!
The downlink stream of `mandala/backport/MandalaFlat.cpp`: only changed variables are sent, each
eight of them behind a mask.
-/

namespace ApxBus.Backport

/-- The variables, and the fields of `Mandala` that the stream uses. -/
structure Mandala where
  cells : List Cell
  reset : Bool
  snapshot : List Byte
  resetMask : List Byte
  frcnt : BitVec 32
  errcnt : BitVec 32
  timeS : BitVec 32
  ts : BitVec 16
  pdt : BitVec 16
  e : Bool
  size : Nat
  hdSave : Bool

/-- The places of some variables behind `idxPAD`. -/
def idxCmode : Nat := 75
def idxCas2tas : Nat := 92
def idxDlPeriod : Nat := 133
def idxDlTimestamp : Nat := 134

def cmodeDlhd : Byte := 1#8

def Mandala.word (m : Mandala) (idx : Nat) : BitVec 32 := (m.cells.getD idx ⟨0#32,0#32,0#32⟩).x

def setWord (cells : List Cell) (idx : Nat) (v : BitVec 32) : List Cell :=
  cells.set idx ⟨v,0#32,0#32⟩

/-- `dl_snapshot`, `dl_reset_mask`, `dl_hd_save` and `dl_e` stay as they are. -/
def Mandala.init (m : Mandala) : Mandala :=
  {m with
    cells := setWord (vars.map fun _ => ⟨0#32,0#32,0#32⟩) idxCas2tas 0x3F800000#32
    reset := true, frcnt := 0#32, errcnt := 0#32, timeS := 0#32, ts := 0#16, pdt := 0#16
    size := 0}

/-- The local variables of the loop in `pack_downstream`. `buf` is written from the first mask
on, and `ptr` is its end. -/
structure Packing where
  buf : List Byte
  maskPtr : Nat
  mask : Byte
  cnt : Nat
  maskCnt : Nat
  maskCntZero : Nat
  resetMask : List Byte
  resetPtr : Nat
  snapshot : List Byte
  snapPtr : Nat

namespace Packing

/-- `(*mask_ptr) |= mask` and `(*mask_ptr) &= ~mask`. -/
def setBits (l : List Byte) (ptr : Nat) (mask : Byte) : List Byte :=
  l.set ptr (l.getD ptr 0#8 ||| mask)

def clearBits (l : List Byte) (ptr : Nat) (mask : Byte) : List Byte :=
  l.set ptr (l.getD ptr 0#8 &&& ~~~mask)

def post (p : Packing) (dlVar : List Byte) : Packing :=
  {p with
    snapshot := p.snapshot.take p.snapPtr ++ dlVar ++ p.snapshot.drop (p.snapPtr+dlVar.length)
    buf := setBits (p.buf ++ dlVar) p.maskPtr p.mask
    cnt := p.cnt+dlVar.length
    maskCnt := p.maskCnt+p.maskCntZero
    maskCntZero := 0}

/-- On to the next variable, and after eight of them to the next mask. -/
def next (p : Packing) (sz : Nat) : Packing :=
  let p := {p with snapPtr := p.snapPtr+sz, mask := p.mask <<< 1}
  if p.mask = 0#8 then
    {p with
      mask := 1#8
      maskCntZero := p.maskCntZero+1
      maskPtr := p.buf.length
      buf := p.buf ++ [0#8]
      resetPtr := p.resetPtr+1}
  else p

end Packing

section
variable (casts : BitVec 32 → Byte)

/-- The loop over the variables. Packing may change a variable. -/
def packVars (hd : Bool) (maxSize : Nat) :
    List (MVar × Cell) → Packing → List Cell × Packing
  | [], p => ([],p)
  | (m,v) :: l, p =>
    let (dlVar,v') := m.pack casts hd v
    let sz := dlVar.length
    let due := decide (p.resetMask.getD p.resetPtr 0#8 &&& p.mask ≠ 0#8)
    let p := if due then {p with resetMask := Packing.clearBits p.resetMask p.resetPtr p.mask}
      else p
    let filtered := !due && decide ((p.snapshot.drop p.snapPtr).take sz = dlVar)
    if !filtered && decide (p.cnt+p.maskCnt+2+sz+p.maskCntZero ≥ maxSize) then
      (v' :: l.map Prod.snd,
        {p with resetMask := Packing.setBits p.resetMask p.resetPtr p.mask})
    else
      let (vs,p) := packVars hd maxSize l ((if filtered then p else p.post dlVar).next sz)
      (v' :: vs,p)

namespace Mandala

/-- `pack_downstream`: all bytes written to the buffer, of which the first `size` are the
frame. -/
def packDownstream (d : Mandala) (maxSize : Nat) (timestamp : BitVec 32) :
    List Byte × Mandala :=
  let hd := decide ((d.word idxCmode).setWidth 8 &&& cmodeDlhd ≠ 0#8)
  let d := if d.hdSave ≠ hd then {d with hdSave := hd, reset := true} else d
  let dlTimestamp := d.word idxDlTimestamp
  let ts := (dlTimestamp/10#32) &&& 0x7FFF#32
  let header := [ts.setWidth 8,(ts >>> 8).setWidth 8 ||| (if hd then 0x80#8 else 0#8)]
  let resetMask := if d.reset then d.resetMask.map fun _ => 0xFF#8 else d.resetMask
  let (cells,p) := packVars casts hd maxSize (streamVars.zip d.cells)
    ⟨[0#8],0,1#8,0,0,1,resetMask,0,d.snapshot,0⟩
  let dlPeriod := d.word idxDlPeriod
  (header ++ p.buf,
    {d with
      cells := setWord (cells ++ d.cells.drop streamVars.length) idxDlTimestamp
        (dlTimestamp+(if dlPeriod ≠ 0#32 then dlPeriod else timestamp-d.timeS))
      reset := decide (dlTimestamp % 10000#32 = 0#32)
      resetMask := p.resetMask
      snapshot := p.snapshot
      timeS := timestamp
      size := p.cnt+p.maskCnt+2})

end Mandala
end

/-- The local variables of `unpack_stream`; `mem` is what lies at `ptr` and behind. -/
structure Unpacking where
  mem : List Byte
  tcnt : Int
  idx : Nat
  cells : List Cell

/-- The loop over the bits of a mask, `n` of them from `mask` on. `false` when a variable is not
known. -/
def unpackMask (hd : Bool) (byte : Byte) : Nat → Byte → Unpacking → Bool × Unpacking
  | 0, _, u => (true,u)
  | n+1, mask, u =>
    if byte &&& mask ≠ 0#8 then
      if u.tcnt ≤ 0 then (true,u)
      else match vars[u.idx]? with
        | none => (false,u)
        | some m => unpackMask hd byte n (mask <<< 1)
          {mem := u.mem.drop (m.size hd), tcnt := u.tcnt-m.size hd, idx := u.idx+1
           cells := u.cells.set u.idx (m.unpack hd u.mem)}
    else unpackMask hd byte n (mask <<< 1) {u with idx := u.idx+1}

def unpackLoop (hd : Bool) : Nat → Unpacking → Bool × Unpacking
  | 0, u => (true,u)
  | fuel+1, u =>
    let (ok,v) := unpackMask hd (u.mem.getD 0 0#8) 8 1#8 {u with mem := u.mem.drop 1}
    if !ok then (false,v)
    else
      let v := {v with tcnt := v.tcnt-1}
      if v.tcnt > 0 then unpackLoop hd fuel v else (true,v)

namespace Mandala

/-- `unpack_stream` on the `cnt` bytes at the head of `mem`. -/
def unpackStream (m : Mandala) (mem : List Byte) (cnt : Nat) (hd : Bool) : Nat × Mandala :=
  let (ok,u) := unpackLoop hd cnt ⟨mem,cnt-1,0,m.cells⟩
  (if ok then cnt else 0,{m with cells := u.cells})

/-- `unpack_downstream` on the `cnt` bytes at the head of `mem`. What it computes last from the
variables received goes to variables that are not in the stream. -/
def unpackDownstream (m : Mandala) (mem : List Byte) (cnt : Nat) : Nat × Mandala :=
  let ts := le16 (mem.getD 0 0#8) (mem.getD 1 0#8)
  let hd := decide (ts &&& 0x8000#16 ≠ 0#16)
  let ts := ts &&& 0x7FFF#16
  let pdt := (ts-m.ts) &&& 0x7FFF#16
  let bErr := decide (m.pdt ≠ pdt)
  let m := {m with
    cells := setWord m.cells idxDlTimestamp (m.word idxDlTimestamp+pdt.setWidth 32*10#32)
    size := cnt
    frcnt := m.frcnt+1#32
    ts := ts
    pdt := pdt
    errcnt := if bErr && decide (bErr = m.e) then m.errcnt+1#32 else m.errcnt
    e := bErr}
  if cnt > 2 then m.unpackStream (mem.drop 2) (cnt-2) hd else (2,m)

end Mandala

end ApxBus.Backport
