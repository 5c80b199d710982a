import ApxBus.Can.Pool
import ApxBus.LinkedCells
import Mathlib.Tactic.Ring
set_option autoImplicit false

/-!
What the pool is for: at most `sizeTrees` packets in assembly, each with the message bodies
received so far, and together at most `sizeItems` bodies. The linked items of `Pool` refine this.
-/

namespace ApxBus.Can
open Function LinkedCells

structure Assembly where
  extid : Extid
  dlc : Byte
  timeout : Nat
  chunks : List (Vector Byte 8)
  deriving DecidableEq, Repr

def Assembly.Awaits (s : Assembly) (extid : Extid) : Prop := s.dlc = 0#8 ∧ s.extid.sameId extid

instance (s : Assembly) (extid : Extid) : Decidable (s.Awaits extid) :=
  inferInstanceAs (Decidable (_ ∧ _))

def Assembly.copy (dlc : Byte) : List (Vector Byte 8) → Writer → Writer
  | [], w => w
  | [c], w =>
    if dlc.toNat ≤ 8 then
      if w.pos+dlc.toNat > w.size then w else w.write (c.toList.take dlc.toNat)
    else w
  | c :: cs, w => if w.pos+8 > w.size then w else copy dlc cs (w.write c.toList)

/-- The bytes of the assembly as they are copied to `dest`: the packet id, then the chunks. -/
def Assembly.read (s : Assembly) (dest : List Byte) : Writer :=
  copy s.dlc s.chunks ((Writer.mk dest 0).writeT (bytes16 s.extid.pid))

/-- The assembly that `data` continues, with `tFrm` the frame number just seen. -/
def Assembly.extend (s : Assembly) (data : Vector Byte 8) (dlc : Byte) (tFrm : Nat) : Assembly :=
  let frm := if tFrm+1 > frmSeqMax then 0 else tFrm+1
  {s with
    extid := if dlc ≠ 0#8 then s.extid else {s.extid with frm := BitVec.ofNat 3 frm}
    dlc := dlc
    timeout := xcanCodecTimeout
    chunks := s.chunks ++ [data]}

abbrev Assemblies := Fin sizeTrees → Option Assembly

namespace Assemblies

def used (a : Assemblies) : Nat := ∑ k, ((a k).elim [] Assembly.chunks).length

def empty : Assemblies := fun _ => none

def discard (extid : Extid) : Option Assembly → Option Assembly
  | none => none
  | some s => if s.Awaits extid then none else some s

def remove (a : Assemblies) (extid : Extid) : Assemblies := fun k => discard extid (a k)

def age : Option Assembly → Option Assembly
  | none => none
  | some s =>
    if s.dlc ≠ 0#8 then some s
    else if s.timeout = 0 then none else some {s with timeout := s.timeout-1}

def timeout (a : Assemblies) : Assemblies := fun k => age (a k)

def firstFree (a : Assemblies) : Option (Fin sizeTrees) :=
  (List.finRange sizeTrees).find? (fun k => (a k).isNone)

def firstAwaiting (a : Assemblies) (extid : Extid) : Option (Fin sizeTrees × Assembly) :=
  (List.finRange sizeTrees).findSome? fun k =>
    (a k).bind fun s => if s.Awaits extid then some (k,s) else none

def pushNew (a : Assemblies) (extid : Extid) (data : Vector Byte 8) (dlc : Byte) :
    Assemblies × ErrorType :=
  let a := a.remove extid
  match a.firstFree with
  | some k =>
    if dlc ≠ 0#8 then
      (update a k (some ⟨extid,dlc,xcanCodecTimeout,[data]⟩),.packetAvailable)
    else
      (update a k (some ⟨{extid with frm := 0#3},dlc,xcanCodecTimeout,[data]⟩),.msgAccepted)
  | none => (a.timeout,.errorTreeOverflow)

def pushNext (a : Assemblies) (extid : Extid) (data : Vector Byte 8) (dlc : Byte) :
    Assemblies × ErrorType :=
  match a.firstAwaiting extid with
  | none => ((a.remove extid).timeout,.errorOrphan)
  | some (k,s) =>
    match Pool.checkSeq s.extid extid dlc with
    | .error .msgDropped => (a,.msgDropped)
    | .error rv => ((a.remove extid).timeout,rv)
    | .ok tFrm =>
      (update a k (some (s.extend data dlc tFrm)),
        if dlc ≠ 0#8 then .packetAvailable else .msgAccepted)

def push (a : Assemblies) (extid : Extid) (data : Vector Byte 8) (dlc : Byte) :
    Assemblies × ErrorType :=
  if a.used = sizeItems then (a.timeout.remove extid,.errorSlotsOverflow)
  else if extid.frm = frmEnd then
    if dlc = 0#8 then (a,.errorDLC) else a.pushNext extid data dlc
  else if extid.frm = frmStart then
    if dlc ≠ 8#8 then (a,.errorDLC) else a.pushNew extid data 0#8
  else if extid.frm = frmSingle then
    a.pushNew extid data (if dlc ≠ 0#8 then dlc else 0xFF#8)
  else
    if dlc ≠ 8#8 then (a,.errorDLC) else a.pushNext extid data 0#8

def readFrom (dest : List Byte) (src : BitVec 7) : List (Fin sizeTrees) → Assemblies →
    Assemblies × Pool.ReadResult
  | [], a => (a,⟨0,dest,src⟩)
  | k :: ks, a =>
    match a k with
    | none => readFrom dest src ks a
    | some s =>
      if s.dlc = 0#8 then readFrom dest src ks a
      else
        let w := s.read dest
        if w.pos > 0 then (update a k none,⟨w.pos,w.buf,s.extid.src⟩)
        else readFrom w.buf s.extid.src ks (update a k none)

def readPacket (a : Assemblies) (dest : List Byte) (src : BitVec 7) :
    Assemblies × Pool.ReadResult := readFrom dest src (List.finRange sizeTrees) a

end Assemblies

end ApxBus.Can
