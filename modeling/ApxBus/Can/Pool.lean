import ApxBus.Stream
import Mathlib.Data.Fintype.Basic
import Mathlib.Logic.Function.Basic
set_option autoImplicit false

/-! The reassembly pool of `xbus/can/CanPool.cpp`, with the identifiers of `CanFormat.h`. -/

namespace ApxBus.Can
open Function

/-- `extid_s`: 29 bits of identifier, and the three unused bits of the word. -/
structure Extid where
  frm : BitVec 3
  pid : BitVec 16
  src : BitVec 7
  net : BitVec 3
  rsv : BitVec 3
  deriving DecidableEq, Repr

def Extid.raw (e : Extid) : BitVec 32 := e.rsv ++ e.net ++ e.src ++ e.pid ++ e.frm

def Extid.ofRaw (raw : BitVec 32) : Extid :=
  ⟨raw.extractLsb' 0 3,raw.extractLsb' 3 16,raw.extractLsb' 19 7,raw.extractLsb' 26 3,
    raw.extractLsb' 29 3⟩

def frmSeqMax : Nat := 4
def frmEnd : BitVec 3 := 5#3
def frmStart : BitVec 3 := 6#3
def frmSingle : BitVec 3 := 7#3

/-- The bits of an identifier that name the packet: `pid`, `src` and `net`. -/
def mfIdMask : BitVec 32 := ((1#32 <<< 29) - 1) &&& ~~~((1#32 <<< 3) - 1)

def Extid.sameId (a b : Extid) : Prop := (a.raw ^^^ b.raw) &&& mfIdMask = 0#32

instance (a b : Extid) : Decidable (a.sameId b) := inferInstanceAs (Decidable (_ = _))

theorem mfIdMask_getLsbD : ∀ i < 32, mfIdMask.getLsbD i = decide (3 ≤ i ∧ i < 29) := by decide

theorem Extid.raw_getLsbD (e : Extid) (i : Nat) :
    e.raw.getLsbD i =
      if i < 3 then e.frm.getLsbD i else if i < 19 then e.pid.getLsbD (i-3)
      else if i < 26 then e.src.getLsbD (i-19) else if i < 29 then e.net.getLsbD (i-26)
      else e.rsv.getLsbD (i-29) := by
  simp only [raw,BitVec.getLsbD_append,Nat.sub_sub]
  split_ifs <;> first | rfl | omega

theorem Extid.raw_pid (e : Extid) (i : Nat) (hi : i < 16) :
    e.raw.getLsbD (i+3) = e.pid.getLsbD i := by
  rw [raw_getLsbD,if_neg (by omega),if_pos (by omega),Nat.add_sub_cancel]

theorem Extid.raw_src (e : Extid) (i : Nat) (hi : i < 7) :
    e.raw.getLsbD (i+19) = e.src.getLsbD i := by
  rw [raw_getLsbD,if_neg (by omega),if_neg (by omega),if_pos (by omega),Nat.add_sub_cancel]

theorem Extid.raw_net (e : Extid) (i : Nat) (hi : i < 3) :
    e.raw.getLsbD (i+26) = e.net.getLsbD i := by
  rw [raw_getLsbD,if_neg (by omega),if_neg (by omega),if_neg (by omega),if_pos (by omega),
    Nat.add_sub_cancel]

@[simp] theorem Extid.ofRaw_raw (e : Extid) : ofRaw e.raw = e := by
  have h0 : e.raw.extractLsb' 0 3 = e.frm := by
    apply BitVec.eq_of_getLsbD_eq
    intro i hi
    simp [raw_getLsbD,hi]
  have h1 : e.raw.extractLsb' 3 16 = e.pid := by
    apply BitVec.eq_of_getLsbD_eq
    intro i hi
    simp [Nat.add_comm 3 i,e.raw_pid i hi,hi]
  have h2 : e.raw.extractLsb' 19 7 = e.src := by
    apply BitVec.eq_of_getLsbD_eq
    intro i hi
    simp [Nat.add_comm 19 i,e.raw_src i hi,hi]
  have h3 : e.raw.extractLsb' 26 3 = e.net := by
    apply BitVec.eq_of_getLsbD_eq
    intro i hi
    simp [Nat.add_comm 26 i,e.raw_net i hi,hi]
  have h4 : e.raw.extractLsb' 29 3 = e.rsv := by
    apply BitVec.eq_of_getLsbD_eq
    intro i hi
    have h := e.raw_getLsbD (29+i)
    rw [if_neg (by omega),if_neg (by omega),if_neg (by omega),if_neg (by omega),
      Nat.add_sub_cancel_left] at h
    simp [h,hi]
  simp only [ofRaw,h0,h1,h2,h3,h4]

theorem Extid.sameId_iff (a b : Extid) :
    a.sameId b ↔ a.pid = b.pid ∧ a.src = b.src ∧ a.net = b.net := by
  have hbit : a.sameId b ↔ ∀ i, 3 ≤ i → i < 29 → a.raw.getLsbD i = b.raw.getLsbD i := by
    constructor
    · intro h i h3 h29
      have hi := congrArg (BitVec.getLsbD · i) h
      simpa [mfIdMask_getLsbD i (by omega),h3,h29] using hi
    · intro h
      apply BitVec.eq_of_getLsbD_eq
      intro i hi
      rw [BitVec.getLsbD_and,BitVec.getLsbD_xor,mfIdMask_getLsbD i hi]
      by_cases hm : 3 ≤ i ∧ i < 29
      · simp [h i hm.1 hm.2]
      · simp [hm]
  rw [hbit]
  constructor
  · intro h
    refine ⟨?_,?_,?_⟩
    · apply BitVec.eq_of_getLsbD_eq
      intro i hi
      rw [← a.raw_pid i hi,← b.raw_pid i hi]
      exact h _ (by omega) (by omega)
    · apply BitVec.eq_of_getLsbD_eq
      intro i hi
      rw [← a.raw_src i hi,← b.raw_src i hi]
      exact h _ (by omega) (by omega)
    · apply BitVec.eq_of_getLsbD_eq
      intro i hi
      rw [← a.raw_net i hi,← b.raw_net i hi]
      exact h _ (by omega) (by omega)
  · rintro ⟨hp,hs,hn⟩ i h3 h29
    simp only [raw_getLsbD,hp,hs,hn]
    split_ifs <;> first | rfl | omega

attribute [irreducible] Extid.sameId

theorem Extid.sameId.refl (a : Extid) : a.sameId a := by simp [sameId_iff]

theorem Extid.sameId.symm {a b : Extid} (h : a.sameId b) : b.sameId a := by
  rw [sameId_iff] at h ⊢
  exact ⟨h.1.symm,h.2.1.symm,h.2.2.symm⟩

theorem Extid.sameId.trans {a b c : Extid} (h : a.sameId b) (h' : b.sameId c) : a.sameId c := by
  rw [sameId_iff] at h h' ⊢
  exact ⟨h.1.trans h'.1,h.2.1.trans h'.2.1,h.2.2.trans h'.2.2⟩

inductive ErrorType where
  | packetAvailable | msgAccepted | msgDropped
  | errorDLC | errorSlotsOverflow | errorTreeOverflow | errorSeqIdx | errorOrphan
  deriving DecidableEq, Repr

/-- `(size_packet_max / 8) * 1.2`, cut to an integer. -/
def sizeItems : Nat := 76
def sizeTrees : Nat := 8
def maxIdx : Nat := 0xFF
def maxSeqIdx : Nat := sizeItems
def xcanCodecTimeout : Nat := 7

structure Item where
  next : Nat
  data : Vector Byte 8
  deriving DecidableEq, Repr

/-- `dlc` is the size of the last message: `> 0` when the tree is done, `0xFF` for zero length. -/
structure Tree where
  extid : Extid
  head : Nat
  dlc : Byte
  timeout : Nat
  deriving DecidableEq, Repr

/-- Items `0..sizeItems-1` exist; the operations reach them through `item` and `setItem`. -/
structure Pool where
  trees : Fin sizeTrees → Tree
  items : Nat → Item
  free : Nat

namespace Pool

/-- `items[i]`; outside the array, which the source does not check, there is no result. -/
def item (p : Pool) (i : Nat) : Option Item := if i < sizeItems then some (p.items i) else none

def setItem (p : Pool) (i : Nat) (x : Item) : Pool := {p with items := update p.items i x}

def setTree (p : Pool) (k : Fin sizeTrees) (t : Tree) : Pool := {p with trees := update p.trees k t}

def init : Pool where
  trees := fun _ => ⟨⟨0#3,0#16,0#7,0#3,0#3⟩,maxIdx,0#8,0⟩
  items := fun i => ⟨if i = sizeItems-1 then maxIdx else i+1,Vector.replicate 8 0#8⟩
  free := 0

/-- `push(const uint8_t *data)`: the first free item is taken off the free list and filled. -/
def pushItem (p : Pool) (data : Vector Byte 8) : Option Pool := do
  let i ← p.item p.free
  some {p.setItem p.free ⟨maxIdx,data⟩ with free := i.next}

/-- `remove(Tree &t)`. The loop of the source ends at the end of the chain only: a chain
longer than the array has a cycle, and there is no result. -/
def removeTree (k : Fin sizeTrees) (fuel : Nat) (p : Pool) : Option Pool :=
  let t := p.trees k
  if t.head = maxIdx then some p
  else match fuel with
    | 0 => none
    | fuel+1 => do
      let i ← p.item t.head
      let q := p.setTree k {t with head := i.next}
      removeTree k fuel {q.setItem t.head {i with next := p.free} with free := t.head}

/-- `remove(const extid_s &extid)`: the loop body. -/
def removeAt (extid : Extid) (p : Pool) (k : Fin sizeTrees) : Option Pool :=
  let t := p.trees k
  if t.head = maxIdx then some p
  else if t.dlc ≠ 0#8 then some p
  else if ¬ t.extid.sameId extid then some p
  else p.removeTree k sizeItems

def remove (p : Pool) (extid : Extid) : Option Pool :=
  (List.finRange sizeTrees).foldlM (removeAt extid) p

/-- `timeout()`: the loop body. -/
def timeoutAt (s : Pool × Bool) (k : Fin sizeTrees) : Option (Pool × Bool) :=
  let (p,rv) := s
  let t := p.trees k
  if t.head = maxIdx then some (p,rv)
  else if t.dlc ≠ 0#8 then some (p,rv)
  else if t.timeout = 0 then do
    let p ← p.removeTree k sizeItems
    some (p,true)
  else some (p.setTree k {t with timeout := t.timeout-1},rv)

def timeout (p : Pool) : Option (Pool × Bool) :=
  (List.finRange sizeTrees).foldlM timeoutAt (p,false)

def pushNew (p : Pool) (extid : Extid) (data : Vector Byte 8) (dlc : Byte) :
    Option (Pool × ErrorType) := do
  let p ← p.remove extid
  match (List.finRange sizeTrees).find? (fun k => (p.trees k).head = maxIdx) with
  | some k =>
    let t : Tree := ⟨extid,p.free,dlc,xcanCodecTimeout⟩
    let p ← (p.setTree k t).pushItem data
    if dlc ≠ 0#8 then some (p,.packetAvailable)
    else some (p.setTree k {t with extid := {extid with frm := 0#3}},.msgAccepted)
  | none =>
    let (p,_) ← p.timeout
    some (p,.errorTreeOverflow)

/-- `push_next(Tree &t, const uint8_t *data)`: the walk to the tail; `cnt` is bounded by
`max_seq_idx`. -/
def pushTail (p : Pool) (k : Fin sizeTrees) (data : Vector Byte 8) :
    Nat → Nat → Option (Pool × ErrorType)
  | 0, _ => some (p,.errorSeqIdx)
  | cnt+1, next => do
    let i ← p.item next
    if i.next = maxIdx then
      let q := p.setTree k {p.trees k with timeout := xcanCodecTimeout}
      let q ← (q.setItem next {i with next := p.free}).pushItem data
      some (q,.msgAccepted)
    else pushTail p k data cnt i.next

/-- The sequence check of `push_next`: the frame number if the message continues the tree,
or the return code. The last message carries no frame number. -/
def checkSeq (tExtid extid : Extid) (dlc : Byte) : Except ErrorType Nat :=
  if dlc = 0#8 then
    let tFrm := tExtid.frm.toNat
    let frm := extid.frm.toNat
    if frm ≠ tFrm then
      let tFrm := if tFrm > 0 then tFrm-1 else frmSeqMax
      if frm ≠ tFrm then .error .errorOrphan else .error .msgDropped
    else .ok tFrm
  else .ok 0

/-- The end of `push_next`: part received but no tree is working. -/
def orphan (p : Pool) (extid : Extid) (rv : ErrorType) : Option (Pool × ErrorType) := do
  let p ← p.remove extid
  let (p,_) ← p.timeout
  some (p,rv)

def pushNext (p : Pool) (extid : Extid) (data : Vector Byte 8) (dlc : Byte) :
    Option (Pool × ErrorType) :=
  match (List.finRange sizeTrees).find? (fun k => (p.trees k).head ≠ maxIdx ∧
      (p.trees k).dlc = 0#8 ∧ (p.trees k).extid.sameId extid) with
  | none => p.orphan extid .errorOrphan
  | some k =>
    match checkSeq (p.trees k).extid extid dlc with
    | .error .msgDropped => some (p,.msgDropped)
    | .error rv => p.orphan extid rv
    | .ok tFrm => do
      let (p,rv) ← p.pushTail k data maxSeqIdx (p.trees k).head
      if rv ≠ .msgAccepted then p.orphan extid rv
      else
        let t := p.trees k
        if dlc ≠ 0#8 then some (p.setTree k {t with dlc := dlc},.packetAvailable)
        else
          let frm := if tFrm+1 > frmSeqMax then 0 else tFrm+1
          some (p.setTree k {t with extid := {t.extid with frm := BitVec.ofNat 3 frm}},.msgAccepted)

def push (p : Pool) (extid : Extid) (data : Vector Byte 8) (dlc : Byte) :
    Option (Pool × ErrorType) :=
  if p.free = maxIdx then do
    let (p,_) ← p.timeout
    let p ← p.remove extid
    some (p,.errorSlotsOverflow)
  else if extid.frm = frmEnd then
    if dlc = 0#8 then some (p,.errorDLC)
    else do
      let (p,rv) ← p.pushNext extid data dlc
      if rv ≠ .msgAccepted then some (p,rv)
      else do
        let (p,_) ← p.timeout
        some (p,.packetAvailable)
  else if extid.frm = frmStart then
    if dlc ≠ 8#8 then some (p,.errorDLC) else p.pushNew extid data 0#8
  else if extid.frm = frmSingle then
    p.pushNew extid data (if dlc ≠ 0#8 then dlc else 0xFF#8)
  else
    if dlc ≠ 8#8 then some (p,.errorDLC) else p.pushNext extid data 0#8

/-- The walk of `space()` over the free list; there is no result when it does not end. -/
def spaceFrom (p : Pool) (fuel i : Nat) : Option Nat :=
  if i = maxIdx then some 0
  else match fuel with
    | 0 => none
    | fuel+1 => do
      let x ← p.item i
      let cnt ← p.spaceFrom fuel x.next
      some (cnt+1)

def space (p : Pool) : Option Nat := p.spaceFrom sizeItems p.free

/-- The copy loop of `read_packet(Tree &t, void *dest, size_t sz)`. -/
def copyChain (p : Pool) (dlc : Byte) : Nat → Nat → Writer → Option Writer
  | 0, _, _ => none
  | fuel+1, next, w => do
    let i ← p.item next
    if i.next ≠ maxIdx then
      if w.pos+8 > w.size then some w
      else copyChain p dlc fuel i.next (w.write i.data.toList)
    else if dlc.toNat ≤ 8 then
      if w.pos+dlc.toNat > w.size then some w
      else some (w.write (i.data.toList.take dlc.toNat))
    else some w

/-- `read_packet(Tree &t, void *dest, size_t sz)`: the pool, and `dest` with the bytes written. -/
def readTree (p : Pool) (k : Fin sizeTrees) (dest : List Byte) : Option (Pool × Writer) := do
  let t := p.trees k
  let w := (Writer.mk dest 0).writeT (bytes16 t.extid.pid)
  let w ← p.copyChain t.dlc sizeItems t.head w
  let p ← p.removeTree k sizeItems
  some (p,w)

/-- What `read_packet` returns: the count, the buffer and `*src_id`. -/
structure ReadResult where
  cnt : Nat
  dest : List Byte
  srcId : BitVec 7
  deriving DecidableEq, Repr

def readFrom (dest : List Byte) (src : BitVec 7) : List (Fin sizeTrees) → Pool →
    Option (Pool × ReadResult)
  | [], p => some (p,⟨0,dest,src⟩)
  | k :: ks, p =>
    let t := p.trees k
    if t.head = maxIdx then readFrom dest src ks p
    else if t.dlc = 0#8 then readFrom dest src ks p
    else do
      let (p,w) ← p.readTree k dest
      if w.pos > 0 then some (p,⟨w.pos,w.buf,t.extid.src⟩)
      else readFrom w.buf t.extid.src ks p

def readPacket (p : Pool) (dest : List Byte) (src : BitVec 7) : Option (Pool × ReadResult) :=
  readFrom dest src (List.finRange sizeTrees) p

end Pool

end ApxBus.Can
