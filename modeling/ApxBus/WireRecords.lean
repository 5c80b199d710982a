import ApxBus.Telemetry.Format
set_option autoImplicit false

/-! The records that declare their size on the wire, with the bytes that they write and read. -/

namespace ApxBus

def Writer.Emits (f : Writer → Writer) (b : List Byte) : Prop :=
  ∀ w : Writer, w.pos+b.length ≤ w.size → f w = ⟨overwrite w.buf w.pos b,w.pos+b.length⟩

def Reader.Takes {α : Type} (f : StateM Reader α) (b : List Byte) (a : α) : Prop :=
  ∀ (r : Reader) (l : List Byte), r.rest = b ++ l → f r = (a,{r with pos := r.pos+b.length})

theorem overwrite_append {buf : List Byte} {pos : Nat} {b c : List Byte}
    (h : pos+(b ++ c).length ≤ buf.length) :
    overwrite (overwrite buf pos b) (pos+b.length) c = overwrite buf pos (b ++ c) := by
  rw [List.length_append] at h
  have hb : (buf.take pos ++ b).length = pos+b.length := by
    rw [List.length_append,List.length_take_of_le (by omega)]
  unfold overwrite
  rw [List.take_left' hb,List.drop_append,List.drop_of_length_le (by omega),hb,List.drop_drop,
    List.length_append,List.nil_append,List.append_assoc _ b c,Nat.add_sub_cancel_left,
    Nat.add_assoc]

namespace Writer

theorem emits_writeT (b : List Byte) : Emits (·.writeT b) b := fun _ h => writeT_fits h

theorem emits_write (b : List Byte) : Emits (·.write b) b := fun _ h => write_fits h

theorem Emits.comp {f g : Writer → Writer} {b c : List Byte} (hf : Emits f b) (hg : Emits g c) :
    Emits (fun w => g (f w)) (b ++ c) := by
  intro w h
  have hlen : (overwrite w.buf w.pos b).length = w.buf.length :=
    overwrite_length (by rw [List.length_append] at h; unfold size at h; omega)
  have hroom : w.pos+b.length+c.length ≤ w.size := by rw [List.length_append] at h; omega
  dsimp only
  rw [hf w (by omega),hg _ (by unfold size; rw [hlen]; exact hroom),overwrite_append h,
    List.length_append,Nat.add_assoc]

theorem Emits.writeT {f : Writer → Writer} {b : List Byte} (hf : Emits f b) (c : List Byte) :
    Emits (fun w => (f w).writeT c) (b ++ c) := hf.comp (emits_writeT c)

theorem Emits.write {f : Writer → Writer} {b : List Byte} (hf : Emits f b) (c : List Byte) :
    Emits (fun w => (f w).write c) (b ++ c) := hf.comp (emits_write c)

end Writer

namespace Reader

theorem rest_add {r : Reader} {b l : List Byte} (h : r.rest = b ++ l) :
    Reader.rest {r with pos := r.pos+b.length} = l := by
  rw [rest,← List.drop_drop,← rest,h,List.drop_left]

theorem pos_add_le {r : Reader} {b l : List Byte} (h : r.rest = b ++ l) (hb : 0 < b.length) :
    r.pos+b.length ≤ r.size := by
  have hlen := r.rest_length
  rw [h,List.length_append,available] at hlen
  omega

theorem Takes.bind {α β : Type} {f : StateM Reader α} {g : α → StateM Reader β}
    {b c : List Byte} {x : α} {y : β} (hf : Takes f b x) (hg : Takes (g x) c y) :
    Takes (f >>= g) (b ++ c) y := by
  intro r l h
  rw [List.append_assoc] at h
  change g (f r).1 (f r).2 = _
  rw [hf r _ h,hg _ l (rest_add h)]
  simp only [List.length_append,Nat.add_assoc]

theorem takes_pure {α : Type} (x : α) : Takes (pure x) [] x := fun _ _ _ => rfl

theorem Takes.map {α β : Type} {f : StateM Reader α} {b : List Byte} {x : α} (hf : Takes f b x)
    (g : α → β) : Takes (f >>= fun x => pure (g x)) b (g x) := by
  have hpure := hf.bind (g := fun x => pure (g x)) (takes_pure (g x))
  rwa [List.append_nil] at hpure

theorem readT_append {r : Reader} {b l : List Byte} (h : r.rest = b ++ l) (hb : 0 < b.length) :
    r.readT b.length = (b,{r with pos := r.pos+b.length}) := by
  have hle := pos_add_le h hb
  rw [readT,if_neg (by omega),h,List.take_left]

theorem takes_read8 (v : Byte) : Takes read8 [v] v := by
  intro r l h
  rw [read8,show 1 = [v].length from rfl,readT_append h Nat.one_pos]
  rfl

theorem takes_read16 (v : BitVec 16) : Takes read16 (bytes16 v) v := by
  intro r l h
  rw [read16,show 2 = (bytes16 v).length from rfl,readT_append h Nat.two_pos]
  simp only [bytes16,List.getD_cons_zero,List.getD_cons_succ,le16_bytes]

theorem takes_read32 (v : BitVec 32) : Takes read32 (bytes32 v) v := by
  intro r l h
  rw [read32,show 4 = (bytes32 v).length from rfl,readT_append h (Nat.succ_pos 3)]
  simp only [bytes32,List.getD_cons_zero,List.getD_cons_succ,le32_bytes]

/-- `read(void *dest, size_t sz)` into an array: what the stream does not hold any more stays as
it was. -/
def readInto {n : Nat} (dest : Vector Byte n) (r : Reader) : Vector Byte n × Reader :=
  let (b,r) := r.read n
  (Vector.ofFn fun i => b.getD i (dest.get i),r)

theorem takes_readInto {n : Nat} (dest v : Vector Byte n) : Takes (readInto dest) v.toList v := by
  intro r l h
  have hn : v.toList.length = n := Vector.length_toList
  have hlen := r.rest_length
  rw [h,List.length_append,hn] at hlen
  have hcut : ¬ n > r.available := by omega
  have htake : (v.toList ++ l).take n = v.toList := List.take_left' hn
  rw [readInto,read,if_neg hcut,h,htake,hn]
  have hv : (Vector.ofFn fun i : Fin n => v.toList.getD i (dest.get i)) = v :=
    Vector.ext fun i hi => by simp
  exact congrArg (·,_) hv

end Reader

/-- `node::ident::ident_s`; `flags` is the raw word. -/
structure NodeIdent where
  format : BitVec 32
  hash : BitVec 32
  flags : BitVec 32
  deriving DecidableEq, Repr

namespace NodeIdent

def psize : Nat := 4*2+4

def read : StateM Reader NodeIdent := do
  return ⟨← Reader.read32,← Reader.read32,← Reader.read32⟩

def write (v : NodeIdent) (s : Writer) : Writer :=
  ((s.writeT (bytes32 v.format)).writeT (bytes32 v.hash)).writeT (bytes32 v.flags)

def bytes (v : NodeIdent) : List Byte :=
  bytes32 v.format ++ bytes32 v.hash ++ bytes32 v.flags

theorem emits (v : NodeIdent) : Writer.Emits v.write v.bytes :=
  ((Writer.emits_writeT _).writeT _).writeT _

theorem takes (v : NodeIdent) : Reader.Takes read v.bytes v := by
  simp only [bytes,List.append_assoc]
  exact (Reader.takes_read32 _).bind ((Reader.takes_read32 _).bind ((Reader.takes_read32 _).map _))

end NodeIdent

/-- `node::file::info_s`; `flags` is the raw word. -/
structure FileInfo where
  size : BitVec 32
  time : BitVec 32
  hash : BitVec 32
  offset : BitVec 32
  flags : BitVec 32
  deriving DecidableEq, Repr

namespace FileInfo

def psize : Nat := 4+4+4+4+4

def read : StateM Reader FileInfo := do
  return ⟨← Reader.read32,← Reader.read32,← Reader.read32,← Reader.read32,← Reader.read32⟩

def write (v : FileInfo) (s : Writer) : Writer :=
  ((((s.writeT (bytes32 v.size)).writeT (bytes32 v.time)).writeT (bytes32 v.hash)).writeT
    (bytes32 v.offset)).writeT (bytes32 v.flags)

def bytes (v : FileInfo) : List Byte :=
  bytes32 v.size ++ bytes32 v.time ++ bytes32 v.hash ++ bytes32 v.offset ++ bytes32 v.flags

theorem emits (v : FileInfo) : Writer.Emits v.write v.bytes :=
  ((((Writer.emits_writeT _).writeT _).writeT _).writeT _).writeT _

theorem takes (v : FileInfo) : Reader.Takes read v.bytes v := by
  simp only [bytes,List.append_assoc]
  exact (Reader.takes_read32 _).bind ((Reader.takes_read32 _).bind ((Reader.takes_read32 _).bind
      ((Reader.takes_read32 _).bind ((Reader.takes_read32 _).map _))))

end FileInfo

/-- `node::status::status_s`. -/
structure NodeStatus where
  errCan : Byte
  errUart : Byte
  errHw : Byte
  errRsv : Vector Byte 5
  cntRx : Byte
  cntTx : Byte
  cntRsv : Vector Byte 6
  deriving DecidableEq, Repr

namespace NodeStatus

def psize : Nat := 1*4

def read (old : NodeStatus) : StateM Reader NodeStatus := do
  return ⟨← Reader.read8,← Reader.read8,← Reader.read8,← Reader.readInto old.errRsv,
    ← Reader.read8,← Reader.read8,← Reader.readInto old.cntRsv⟩

def write (v : NodeStatus) (s : Writer) : Writer :=
  ((((((s.writeT [v.errCan]).writeT [v.errUart]).writeT [v.errHw]).write v.errRsv.toList).writeT
    [v.cntRx]).writeT [v.cntTx]).write v.cntRsv.toList

def bytes (v : NodeStatus) : List Byte :=
  [v.errCan] ++ [v.errUart] ++ [v.errHw] ++ v.errRsv.toList ++ [v.cntRx] ++ [v.cntTx] ++
    v.cntRsv.toList

theorem bytes_length (v : NodeStatus) : v.bytes.length = 16 := by simp [bytes]

theorem emits (v : NodeStatus) : Writer.Emits v.write v.bytes :=
  ((((((Writer.emits_writeT _).writeT _).writeT _).write _).writeT _).writeT _).write _

theorem takes (old v : NodeStatus) : Reader.Takes (read old) v.bytes v := by
  simp only [bytes,List.append_assoc]
  exact (Reader.takes_read8 _).bind ((Reader.takes_read8 _).bind ((Reader.takes_read8 _).bind
      ((Reader.takes_readInto _ _).bind ((Reader.takes_read8 _).bind ((Reader.takes_read8 _).bind
        ((Reader.takes_readInto _ _).map _))))))

end NodeStatus

/-- `node::blackbox::Header`; `evtcnt` is the memory of three 32-bit words. -/
structure BlackboxHeader where
  magic : BitVec 32
  uptime : BitVec 32
  oncnt : BitVec 32
  evtcnt : Vector Byte 12
  recSize : BitVec 32
  blockSize : BitVec 32
  padding : Vector Byte 4
  crc : BitVec 32
  deriving DecidableEq, Repr

namespace BlackboxHeader

def psize : Nat := 4*6+12+4

def read (old : BlackboxHeader) : StateM Reader BlackboxHeader := do
  return ⟨← Reader.read32,← Reader.read32,← Reader.read32,← Reader.readInto old.evtcnt,
    ← Reader.read32,← Reader.read32,← Reader.readInto old.padding,← Reader.read32⟩

def write (v : BlackboxHeader) (s : Writer) : Writer :=
  (((((((s.writeT (bytes32 v.magic)).writeT (bytes32 v.uptime)).writeT (bytes32 v.oncnt)).write
    v.evtcnt.toList).writeT (bytes32 v.recSize)).writeT (bytes32 v.blockSize)).write
    v.padding.toList).writeT (bytes32 v.crc)

def bytes (v : BlackboxHeader) : List Byte :=
  bytes32 v.magic ++ bytes32 v.uptime ++ bytes32 v.oncnt ++ v.evtcnt.toList ++
    bytes32 v.recSize ++ bytes32 v.blockSize ++ v.padding.toList ++ bytes32 v.crc

theorem bytes_length (v : BlackboxHeader) : v.bytes.length = 40 := by simp [bytes]

theorem emits (v : BlackboxHeader) : Writer.Emits v.write v.bytes :=
  (((((((Writer.emits_writeT _).writeT _).writeT _).write _).writeT _).writeT _).write _).writeT _

theorem takes (old v : BlackboxHeader) : Reader.Takes (read old) v.bytes v := by
  simp only [bytes,List.append_assoc]
  exact (Reader.takes_read32 _).bind ((Reader.takes_read32 _).bind ((Reader.takes_read32 _).bind
      ((Reader.takes_readInto _ _).bind ((Reader.takes_read32 _).bind ((Reader.takes_read32 _).bind
        ((Reader.takes_readInto _ _).bind ((Reader.takes_read32 _).map _)))))))

end BlackboxHeader

/-- `script::file_hdr_s`. -/
structure ScriptFileHdr where
  codeSize : BitVec 32
  srcSize : BitVec 32
  title : Vector Byte 64
  deriving DecidableEq, Repr

namespace ScriptFileHdr

def psize : Nat := 4*2+64

def read (old : ScriptFileHdr) : StateM Reader ScriptFileHdr := do
  return ⟨← Reader.read32,← Reader.read32,← Reader.readInto old.title⟩

def write (v : ScriptFileHdr) (s : Writer) : Writer :=
  ((s.writeT (bytes32 v.codeSize)).writeT (bytes32 v.srcSize)).write v.title.toList

def bytes (v : ScriptFileHdr) : List Byte :=
  bytes32 v.codeSize ++ bytes32 v.srcSize ++ v.title.toList

theorem bytes_length (v : ScriptFileHdr) : v.bytes.length = 72 := by simp [bytes]

theorem emits (v : ScriptFileHdr) : Writer.Emits v.write v.bytes :=
  ((Writer.emits_writeT _).writeT _).write _

theorem takes (old v : ScriptFileHdr) : Reader.Takes (read old) v.bytes v := by
  simp only [bytes,List.append_assoc]
  exact (Reader.takes_read32 _).bind ((Reader.takes_read32 _).bind
    ((Reader.takes_readInto _ _).map _))

end ScriptFileHdr

/-- `unit::ident_s`; `flags` is the raw word. -/
structure UnitIdent where
  flags : BitVec 32
  deriving DecidableEq, Repr

namespace UnitIdent

def psize : Nat := 4

def read : StateM Reader UnitIdent := do return ⟨← Reader.read32⟩

def write (v : UnitIdent) (s : Writer) : Writer := s.writeT (bytes32 v.flags)

end UnitIdent

/-- `mandala::spec_s`, its raw byte. -/
structure Spec where
  raw : Byte
  deriving DecidableEq, Repr

namespace Spec

def psize : Nat := 1

def read : StateM Reader Spec := do return ⟨← Reader.read8⟩

def write (v : Spec) (s : Writer) : Writer := s.writeT [v.raw]

end Spec

namespace Telemetry

/-- `format_req_s`. -/
structure FormatReq where
  version : Byte
  part : Byte
  deriving DecidableEq, Repr

namespace FormatReq

def psize : Nat := 2

def read : StateM Reader FormatReq := do return ⟨← Reader.read8,← Reader.read8⟩

def write (v : FormatReq) (s : Writer) : Writer := (s.writeT [v.version]).writeT [v.part]

end FormatReq

def Pid.psize : Nat := 2

def Pid.read : StateM Reader Pid := do return ofRaw (← Reader.read16)

def Pid.write (v : Pid) (s : Writer) : Writer := s.writeT (bytes16 v.raw)

theorem Hdr.takes (v : Hdr) : Reader.Takes read v.bytes v := by
  change Reader.Takes (do return ⟨← Reader.read16,← Reader.read8⟩) _ v
  exact (Reader.takes_read16 _).bind ((Reader.takes_read8 _).map _)

theorem FormatRespHdr.emits (v : FormatRespHdr) : Writer.Emits v.write v.bytes := by
  exact ((((Writer.emits_writeT [v.version]).writeT [v.part]).writeT [v.pcnt]).writeT
    [v.psz]).writeT (bytes32 v.hash)

theorem FormatRespHdr.takes (v : FormatRespHdr) : Reader.Takes read v.bytes v := by
  change Reader.Takes (do return ⟨← Reader.read8,← Reader.read8,← Reader.read8,← Reader.read8,
    ← Reader.read32⟩) ([v.version] ++ ([v.part] ++ ([v.pcnt] ++ ([v.psz] ++ bytes32 v.hash)))) v
  exact (Reader.takes_read8 _).bind ((Reader.takes_read8 _).bind ((Reader.takes_read8 _).bind
    ((Reader.takes_read8 _).bind ((Reader.takes_read32 _).map _))))

theorem Pid.takes (v : Pid) : Reader.Takes read (bytes16 v.raw) v := by
  have h := (Reader.takes_read16 v.raw).map ofRaw
  rwa [ofRaw_raw] at h

end Telemetry

open Telemetry

/-- The records with `psize`, `read` and `write`. -/
inductive RecordType where
  | hdr | formatReq | formatRespHdr | nodeIdent | fileInfo | nodeStatus | blackboxHeader
  | scriptFileHdr | unitIdent | pid | spec
  deriving DecidableEq, Repr

namespace RecordType

def Carrier : RecordType → Type
  | .hdr => Hdr
  | .formatReq => FormatReq
  | .formatRespHdr => FormatRespHdr
  | .nodeIdent => NodeIdent
  | .fileInfo => FileInfo
  | .nodeStatus => NodeStatus
  | .blackboxHeader => BlackboxHeader
  | .scriptFileHdr => ScriptFileHdr
  | .unitIdent => UnitIdent
  | .pid => Pid
  | .spec => Spec

def psize : RecordType → Nat
  | .hdr => Hdr.psize
  | .formatReq => FormatReq.psize
  | .formatRespHdr => FormatRespHdr.psize
  | .nodeIdent => NodeIdent.psize
  | .fileInfo => FileInfo.psize
  | .nodeStatus => NodeStatus.psize
  | .blackboxHeader => BlackboxHeader.psize
  | .scriptFileHdr => ScriptFileHdr.psize
  | .unitIdent => UnitIdent.psize
  | .pid => Pid.psize
  | .spec => Spec.psize

/-- The record is read into one that is there already. -/
def read : (t : RecordType) → t.Carrier → StateM Reader t.Carrier
  | .hdr, _ => Hdr.read
  | .formatReq, _ => FormatReq.read
  | .formatRespHdr, _ => FormatRespHdr.read
  | .nodeIdent, _ => NodeIdent.read
  | .fileInfo, _ => FileInfo.read
  | .nodeStatus, old => NodeStatus.read old
  | .blackboxHeader, old => BlackboxHeader.read old
  | .scriptFileHdr, old => ScriptFileHdr.read old
  | .unitIdent, _ => UnitIdent.read
  | .pid, _ => Pid.read
  | .spec, _ => Spec.read

def write : (t : RecordType) → t.Carrier → Writer → Writer
  | .hdr => Hdr.write
  | .formatReq => FormatReq.write
  | .formatRespHdr => FormatRespHdr.write
  | .nodeIdent => NodeIdent.write
  | .fileInfo => FileInfo.write
  | .nodeStatus => NodeStatus.write
  | .blackboxHeader => BlackboxHeader.write
  | .scriptFileHdr => ScriptFileHdr.write
  | .unitIdent => UnitIdent.write
  | .pid => Pid.write
  | .spec => Spec.write

/-- In any writer with `psize` free bytes the value becomes `psize` bytes, from which any reader
takes it back. -/
def Consistent (t : RecordType) (v : t.Carrier) : Prop :=
  ∀ w : Writer, w.pos+t.psize ≤ w.size → ∃ b : List Byte, b.length = t.psize ∧
    t.write v w = ⟨overwrite w.buf w.pos b,w.pos+t.psize⟩ ∧
    ∀ (old : t.Carrier) (r : Reader) (l : List Byte), r.rest = b ++ l →
      t.read old r = (v,{r with pos := r.pos+t.psize})

theorem consistent_of {t : RecordType} {v : t.Carrier} {b : List Byte} (hb : b.length = t.psize)
    (hw : Writer.Emits (t.write v) b) (hr : ∀ old, Reader.Takes (t.read old) b v) :
    t.Consistent v := by
  intro w h
  refine ⟨b,hb,?_,fun old r l hl => ?_⟩
  · rw [hw w (by rw [hb]; exact h),hb]
  · rw [hr old r l hl,hb]

theorem nodeStatus_not_consistent (v : NodeStatus) : ¬ RecordType.nodeStatus.Consistent v := by
  intro h
  obtain ⟨b,-,hw,-⟩ := h ⟨List.replicate 16 0#8,0⟩ (by decide)
  have hv := v.emits ⟨List.replicate 16 0#8,0⟩ (by rw [v.bytes_length]; decide)
  rw [v.bytes_length] at hv
  have hpos : 0+16 = 0+4 := congrArg Writer.pos (hv.symm.trans hw)
  exact absurd hpos (by decide)

theorem consistent_of_ne (t : RecordType) (v : t.Carrier) (h : t ≠ .nodeStatus) :
    t.Consistent v := by
  cases t with
  | hdr => exact consistent_of rfl ((Writer.emits_writeT _).writeT _) fun _ => Hdr.takes v
  | formatReq =>
    exact consistent_of rfl ((Writer.emits_writeT _).writeT _) fun _ =>
      (Reader.takes_read8 _).bind ((Reader.takes_read8 _).map _)
  | formatRespHdr =>
    exact consistent_of rfl (FormatRespHdr.emits v) fun _ => FormatRespHdr.takes v
  | nodeIdent => exact consistent_of rfl (NodeIdent.emits v) fun _ => NodeIdent.takes v
  | fileInfo => exact consistent_of rfl (FileInfo.emits v) fun _ => FileInfo.takes v
  | nodeStatus => exact absurd rfl h
  | blackboxHeader =>
    exact consistent_of (BlackboxHeader.bytes_length v) (BlackboxHeader.emits v) fun old =>
      BlackboxHeader.takes old v
  | scriptFileHdr =>
    exact consistent_of (ScriptFileHdr.bytes_length v) (ScriptFileHdr.emits v) fun old =>
      ScriptFileHdr.takes old v
  | unitIdent =>
    exact consistent_of rfl (Writer.emits_writeT _) fun _ => (Reader.takes_read32 _).map _
  | pid => exact consistent_of rfl (Writer.emits_writeT _) fun _ => Pid.takes v
  | spec => exact consistent_of rfl (Writer.emits_writeT _) fun _ => (Reader.takes_read8 _).map _

theorem consistent_iff (t : RecordType) (v : t.Carrier) : t.Consistent v ↔ t ≠ .nodeStatus := by
  constructor
  · rintro h rfl
    exact nodeStatus_not_consistent v h
  · exact consistent_of_ne t v

/-- Sixteen bytes are written where four are declared. -/
theorem nodeStatus_longer :
    let v : NodeStatus := ⟨1#8,2#8,3#8,.replicate 5 0#8,4#8,5#8,.replicate 6 0#8⟩
    RecordType.nodeStatus.psize = 4 ∧ (NodeStatus.write v ⟨List.replicate 16 0#8,0⟩).pos = 16 ∧
      ¬ RecordType.nodeStatus.Consistent v := by
  intro v
  exact ⟨rfl,by decide,nodeStatus_not_consistent v⟩

end RecordType

end ApxBus
