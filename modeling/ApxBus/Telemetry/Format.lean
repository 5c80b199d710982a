import ApxBus.Stream
import ApxBus.Telemetry.ValueUnpack
set_option autoImplicit false

/-! Fields, headers and datasets of the stream, `xbus/telemetry/TelemetryFormat.h`. -/

namespace ApxBus.Telemetry
open Mandala

def fmtVersion : Byte := 2#8
def slotsSize : Nat := 240

/-- `xbus::pid_s`. -/
structure Pid where
  uid : BitVec 11
  pri : BitVec 3
  seq : BitVec 2
  deriving DecidableEq, Repr

def Pid.raw (p : Pid) : BitVec 16 := p.seq ++ p.pri ++ p.uid

def Pid.ofRaw (v : BitVec 16) : Pid := ⟨v.extractLsb' 0 11,v.extractLsb' 11 3,v.extractLsb' 14 2⟩

def priFinal : BitVec 3 := 0#3

/-- `field_s`. The format is a whole byte: a table from the stream may hold any. -/
structure Field where
  pid : Pid
  fmt : Byte
  deriving DecidableEq, Repr

def Field.bytes (f : Field) : List Byte := bytes16 f.pid.raw ++ [f.fmt]

def Field.ofBytes (b0 b1 b2 : Byte) : Field := ⟨Pid.ofRaw (le16 b0 b1),b2⟩

theorem Pid.raw_getLsbD (p : Pid) (i : Nat) :
    p.raw.getLsbD i =
      if i < 11 then p.uid.getLsbD i else if i < 14 then p.pri.getLsbD (i-11)
      else p.seq.getLsbD (i-14) := by
  simp only [raw,BitVec.getLsbD_append,Nat.sub_sub]
  split_ifs <;> first | rfl | omega

theorem Pid.ofRaw_raw (p : Pid) : ofRaw p.raw = p := by
  have h0 : p.raw.extractLsb' 0 11 = p.uid := by
    apply BitVec.eq_of_getLsbD_eq
    intro i hi
    simp [raw_getLsbD,hi]
  have h1 : p.raw.extractLsb' 11 3 = p.pri := by
    apply BitVec.eq_of_getLsbD_eq
    intro i hi
    have h := p.raw_getLsbD (11+i)
    rw [if_neg (by omega),if_pos (by omega),Nat.add_sub_cancel_left] at h
    simp [h,hi]
  have h2 : p.raw.extractLsb' 14 2 = p.seq := by
    apply BitVec.eq_of_getLsbD_eq
    intro i hi
    have h := p.raw_getLsbD (14+i)
    rw [if_neg (by omega),if_neg (by omega),Nat.add_sub_cancel_left] at h
    simp [h,hi]
  simp only [ofRaw,h0,h1,h2]

theorem Field.ofBytes_bytes (f : Field) :
    ofBytes (f.pid.raw.extractLsb' 0 8) (f.pid.raw.extractLsb' 8 8) f.fmt = f := by
  rw [ofBytes,le16_bytes,Pid.ofRaw_raw]

@[simp] theorem Field.bytes_length (f : Field) : f.bytes.length = 3 := rfl

/-- `hash_s`, its four bytes; `hash` is the word they form. -/
abbrev Hash := Vector Byte 4

def Hash.hash (h : Hash) : BitVec 32 := le32 h[0] h[1] h[2] h[3]

def Hash.ofWord (v : BitVec 32) : Hash :=
  #v[v.extractLsb' 0 8,v.extractLsb' 8 8,v.extractLsb' 16 8,v.extractLsb' 24 8]

@[simp] theorem Hash.hash_ofWord (v : BitVec 32) : (ofWord v).hash = v := le32_bytes v

/-- `apx::crc32` of the bytes of a field table. -/
def tableHash (table : List Byte) : BitVec 32 := crc32 table table.length (fmtVersion.setWidth 32)

def passes (f : Field) (pseq : Byte) : Prop :=
  ¬ (f.pid.seq = seqSkip ∧ pseq &&& 1#8 ≠ 0#8) ∧ ¬ (f.pid.seq = seqRare ∧ pseq &&& 3#8 ≠ 0#8)

instance (f : Field) (pseq : Byte) : Decidable (passes f pseq) :=
  inferInstanceAs (Decidable (_ ∧ _))

/-- `hdr_s`; `ts2ms` is the unit of `ts`. -/
structure Hdr where
  ts : BitVec 16
  feedHash : Byte
  deriving DecidableEq, Repr

def ts2ms : Nat := 20

def Hdr.psize : Nat := 3

def Hdr.read (s : Reader) : Hdr × Reader :=
  let (ts,s) := s.read16
  let (feedHash,s) := s.read8
  (⟨ts,feedHash⟩,s)

def Hdr.write (h : Hdr) (s : Writer) : Writer := (s.writeT (bytes16 h.ts)).writeT [h.feedHash]

def Hdr.bytes (h : Hdr) : List Byte := bytes16 h.ts ++ [h.feedHash]

theorem Hdr.write_spec {h : Hdr} {s : Writer} (hfit : s.pos+psize ≤ s.size) :
    (h.write s).out = s.out ++ h.bytes ∧ (h.write s).pos = s.pos+psize ∧
      (h.write s).size = s.size := by
  have hfit' : s.pos+3 ≤ s.size := hfit
  have h1 : s.pos+(bytes16 h.ts).length ≤ s.size := by simp; omega
  have hp1 : (s.writeT (bytes16 h.ts)).pos = s.pos+2 := Writer.pos_writeT h1
  have h2 : (s.writeT (bytes16 h.ts)).pos+[h.feedHash].length ≤ (s.writeT (bytes16 h.ts)).size := by
    rw [Writer.size_writeT,hp1]
    simp
    omega
  refine ⟨?_,?_,?_⟩
  · rw [write,Writer.out_writeT h2,Writer.out_writeT h1,List.append_assoc]
    rfl
  · rw [write,Writer.pos_writeT h2,hp1]
    rfl
  · rw [write,Writer.size_writeT,Writer.size_writeT]

theorem Hdr.read_bytes {h : Hdr} {s : Reader} {l : List Byte} (hs : s.rest = h.bytes ++ l) :
    (read s).1 = h ∧ (read s).2.rest = l := by
  rw [bytes,List.append_assoc] at hs
  obtain ⟨h1,hs⟩ := Reader.read16_append hs
  obtain ⟨h2,hs⟩ := Reader.read8_cons hs
  unfold read
  dsimp only
  refine ⟨?_,hs⟩
  rw [h1,h2]

/-- `format_resp_hdr_s`. -/
structure FormatRespHdr where
  version : Byte
  part : Byte
  pcnt : Byte
  psz : Byte
  hash : BitVec 32
  deriving DecidableEq, Repr

def FormatRespHdr.psize : Nat := 8

def FormatRespHdr.read (s : Reader) : FormatRespHdr × Reader :=
  let (version,s) := s.read8
  let (part,s) := s.read8
  let (pcnt,s) := s.read8
  let (psz,s) := s.read8
  let (hash,s) := s.read32
  (⟨version,part,pcnt,psz,hash⟩,s)

def FormatRespHdr.write (h : FormatRespHdr) (s : Writer) : Writer :=
  ((((s.writeT [h.version]).writeT [h.part]).writeT [h.pcnt]).writeT [h.psz]).writeT
    (bytes32 h.hash)

def FormatRespHdr.bytes (h : FormatRespHdr) : List Byte :=
  [h.version,h.part,h.pcnt,h.psz] ++ bytes32 h.hash

theorem FormatRespHdr.write_spec {h : FormatRespHdr} {s : Writer} (hfit : s.pos+psize ≤ s.size) :
    (h.write s).out = s.out ++ h.bytes ∧ (h.write s).pos = s.pos+psize ∧
      (h.write s).size = s.size := by
  have hfit' : s.pos+8 ≤ s.size := hfit
  have hone : ∀ (w : Writer) (b : Byte), w.size = s.size → w.pos < s.pos+4 →
      (w.writeT [b]).out = w.out ++ [b] ∧ (w.writeT [b]).pos = w.pos+1 ∧
        (w.writeT [b]).size = s.size := by
    intro w b hw hp
    have hf : w.pos+[b].length ≤ w.size := by simp; omega
    exact ⟨Writer.out_writeT hf,Writer.pos_writeT hf,by rw [Writer.size_writeT,hw]⟩
  obtain ⟨ho1,hp1,hs1⟩ := hone s h.version rfl (by omega)
  obtain ⟨ho2,hp2,hs2⟩ := hone _ h.part hs1 (by omega)
  obtain ⟨ho3,hp3,hs3⟩ := hone _ h.pcnt hs2 (by omega)
  obtain ⟨ho4,hp4,hs4⟩ := hone _ h.psz hs3 (by omega)
  unfold write
  have hf : ((((s.writeT [h.version]).writeT [h.part]).writeT [h.pcnt]).writeT [h.psz]).pos+
      (bytes32 h.hash).length ≤
      ((((s.writeT [h.version]).writeT [h.part]).writeT [h.pcnt]).writeT [h.psz]).size := by
    rw [hs4,bytes32_length]
    omega
  refine ⟨?_,?_,?_⟩
  · rw [Writer.out_writeT hf,ho4,ho3,ho2,ho1]
    simp [bytes]
  · rw [Writer.pos_writeT hf,hp4,hp3,hp2,hp1]
    rfl
  · rw [Writer.size_writeT,hs4]

theorem FormatRespHdr.read_bytes {h : FormatRespHdr} {s : Reader} {l : List Byte}
    (hs : s.rest = h.bytes ++ l) : (read s).1 = h ∧ (read s).2.rest = l := by
  simp only [bytes,List.cons_append,List.nil_append] at hs
  obtain ⟨h1,hs⟩ := Reader.read8_cons hs
  obtain ⟨h2,hs⟩ := Reader.read8_cons hs
  obtain ⟨h3,hs⟩ := Reader.read8_cons hs
  obtain ⟨h4,hs⟩ := Reader.read8_cons hs
  obtain ⟨h5,hs⟩ := Reader.read32_append hs
  unfold read
  dsimp only
  refine ⟨?_,hs⟩
  rw [h1,h2,h3,h4,h5]

def xpdrVersion : Byte := 1#8

/-- `xpdr::field_s`. -/
structure XpdrField where
  uid : BitVec 16
  fmt : Byte
  deriving DecidableEq, Repr

abbrev xpdrDatasetSize : Nat := 7

/-- What the generated dictionary provides: `mandala::fmt`, the identifiers in the transponder
dataset and that of the transponder packet. -/
structure Dictionary where
  fmt : BitVec 16 → FmtS
  lat : BitVec 16
  lon : BitVec 16
  hmsl : BitVec 16
  speed : BitVec 16
  bearing : BitVec 16
  vspeed : BitVec 16
  mode : BitVec 16
  xpdr : BitVec 16

/-- `xpdr::dataset`. -/
def xpdrDataset (dict : Dictionary) : Fin xpdrDatasetSize → XpdrField
  | 0 => ⟨dict.lat,(dict.fmt dict.lat).fmt.setWidth 8⟩
  | 1 => ⟨dict.lon,(dict.fmt dict.lon).fmt.setWidth 8⟩
  | 2 => ⟨dict.hmsl,(dict.fmt dict.hmsl).fmt.setWidth 8⟩
  | 3 => ⟨dict.speed,(dict.fmt dict.speed).fmt.setWidth 8⟩
  | 4 => ⟨dict.bearing,Fmt.s8_rad.code⟩
  | 5 => ⟨dict.vspeed,Fmt.s8.code⟩
  | 6 => ⟨dict.mode,(dict.fmt dict.mode).fmt.setWidth 8⟩

end ApxBus.Telemetry
