import ApxBus.Can.Codec
import ApxBus.Can.PoolInvariant
set_option autoImplicit false

/-! Packets arrive: what is sent as messages over a shared bus is read back exactly once. -/

namespace ApxBus.Can
open Function

theorem putBytes_toList (v : Vector Byte 8) (pos : Nat) (src : List Byte)
    (h : pos+src.length ≤ 8) :
    (putBytes v pos src).toList = v.toList.take pos ++ src ++ v.toList.drop (pos+src.length) := by
  apply List.ext_getElem
  · simp; omega
  · intro i h1 h2
    have hi : i < 8 := by simpa using h1
    simp only [putBytes,Vector.getElem_toList,Vector.getElem_ofFn]
    by_cases hp : pos ≤ i
    · rw [if_pos hp]
      by_cases hs : i-pos < src.length
      · rw [List.getElem_append_left (by simp; omega),List.getElem_append_right (by simp; omega)]
        simp [List.getD_eq_getElem?_getD,hs,Nat.min_eq_left (show pos ≤ 8 by omega)]
      · rw [List.getElem_append_right (by simp; omega)]
        have hx : pos+src.length+(i-(pos+src.length)) = i := by omega
        simp [List.getD_eq_getElem?_getD,Nat.not_lt.mp hs,Nat.min_eq_left (show pos ≤ 8 by omega),
          hx]
    · rw [if_neg hp,List.getElem_append_left (by simp; omega),
        List.getElem_append_left (by simp; omega)]
      simp

theorem putBytes_take (v : Vector Byte 8) (pos : Nat) (src : List Byte) {n : Nat}
    (hn : n = pos+src.length) (h : n ≤ 8) :
    (putBytes v pos src).toList.take n = v.toList.take pos ++ src := by
  subst hn
  rw [putBytes_toList v pos src h,List.take_left' (by simp; omega)]

def nextFrm (frm : BitVec 3) : BitVec 3 :=
  if frm = frmStart ∨ frm.toNat ≥ frmSeqMax then 0#3 else frm+1#3

/-- `msgs` carries `todo` in bodies of eight bytes, numbered from `frm` on, and a last one. -/
inductive Frames (extid : Extid) : BitVec 3 → List Byte → List XcanMsg → Prop where
  | last {frm : BitVec 3} {todo : List Byte} {m : XcanMsg} (h0 : 0 < todo.length)
      (h8 : todo.length ≤ 8) (hid : m.id = {extid with frm := frmEnd}.raw)
      (hdlc : m.dlc.toNat = todo.length) (hdata : m.data.toList.take todo.length = todo) :
      Frames extid frm todo [m]
  | more {frm : BitVec 3} {todo : List Byte} {m : XcanMsg} {ms : List XcanMsg}
      (h8 : 8 < todo.length) (hid : m.id = {extid with frm := frm}.raw) (hdlc : m.dlc = 8#4)
      (hdata : m.data.toList = todo.take 8)
      (h : Frames extid (nextFrm frm) (todo.drop 8) ms) : Frames extid frm todo (m :: ms)

theorem Frames.ne_nil {extid : Extid} {frm : BitVec 3} {todo : List Byte} {msgs : List XcanMsg}
    (h : Frames extid frm todo msgs) : msgs ≠ [] := by
  rintro rfl
  cases h

/-- The loop of `send_packet` sends the payload followed by the checksum. Once the payload is
used up, one checksum byte can be left over. -/
theorem sendFrames_frames (extid : Extid) (crc16 : BitVec 16) (fuel cnt : Nat)
    (src todo : List Byte) (frm : BitVec 3) (tx : XcanMsg) (n : Nat) (hf : cnt ≤ fuel)
    (hcnt : cnt = src.length+2 ∧ todo = src ++ bytes16 crc16 ∨
      cnt = 1 ∧ todo = [crc16.extractLsb' 8 8]) :
    Frames extid frm todo (sendFrames extid crc16 (fun _ => true) fuel cnt src frm tx n).2.1 := by
  induction fuel generalizing cnt src todo frm tx n with
  | zero => rcases hcnt with ⟨h,-⟩ | ⟨h,-⟩ <;> omega
  | succ fuel ih =>
    have hpos : cnt ≠ 0 := by rcases hcnt with ⟨h,-⟩ | ⟨h,-⟩ <;> omega
    have hlen : todo.length = cnt := by
      rcases hcnt with ⟨h,rfl⟩ | ⟨h,rfl⟩ <;> simp [h]
    rw [sendFrames]
    simp only [hpos,if_false,if_true]
    by_cases h8 : cnt > 8
    · obtain ⟨hc,rfl⟩ : cnt = src.length+2 ∧ todo = src ++ bytes16 crc16 := by
        rcases hcnt with h | ⟨h,-⟩
        · exact h
        · omega
      simp only [h8,if_true]
      refine Frames.more (by omega) rfl (by rfl) ?_ ?_
      · rw [← List.take_of_length_le (l := Vector.toList _) (Vector.length_toList.le)]
        by_cases h9 : cnt = 9
        · have hs7 : src.take 7 = src := List.take_of_length_le (by omega)
          have hl : src.length = 7 := by omega
          rw [if_pos h9,putBytes_take _ 7 _ (by simp) (by simp),hs7,
            putBytes_take _ 0 _ (by omega) (by omega)]
          simp [hl,List.take_append,bytes16]
        · have hs8 : 8 ≤ src.length := by omega
          rw [if_neg h9,putBytes_take _ 0 _ (by simp; omega) (by omega)]
          simp [List.take_append_of_le_length hs8]
      · refine ih (cnt-8) _ _ _ _ _ (by omega) ?_
        by_cases h9 : cnt = 9
        · right
          have hs7 : src.length = 7 := by omega
          simp [h9,hs7,List.drop_append,bytes16]
        · left
          have hs8 : 8 ≤ src.length := by omega
          simp [List.drop_append_of_le_length hs8]
          omega
    · simp only [h8,if_false]
      have hrest : ∀ tx' k, sendFrames extid crc16 (fun _ => true) fuel (cnt-cnt)
          (src.drop cnt) frm tx' k = (true,[],tx') := by
        intro tx' k
        cases fuel <;> simp [sendFrames]
      rw [hrest]
      refine Frames.last (by omega) (by omega) rfl ?_ ?_
      · rw [hlen,BitVec.toNat_ofNat]
        omega
      · rw [hlen]
        rcases hcnt with ⟨hc,rfl⟩ | ⟨hc,rfl⟩
        · have hs : src.take (cnt-2) = src := List.take_of_length_le (by omega)
          by_cases h2 : cnt > 2
          · rw [if_pos h2,putBytes_take _ (cnt-1) _ (by simp; omega) (by omega),
              putBytes_take _ (cnt-2) _ (by simp; omega) (by omega),hs,
              putBytes_take _ 0 _ (by omega) (by omega)]
            simp [bytes16]
          · have hc2 : cnt = 2 := by omega
            have hnil : src = [] := List.length_eq_zero_iff.mp (by omega)
            rw [if_neg h2,if_pos hc2,putBytes_take _ 1 _ (by simp; omega) (by omega),
              putBytes_take _ 0 _ (by simp) (by omega)]
            simp [hnil,bytes16]
        · rw [if_neg (by omega),if_neg (by omega),putBytes_take _ 0 _ (by simp; omega) (by omega)]
          simp

/-- A packet of some sender; `txmsg` is what its codec's buffer happens to hold. -/
structure Sending where
  defaults : Extid
  txmsg : XcanMsg
  data : List Byte
  size : 2 ≤ data.length

namespace Sending
variable (x : Sending)

/-- The messages into which `send_packet` cuts the packet. -/
def msgs : List XcanMsg := (sendPacket x.defaults x.txmsg (fun _ => true) x.data).2.1

def pid : BitVec 16 := le16 (x.data.getD 0 0#8) (x.data.getD 1 0#8)

def extid : Extid := {x.defaults with pid := x.pid}

def crc16 : BitVec 16 := (crc32 x.data x.data.length crcInit).setWidth 16

def body : List Byte := x.data.drop 2 ++ bytes16 x.crc16

/-- The packet as the receiver gets it: where it came from, and its bytes. -/
def received : BitVec 7 × List Byte := (x.defaults.src,x.data)

theorem bytes16_pid : bytes16 x.pid ++ x.data.drop 2 = x.data := by
  have h := x.size
  match hd : x.data with
  | [] => simp [hd] at h
  | [b] => simp [hd] at h
  | b0 :: b1 :: l => simp [pid,hd,bytes16_le16]

theorem read16_pid : (Reader.mk x.data 0).read16 = (x.pid,⟨x.data,2⟩) := by
  have h := x.size
  match hd : x.data with
  | [] => simp [hd] at h
  | [b] => simp [hd] at h
  | b0 :: b1 :: l =>
    have hn : ¬ l.length+1+1 < 2 := by omega
    simp [Reader.read16,Reader.readT,Reader.size,Reader.rest,pid,hd,hn]

theorem msgs_single (h : x.data.length ≤ 10) :
    ∃ m, x.msgs = [m] ∧ m.id = {x.extid with frm := frmSingle}.raw ∧
      m.dlc.toNat = x.data.length-2 ∧
      m.data.toList.take (x.data.length-2) = x.data.drop 2 := by
  have h2 := x.size
  have hc : (Reader.mk x.data 2).available = x.data.length-2 := rfl
  have hr : (Reader.mk x.data 2).rest.take (x.data.length-2) = x.data.drop 2 := by
    simp [Reader.rest]
  have hm : x.msgs = [{x.txmsg with
      ext := true
      id := {x.extid with frm := frmSingle}.raw
      dlc := BitVec.ofNat 4 (x.data.length-2)
      data := if x.data.length-2 > 0 then putBytes x.txmsg.data 0 (x.data.drop 2)
        else x.txmsg.data}] := by
    simp only [msgs,sendPacket,if_neg (show ¬ x.data.length < 2 by omega),x.read16_pid,hc,hr,
      if_pos (show x.data.length-2 ≤ 8 by omega)]
    rfl
  refine ⟨_,hm,rfl,?_,?_⟩
  · simp only [BitVec.toNat_ofNat]
    omega
  · dsimp only
    split_ifs with h0
    · rw [putBytes_take _ 0 _ (by simp) (by omega)]
      simp
    · have hl : x.data.drop 2 = [] := List.length_eq_zero_iff.mp (by simp; omega)
      rw [show x.data.length-2 = 0 by omega,hl]
      rfl

theorem msgs_frames (h : 10 < x.data.length) : Frames x.extid frmStart x.body x.msgs := by
  have hc : (Reader.mk x.data 2).available = x.data.length-2 := rfl
  simp only [msgs,sendPacket,if_neg (show ¬ x.data.length < 2 by omega),x.read16_pid,hc,
    if_neg (show ¬ x.data.length-2 ≤ 8 by omega)]
  exact sendFrames_frames x.extid x.crc16 _ _ (x.data.drop 2) x.body frmStart _ 0 (Nat.le_refl _)
    (Or.inl ⟨by simp,rfl⟩)

end Sending

/-- The bytes of the chunks, the last one cut to `dlc`. -/
def Assembly.cut (dlc : Byte) : List (Vector Byte 8) → List Byte
  | [] => []
  | [c] => if dlc.toNat ≤ 8 then c.toList.take dlc.toNat else []
  | c :: cs => c.toList ++ cut dlc cs

theorem Assembly.cut_append (dlc : Byte) (cs : List (Vector Byte 8)) (c : Vector Byte 8) :
    cut dlc (cs ++ [c]) = cs.flatMap Vector.toList ++ cut dlc [c] := by
  induction cs with
  | nil => rfl
  | cons c' cs ih =>
    cases cs with
    | nil => simp [cut]
    | cons c'' cs =>
      simp only [List.cons_append,cut,List.flatMap_cons,List.append_assoc] at ih ⊢
      rw [ih]

def Assembly.bytes (s : Assembly) : List Byte := bytes16 s.extid.pid ++ cut s.dlc s.chunks

theorem Assembly.copy_out (dlc : Byte) (cs : List (Vector Byte 8)) (w : Writer)
    (h : w.pos+(cut dlc cs).length ≤ w.size) :
    (copy dlc cs w).out = w.out ++ cut dlc cs ∧
      (copy dlc cs w).pos = w.pos+(cut dlc cs).length ∧ (copy dlc cs w).size = w.size := by
  induction cs generalizing w with
  | nil => simp [copy,cut]
  | cons c cs ih =>
    cases cs with
    | nil =>
      unfold cut at h ⊢
      unfold copy
      split_ifs at h ⊢ with h8 hs
      · rw [List.length_take,Vector.length_toList] at h
        omega
      · have hf : w.pos+(c.toList.take dlc.toNat).length ≤ w.size := by simp; omega
        exact ⟨Writer.out_write hf,by rw [Writer.write_fits hf],
          Writer.size_write _ _ (by omega)⟩
      · simp
    | cons c' cs =>
      simp only [cut,List.length_append,Vector.length_toList] at h
      have hf : w.pos+c.toList.length ≤ w.size := by simp; omega
      have hw := Writer.write_fits hf
      obtain ⟨h1,h2,h3⟩ := ih (w.write c.toList) (by
        rw [Writer.size_write _ _ (by omega),hw]
        simp only [Vector.length_toList]
        omega)
      have hs : ¬ w.pos+8 > w.size := by omega
      simp only [copy,hs,if_false,cut]
      refine ⟨by rw [h1,Writer.out_write hf,List.append_assoc],?_,
        by rw [h3,Writer.size_write _ _ (by omega)]⟩
      rw [h2,hw]
      simp [Nat.add_assoc]

theorem Assembly.bytes_length (s : Assembly) : s.bytes.length = 2+(cut s.dlc s.chunks).length := by
  simp [bytes]

theorem Assembly.cut_length_le (dlc : Byte) (cs : List (Vector Byte 8)) :
    (cut dlc cs).length ≤ 8*cs.length := by
  induction cs with
  | nil => exact Nat.zero_le _
  | cons c cs ih =>
    cases cs with
    | nil =>
      unfold cut
      split_ifs
      · exact (List.length_take_le' _ _).trans c.length_toList.le
      · exact Nat.zero_le _
    | cons c' cs =>
      simp only [cut,List.length_append,Vector.length_toList,List.length_cons] at ih ⊢
      omega

theorem Assembly.bytes_length_le (s : Assembly) : s.bytes.length ≤ 2+8*s.chunks.length := by
  rw [bytes_length]
  exact Nat.add_le_add_left (cut_length_le _ _) 2

theorem Assembly.read_out (s : Assembly) (dest : List Byte) (h : s.bytes.length ≤ dest.length) :
    (s.read dest).buf.take s.bytes.length = s.bytes ∧ (s.read dest).pos = s.bytes.length ∧
      (s.read dest).buf.length = dest.length := by
  rw [bytes_length] at h
  have hf : (Writer.mk dest 0).pos+(bytes16 s.extid.pid).length ≤ (Writer.mk dest 0).size := by
    simp only [Writer.size,bytes16_length]
    omega
  have hw := Writer.writeT_fits hf
  obtain ⟨h1,h2,h3⟩ := Assembly.copy_out s.dlc s.chunks
    ((Writer.mk dest 0).writeT (bytes16 s.extid.pid)) (by
      rw [Writer.size_writeT,hw]
      simpa [Writer.size] using h)
  have hpos : (s.read dest).pos = s.bytes.length := by
    rw [read,h2,hw]
    simp [bytes]
  refine ⟨?_,hpos,h3.trans (Writer.size_writeT _ _)⟩
  rw [← hpos]
  change (s.read dest).out = s.bytes
  rw [read,h1,Writer.out_writeT hf]
  rfl

def Assembly.packet (s : Assembly) : BitVec 7 × List Byte :=
  (s.extid.src,if s.bytes.length ≤ 10 then s.bytes else s.bytes.take (s.bytes.length-2))

def Assembly.Intact (s : Assembly) : Prop :=
  10 < s.bytes.length → Codec.checkCrc s.bytes s.bytes.length = s.bytes.length-2

/-- `s` holds the beginning of `x`, and `rest` are the messages still to come. -/
structure Sending.Waiting (x : Sending) (s : Assembly) (rest : List XcanMsg) : Prop where
  long : 10 < x.data.length
  dlc : s.dlc = 0#8
  extid : s.extid = {x.extid with frm := s.extid.frm}
  frm : s.extid.frm.toNat ≤ frmSeqMax
  frames : ∃ todo, x.body = s.chunks.flatMap Vector.toList ++ todo ∧
    Frames x.extid s.extid.frm todo rest

namespace Sending
variable (x : Sending)

/-- `s` holds all of `x`. -/
structure Complete (s : Assembly) : Prop where
  dlc : s.dlc ≠ 0#8
  packet : s.packet = x.received
  intact : s.Intact

theorem complete_single {s : Assembly} {m : XcanMsg} (h : x.data.length ≤ 10)
    (hdlc : m.dlc.toNat = x.data.length-2)
    (hdata : m.data.toList.take (x.data.length-2) = x.data.drop 2)
    (hid : s.extid = {x.extid with frm := frmSingle}) (hc : s.chunks = [m.data])
    (hs : s.dlc = if m.dlc.setWidth 8 ≠ 0#8 then m.dlc.setWidth 8 else 0xFF#8) :
    x.Complete s := by
  have h2 := x.size
  have hw : (m.dlc.setWidth 8 : Byte).toNat = x.data.length-2 := by
    rw [BitVec.toNat_setWidth,hdlc]; omega
  have hcut : Assembly.cut s.dlc s.chunks = x.data.drop 2 := by
    rw [hc,Assembly.cut,hs]
    by_cases h0 : x.data.length-2 = 0
    · have hz : (m.dlc.setWidth 8 : Byte) = 0#8 := by
        apply BitVec.eq_of_toNat_eq
        rw [hw,h0]; rfl
      have hl : x.data.drop 2 = [] := List.length_eq_zero_iff.mp (by simp; omega)
      rw [hz,hl]
      rfl
    · have hz : (m.dlc.setWidth 8 : Byte) ≠ 0#8 := by
        intro hz
        rw [hz] at hw
        exact h0 hw.symm
      rw [if_pos hz,hw,if_pos (by omega),hdata]
  have hb : s.bytes = x.data := by
    rw [Assembly.bytes,hcut,hid]
    exact x.bytes16_pid
  refine ⟨?_,?_,?_⟩
  · rw [hs]
    split_ifs with h0
    · exact h0
    · decide
  · rw [Assembly.packet,hb,if_pos h,hid]
    rfl
  · intro hlt
    rw [hb] at hlt
    omega

theorem complete_body {s : Assembly} (h : 10 < x.data.length) (hd : s.dlc ≠ 0#8)
    (hid : s.extid = {x.extid with frm := s.extid.frm})
    (hcut : Assembly.cut s.dlc s.chunks = x.body) : x.Complete s := by
  have hb : s.bytes = x.data ++ bytes16 x.crc16 := by
    rw [Assembly.bytes,hcut,hid,body,← List.append_assoc]
    exact congrArg (· ++ _) x.bytes16_pid
  have hl : s.bytes.length = x.data.length+2 := by simp [hb]
  refine ⟨hd,?_,fun _ => ?_⟩
  · rw [Assembly.packet,if_neg (by omega),hl,hb,hid]
    simp [received,extid]
  · have hcrc : (crc32 s.bytes x.data.length crcInit).setWidth 16 = x.crc16 := by
      rw [hb,crc32_append,crc16]
    have h0 : s.bytes.getD x.data.length 0#8 = x.crc16.extractLsb' 0 8 := by
      simp [hb,bytes16]
    have h1 : s.bytes.getD (x.data.length+1) 0#8 = x.crc16.extractLsb' 8 8 := by
      simp [hb,bytes16]
    simp only [Codec.checkCrc,hl,Nat.add_sub_cancel,hcrc,h0,h1,le16_bytes]
    simp

end Sending

namespace Assemblies
variable {a : Assemblies} {extid : Extid} {data : Vector Byte 8} {dlc : Byte}

theorem remove_eq (h : ∀ k s, a k = some s → ¬ s.Awaits extid) : a.remove extid = a := by
  funext k
  cases hs : a k with
  | none => simp [remove,discard,hs]
  | some s => simp [remove,discard,hs,h k s hs]

theorem pushNew_starts (h : ∀ k s, a k = some s → ¬ s.Awaits extid)
    (hrv : (a.pushNew extid data dlc).2 ≠ .errorTreeOverflow) :
    ∃ k, a k = none ∧ a.pushNew extid data dlc =
      (update a k (some ⟨if dlc = 0#8 then {extid with frm := 0#3} else extid,dlc,
        xcanCodecTimeout,[data]⟩),if dlc = 0#8 then .msgAccepted else .packetAvailable) := by
  unfold pushNew at hrv ⊢
  simp only [remove_eq h] at hrv ⊢
  cases hk : a.firstFree with
  | none => simp [hk] at hrv
  | some k =>
    refine ⟨k,firstFree_some hk,?_⟩
    by_cases hd : dlc = 0#8 <;> simp [hd]

theorem pushNext_continues {k : Fin sizeTrees} {s : Assembly} {tFrm : Nat} (hd : a.Distinct)
    (hk : a k = some s) (hs : s.Awaits extid) (hf : Pool.checkSeq s.extid extid dlc = .ok tFrm) :
    a.pushNext extid data dlc = (update a k (some (s.extend data dlc tFrm)),
      if dlc = 0#8 then .msgAccepted else .packetAvailable) := by
  unfold pushNext
  simp only [firstAwaiting_eq hd hk hs,hf]
  by_cases hz : dlc = 0#8 <;> simp [hz]

end Assemblies

theorem Assembly.extend_extid (s : Assembly) (data : Vector Byte 8) :
    (s.extend data 0#8 s.extid.frm.toNat).extid = {s.extid with frm := nextFrm s.extid.frm} := by
  have h : ∀ f : BitVec 3,
      BitVec.ofNat 3 (if f.toNat+1 > frmSeqMax then 0 else f.toNat+1) = nextFrm f := by decide
  rw [← h]
  rfl

theorem nextFrm_le : ∀ frm : BitVec 3, (nextFrm frm).toNat ≤ frmSeqMax := by decide

namespace Sending
variable {x : Sending} {a : Assemblies} {m : XcanMsg} {rest : List XcanMsg}

/-- What the assembly of `x` is when `rest` are the messages still to come. -/
def Progress (x : Sending) (s : Assembly) (rest : List XcanMsg) : Prop :=
  if rest = [] then x.Complete s else x.Waiting s rest

/-- What the push of a message returns when `rest` are those still to come. -/
def code (rest : List XcanMsg) : ErrorType :=
  if rest = [] then .packetAvailable else .msgAccepted

theorem msgs_start (hx : 10 < x.data.length) (hm : x.msgs = m :: rest) :
    m.id = {x.extid with frm := frmStart}.raw ∧ m.dlc = 8#4 ∧
      m.data.toList = x.body.take 8 ∧ Frames x.extid 0#3 (x.body.drop 8) rest := by
  have hfr := x.msgs_frames hx
  have hbody : 8 < x.body.length := by
    simp [body]
    omega
  rw [hm] at hfr
  cases hfr with
  | last h0 h8 => omega
  | more h8 hid hdlc hdata hrest => exact ⟨hid,hdlc,hdata,hrest⟩

theorem push_start (hx : 10 < x.data.length) (hm : x.msgs = m :: rest)
    (hused : a.used ≠ sizeItems) :
    a.push (Extid.ofRaw m.id) m.data (m.dlc.setWidth 8) =
      a.pushNew {x.extid with frm := frmStart} m.data 0#8 := by
  obtain ⟨hid,hdlc,-⟩ := msgs_start hx hm
  rw [hid,Extid.ofRaw_raw,hdlc,Assemblies.push,if_neg hused,if_neg (by simp [frmStart,frmEnd]),
    if_pos rfl,if_neg (by decide)]

theorem push_first (hm : x.msgs = m :: rest)
    (hn : ∀ k s, a k = some s → ¬ s.Awaits x.extid) (hused : a.used ≠ sizeItems)
    (htree : (a.push (Extid.ofRaw m.id) m.data (m.dlc.setWidth 8)).2 ≠ .errorTreeOverflow) :
    ∃ k s, a k = none ∧ x.Progress s rest ∧
      a.push (Extid.ofRaw m.id) m.data (m.dlc.setWidth 8) = (update a k (some s),code rest) := by
  have hid : ∀ frm k s, a k = some s → ¬ s.Awaits {x.extid with frm := frm} := by
    intro frm k s hs haw
    exact hn k s hs ⟨haw.1,haw.2.trans ((Extid.sameId_iff _ _).mpr ⟨rfl,rfl,rfl⟩)⟩
  by_cases h10 : x.data.length ≤ 10
  · obtain ⟨m',hms,hmid,hdlc,hdata⟩ := x.msgs_single h10
    rw [hm] at hms
    obtain ⟨rfl,rfl⟩ := List.cons.inj hms
    have hpush : a.push (Extid.ofRaw m.id) m.data (m.dlc.setWidth 8) =
        a.pushNew {x.extid with frm := frmSingle} m.data
          (if m.dlc.setWidth 8 ≠ 0#8 then m.dlc.setWidth 8 else 0xFF#8) := by
      rw [hmid,Extid.ofRaw_raw,Assemblies.push,if_neg hused,if_neg (by simp [frmSingle,frmEnd]),
        if_neg (by simp [frmSingle,frmStart]),if_pos rfl]
    rw [hpush] at htree ⊢
    obtain ⟨k,hk,hnew⟩ := Assemblies.pushNew_starts (hid frmSingle) htree
    have hz : (if m.dlc.setWidth 8 ≠ 0#8 then m.dlc.setWidth 8 else 0xFF#8) ≠ 0#8 := by
      split_ifs with h0
      · exact h0
      · decide
    refine ⟨k,_,hk,?_,by rw [hnew,if_neg hz,if_neg hz]; rfl⟩
    exact x.complete_single h10 hdlc hdata rfl rfl rfl
  · have hx : 10 < x.data.length := Nat.not_le.mp h10
    obtain ⟨hmid,hdlc,hdata,hrest⟩ := msgs_start hx hm
    have hne := hrest.ne_nil
    rw [push_start hx hm hused] at htree ⊢
    obtain ⟨k,hk,hnew⟩ := Assemblies.pushNew_starts (hid frmStart) htree
    refine ⟨k,_,hk,?_,by rw [hnew,if_pos rfl,if_pos rfl,code,if_neg hne]⟩
    rw [Progress,if_neg hne]
    refine ⟨hx,rfl,rfl,Nat.zero_le _,x.body.drop 8,?_,hrest⟩
    simp [hdata]

theorem Waiting.awaits {s : Assembly} {rest : List XcanMsg} (hw : x.Waiting s rest)
    (frm : BitVec 3) : s.Awaits {x.extid with frm := frm} := by
  refine ⟨hw.dlc,?_⟩
  rw [hw.extid]
  exact (Extid.sameId_iff _ _).mpr ⟨rfl,rfl,rfl⟩

theorem push_last {k : Fin sizeTrees} {s : Assembly} (hd : a.Distinct) (hk : a k = some s)
    (hw : x.Waiting s [m]) (hused : a.used ≠ sizeItems) :
    m.id = {x.extid with frm := frmEnd}.raw ∧ (m.dlc.setWidth 8 : Byte) ≠ 0#8 ∧
    ∃ s', x.Complete s' ∧ a.push (Extid.ofRaw m.id) m.data (m.dlc.setWidth 8) =
      (update a k (some s'),.packetAvailable) := by
  obtain ⟨todo,hbody,hfr⟩ := hw.frames
  cases hfr with
  | more h8 hmid hdlc hdata hrest => cases hrest
  | last h0 h8 hmid hdlc hdata =>
    have hb : (m.dlc.setWidth 8 : Byte).toNat = todo.length := by
      rw [BitVec.toNat_setWidth,hdlc]; omega
    have hz : (m.dlc.setWidth 8 : Byte) ≠ 0#8 := by
      intro hz
      rw [hz] at hb
      simp only [BitVec.toNat_ofNat] at hb
      omega
    refine ⟨hmid,hz,s.extend m.data (m.dlc.setWidth 8) 0,?_,?_⟩
    · have hext : (s.extend m.data (m.dlc.setWidth 8) 0).extid = s.extid := by
        simp only [Assembly.extend,ne_eq,hz,not_false_eq_true,if_true]
      refine x.complete_body hw.long hz (by rw [hext]; exact hw.extid) ?_
      rw [hbody]
      change Assembly.cut (m.dlc.setWidth 8) (s.chunks ++ [m.data]) = _
      rw [Assembly.cut_append,Assembly.cut,hb,if_pos h8,hdata]
    · have hseq : Pool.checkSeq s.extid {x.extid with frm := frmEnd} (m.dlc.setWidth 8) =
          .ok 0 := by
        simp only [Pool.checkSeq,hz,if_false]
      rw [hmid,Extid.ofRaw_raw,Assemblies.push,if_neg hused,if_pos rfl,if_neg hz,
        Assemblies.pushNext_continues hd hk (hw.awaits frmEnd) hseq,if_neg hz]

theorem frm_le_ne : ∀ frm : BitVec 3, frm.toNat ≤ frmSeqMax →
    frm ≠ frmEnd ∧ frm ≠ frmStart ∧ frm ≠ frmSingle := by decide

theorem push_more {k : Fin sizeTrees} {s : Assembly} (hd : a.Distinct) (hk : a k = some s)
    (hw : x.Waiting s (m :: rest)) (hused : a.used ≠ sizeItems) (hne : rest ≠ []) :
    m.id = {x.extid with frm := s.extid.frm}.raw ∧ m.dlc = 8#4 ∧
    ∃ s', x.Waiting s' rest ∧ s'.extid.frm = nextFrm s.extid.frm ∧
      a.push (Extid.ofRaw m.id) m.data (m.dlc.setWidth 8) =
        (update a k (some s'),.msgAccepted) := by
  obtain ⟨todo,hbody,hfr⟩ := hw.frames
  cases hfr with
  | last h0 h8 hmid hdlc hdata => exact absurd rfl hne
  | more h8 hmid hdlc hdata hrest =>
    obtain ⟨h5,h6,h7⟩ := frm_le_ne _ hw.frm
    have hext := s.extend_extid m.data
    refine ⟨hmid,hdlc,s.extend m.data 0#8 s.extid.frm.toNat,?_,by rw [hext],?_⟩
    · refine ⟨hw.long,rfl,?_,?_,todo.drop 8,?_,?_⟩
      · rw [hext,hw.extid]
      · rw [hext]
        exact nextFrm_le _
      · rw [hbody]
        simp [Assembly.extend,hdata]
      · rw [hext]
        exact hrest
    · have hseq : Pool.checkSeq s.extid {x.extid with frm := s.extid.frm} 0#8 =
          .ok s.extid.frm.toNat := by
        simp [Pool.checkSeq]
      rw [hmid,Extid.ofRaw_raw,hdlc,Assemblies.push,if_neg hused,if_neg h5,if_neg h6,
        if_neg h7,if_neg (by decide),
        Assemblies.pushNext_continues hd hk (hw.awaits s.extid.frm) hseq,if_pos rfl]

theorem push_next {k : Fin sizeTrees} {s : Assembly} (hd : a.Distinct) (hk : a k = some s)
    (hw : x.Waiting s (m :: rest)) (hused : a.used ≠ sizeItems) :
    ∃ s', x.Progress s' rest ∧
      a.push (Extid.ofRaw m.id) m.data (m.dlc.setWidth 8) =
        (update a k (some s'),code rest) := by
  by_cases hr : rest = []
  · subst hr
    obtain ⟨-,-,s',hc,hpush⟩ := push_last hd hk hw hused
    exact ⟨s',by rw [Progress,if_pos rfl]; exact hc,by rw [hpush,code,if_pos rfl]⟩
  · obtain ⟨-,-,s',hw',-,hpush⟩ := push_more hd hk hw hused hr
    exact ⟨s',by rw [Progress,if_neg hr]; exact hw',by rw [hpush,code,if_neg hr]⟩

end Sending

end ApxBus.Can
