import ApxBus.Serial.CobsRoundTrip
set_option autoImplicit false

/-! What a decoder delivers, as a function of the runs of bytes between the delimiters. -/

namespace ApxBus.Serial

/-- What is decoded of a part of a run, with the code of the last block and the number of its
bytes to come. There is no bound on the size. -/
structure Received where
  code : Byte
  copy : Byte
  got : List Byte
  deriving DecidableEq, Repr

namespace Received

def start : Received := ⟨0xFF#8,0#8,[]⟩

def next (esc : Byte) (u : Received) (c : Byte) : Received :=
  if u.copy ≠ 0#8 then {u with copy := u.copy-1#8, got := u.got ++ [c]}
  else ⟨c,c-1#8,u.got ++ if u.code ≠ 0xFF#8 then [esc] else []⟩

theorem next_length (esc : Byte) (u : Received) (c : Byte) :
    u.got.length ≤ (u.next esc c).got.length := by
  unfold next
  split_ifs <;> simp

end Received

def received (esc : Byte) (part : List Byte) : Received := part.foldl (Received.next esc) .start

theorem received_append (esc : Byte) (part cs : List Byte) :
    received esc (part ++ cs) = cs.foldl (Received.next esc) (received esc part) :=
  List.foldl_append

theorem received_length (esc : Byte) (part cs : List Byte) :
    (received esc part).got.length ≤ (received esc (part ++ cs)).got.length := by
  induction cs generalizing part with
  | nil => rw [List.append_nil]
  | cons c cs ih =>
    have hc := ih (part ++ [c])
    rw [received_append esc part [c],List.append_assoc] at hc
    exact (Received.next_length esc _ c).trans hc

def unstuff (esc : Byte) (run : List Byte) : Option (List Byte) :=
  if (received esc run).copy = 0#8 then some (received esc run).got else none

/-- The packet of a run: its decoding without the checksum that ends it. -/
def framePacket (esc : Byte) (run : List Byte) : Option (List Byte) :=
  match unstuff esc run with
  | none => none
  | some data =>
    let cnt := data.length-2
    if 2 < data.length ∧ data.drop cnt = CobsEncoder.checksum (data.take cnt) then
      some (data.take cnt)
    else none

theorem framePacket_short {esc : Byte} {run : List Byte}
    (h : (received esc run).got.length ≤ 2) : framePacket esc run = none := by
  unfold framePacket unstuff
  by_cases hc : (received esc run).copy = 0#8
  · rw [if_pos hc]
    exact if_neg fun hd => Nat.not_lt.mpr h hd.1
  · rw [if_neg hc]

theorem framePacket_append {esc : Byte} {run p : List Byte} {b0 b1 : Byte}
    (hu : unstuff esc run = some (p ++ [b0,b1])) (hp : p ≠ []) :
    framePacket esc run =
      if le16 b0 b1 ≠ (crc32 p p.length crcInit).setWidth 16 then none else some p := by
  have hpos := List.length_pos_iff.mpr hp
  have hcnt : (p ++ [b0,b1]).length-2 = p.length := by simp
  have hlong : 2 < (p ++ [b0,b1]).length := by simp; omega
  unfold framePacket
  rw [hu]
  dsimp only
  rw [hcnt,List.drop_left,List.take_left,CobsEncoder.checksum]
  by_cases heq : le16 b0 b1 = (crc32 p p.length crcInit).setWidth 16
  · rw [if_neg (not_not.mpr heq),← heq,bytes16_le16]
    exact if_pos ⟨hlong,rfl⟩
  · rw [if_pos heq]
    refine if_neg fun hd => heq ?_
    rw [← bytes16_le16] at hd
    exact bytes16_injective hd.2

theorem framePacket_unstuff {esc : Byte} {run p : List Byte} (h : framePacket esc run = some p) :
    unstuff esc run = some (p ++ CobsEncoder.checksum p) := by
  unfold framePacket at h
  cases hu : unstuff esc run with
  | none =>
    rw [hu] at h
    cases h
  | some data =>
    rw [hu] at h
    dsimp only at h
    split_ifs at h with hd
    rw [← Option.some.inj h,← hd.2,List.take_append_drop]

theorem unstuff_length {esc : Byte} {run data : List Byte} (h : unstuff esc run = some data) :
    (received esc run).got.length = data.length := by
  unfold unstuff at h
  split_ifs at h
  rw [Option.some.inj h]

theorem foldl_block {esc : Byte} {block : List Byte} {u : Received}
    (h : u.copy.toNat = block.length) :
    block.foldl (Received.next esc) u = ⟨u.code,0#8,u.got ++ block⟩ := by
  induction block generalizing u with
  | nil =>
    have hc : u.copy = 0#8 := BitVec.eq_of_toNat_eq h
    rw [List.foldl_nil,List.append_nil,← hc]
  | cons c block ih =>
    rw [List.length_cons] at h
    have hc : u.copy ≠ 0#8 := by
      intro hc
      rw [hc] at h
      simp at h
    have hsub : (u.copy-1#8).toNat = block.length := by
      have hlt := u.copy.isLt
      simp only [BitVec.toNat_sub,BitVec.toNat_ofNat]
      omega
    rw [List.foldl_cons,Received.next,if_pos hc,ih hsub,List.append_assoc]
    rfl

theorem received_block {part block : List Byte} {code : Byte}
    (hp : (received 0#8 part).copy = 0#8) (hc : code.toNat = block.length+1) :
    received 0#8 (part ++ code :: block) = ⟨code,0#8,(received 0#8 part).got ++
      CobsDecoder.gap (received 0#8 part).code ++ block⟩ := by
  have hsub : (code-1#8).toNat = block.length := by
    simp only [BitVec.toNat_sub,BitVec.toNat_ofNat]
    have hlt := code.isLt
    omega
  rw [received_append,List.foldl_cons,Received.next,if_neg (not_not.mpr hp),foldl_block hsub,
    CobsDecoder.gap,ite_not]

theorem Blocks.received {wire data : List Byte} (hb : Blocks wire data) {part : List Byte}
    (hp : (received 0#8 part).copy = 0#8) :
    (Serial.received 0#8 (part ++ wire)).copy = 0#8 ∧
    (Serial.received 0#8 (part ++ wire)).got = (Serial.received 0#8 part).got ++
      CobsDecoder.gap (Serial.received 0#8 part).code ++ data := by
  induction hb generalizing part with
  | last hz hc =>
    rw [received_block hp hc]
    exact ⟨rfl,rfl⟩
  | zero hz hc hf hb ih =>
    have hblock := received_block hp hc
    obtain ⟨hcopy,hgot⟩ := ih (congrArg Received.copy hblock)
    rw [← List.append_assoc,hcopy,hgot,hblock]
    exact ⟨rfl,by simp [CobsDecoder.gap_zero hf]⟩
  | full hz hc hb ih =>
    have hblock := @received_block _ _ 0xFF#8 hp (by rw [hc]; rfl)
    obtain ⟨hcopy,hgot⟩ := ih (congrArg Received.copy hblock)
    rw [← List.append_assoc,hcopy,hgot,hblock]
    exact ⟨rfl,by simp [CobsDecoder.gap_full]⟩

/-- The part of a run behind the last byte of which the decoding did not fit into `n` bytes;
`part` is what came so far. -/
def lastPart (esc : Byte) (n : Nat) : List Byte → List Byte → List Byte
  | part, [] => part
  | part, c :: cs =>
    if (received esc (part ++ [c])).got.length ≤ n then lastPart esc n (part ++ [c]) cs
    else lastPart esc n [] cs

theorem lastPart_length (esc : Byte) {n : Nat} {part : List Byte}
    (hp : (received esc part).got.length ≤ n) (cs : List Byte) :
    (received esc (lastPart esc n part cs)).got.length ≤ n := by
  induction cs generalizing part with
  | nil => exact hp
  | cons c cs ih =>
    rw [lastPart]
    split_ifs with hc
    · exact ih hc
    · exact ih (Nat.zero_le n)

theorem lastPart_fits (esc : Byte) {n : Nat} {part cs : List Byte}
    (hp : (received esc (part ++ cs)).got.length ≤ n) :
    lastPart esc n part cs = part ++ cs := by
  induction cs generalizing part with
  | nil => rw [lastPart,List.append_nil]
  | cons c cs ih =>
    rw [List.append_cons] at hp ⊢
    rw [lastPart,if_pos ((received_length esc _ cs).trans hp)]
    exact ih hp

/-- The complete runs of a stream, each ended by a delimiter; `run` is what came so far of the
first. -/
def runs (esc : Byte) : List Byte → List Byte → List (List Byte)
  | _, [] => []
  | run, c :: cs => if c = esc then run :: runs esc [] cs else runs esc (run ++ [c]) cs

namespace CobsDecoder
variable {packetSize : Nat} {d : CobsDecoder packetSize} {esc : Byte} {part : List Byte}

/-- The decoder has received `part` since it was last restarted. -/
def At (d : CobsDecoder packetSize) (esc : Byte) (part : List Byte) : Prop :=
  d.Holds (received esc part).code (received esc part).copy.toNat (received esc part).got

theorem fresh_at (esc : Byte) (buf : Vector Byte (packetSize+2)) : (fresh buf).At esc [] :=
  ⟨rfl,rfl,rfl,by simp [received,Received.start]⟩

theorem restart_at (esc : Byte) (d : CobsDecoder packetSize) : d.restart.At esc [] :=
  restart_holds d

theorem writeDecodedByte_full {c : Byte} (h : ¬ d.rcnt < packetSize+2) :
    d.writeDecodedByte c = none := dif_neg h

/-- A byte either is taken or starts the decoder anew. -/
theorem At.dataByte (h : d.At esc part) (c : Byte) :
    (d.dataByte esc c).At esc
      (if (received esc (part ++ [c])).got.length ≤ packetSize+2 then part ++ [c] else []) := by
  have hn : received esc (part ++ [c]) = (received esc part).next esc c := received_append ..
  have hcopy : d.copy = (received esc part).copy := BitVec.eq_of_toNat_eq h.copy
  unfold CobsDecoder.dataByte
  rw [hcopy,h.code,hn]
  unfold Received.next
  by_cases hc : (received esc part).copy ≠ 0#8
  · rw [if_pos hc,if_pos hc]
    dsimp only
    rw [List.length_append,List.length_singleton]
    by_cases hr : (received esc part).got.length+1 ≤ packetSize+2
    · obtain ⟨d',hw,hh,-,hcp⟩ := Holds.write h c hr
      rw [hw,if_pos hr]
      unfold At
      rw [hn,Received.next,if_pos hc]
      refine ⟨hh.code,?_,hh.rcnt,hh.got⟩
      dsimp only
      rw [hcp,hcopy]
    · rw [writeDecodedByte_full (by rw [h.rcnt]; exact hr),if_neg hr]
      exact restart_at esc _
  · rw [if_neg hc,if_neg hc]
    by_cases hf : (received esc part).code ≠ 0xFF#8
    · rw [if_pos hf,if_pos hf]
      dsimp only
      rw [List.length_append,List.length_singleton]
      by_cases hr : (received esc part).got.length+1 ≤ packetSize+2
      · obtain ⟨d',hw,hh,-,-⟩ := Holds.write h esc hr
        rw [hw,if_pos hr]
        unfold At
        rw [hn,Received.next,if_neg hc,if_pos hf]
        exact ⟨rfl,rfl,hh.rcnt,hh.got⟩
      · rw [writeDecodedByte_full (by rw [h.rcnt]; exact hr),if_neg hr]
        exact restart_at esc _
    · rw [if_neg hf,if_neg hf]
      dsimp only
      have hle : (received esc part).got.length ≤ packetSize+2 := by
        have hg := congrArg List.length h.got
        rw [List.length_take,Vector.length_toList] at hg
        omega
      rw [List.append_nil,if_pos hle]
      unfold At
      rw [hn,Received.next,if_neg hc,if_neg hf,List.append_nil]
      exact ⟨rfl,rfl,h.rcnt,h.got⟩

theorem At.delimiter (h : d.At esc part) :
    d.delimiter.At esc [] ∧
    (if d.delimiter.status = .packetAvailable then some d.delimiter.packet else none) =
      framePacket esc part := by
  have hcopy : d.copy = (received esc part).copy := BitVec.eq_of_toNat_eq h.copy
  by_cases hc : d.copy ≠ 0#8
  · have hdel : d.delimiter = d.fail .errorSize := by rw [CobsDecoder.delimiter,if_pos hc]
    rw [hdel,framePacket,unstuff,← hcopy,if_neg hc]
    exact ⟨restart_at esc _,rfl⟩
  rw [not_not] at hc
  by_cases hs : d.rcnt ≤ 2
  · have hdel : d.delimiter = d.fail .errorSize := by
      rw [CobsDecoder.delimiter,if_neg (not_not.mpr hc),if_pos hs]
    rw [hdel,framePacket_short (h.rcnt ▸ hs)]
    exact ⟨restart_at esc _,rfl⟩
  obtain ⟨p,b0,b1,hgot,hp⟩ : ∃ p b0 b1, (received esc part).got = p ++ [b0,b1] ∧ p ≠ [] := by
    have hlen := h.rcnt
    obtain ⟨b0,b1,htail⟩ := List.length_eq_two.mp (show ((received esc part).got.drop
      ((received esc part).got.length-2)).length = 2 by rw [List.length_drop]; omega)
    refine ⟨_,b0,b1,by rw [← htail,List.take_append_drop],?_⟩
    rw [← List.length_pos_iff,List.length_take]
    omega
  have hh : d.Holds (received esc part).code 0 (p ++ [b0,b1]) := by
    refine ⟨h.code,by rw [hc]; rfl,?_,?_⟩
    · rw [h.rcnt,hgot]
    · rw [← hgot,h.got]
  obtain ⟨htake,hdel⟩ := Holds.delimiter_eq hh hp
  rw [framePacket_append (by rw [unstuff,← hcopy,if_pos hc,hgot]) hp,hdel]
  by_cases hcrc : le16 b0 b1 ≠ (crc32 p p.length crcInit).setWidth 16
  · rw [if_pos hcrc,if_pos hcrc]
    exact ⟨restart_at esc _,rfl⟩
  · rw [if_neg hcrc,if_neg hcrc]
    exact ⟨restart_at esc _,congrArg some htake⟩

theorem At.run (h : d.At esc part) {cs : List Byte} (hcs : esc ∉ cs) :
    (d.bytes esc (cs ++ [esc])).1.At esc [] ∧
    (d.bytes esc (cs ++ [esc])).2 =
      (framePacket esc (lastPart esc (packetSize+2) part cs)).toList := by
  induction cs generalizing d part with
  | nil =>
    obtain ⟨hat,hp⟩ := h.delimiter
    simp only [List.nil_append,bytes,byte,if_true,lastPart]
    rw [← hp]
    by_cases hs : d.delimiter.status = .packetAvailable
    · simp only [hs,decide_true,if_true]
      exact ⟨hat,rfl⟩
    · simp only [hs,decide_false,if_false]
      exact ⟨hat,rfl⟩
  | cons c cs ih =>
    rw [List.mem_cons,not_or] at hcs
    have hb := h.dataByte c
    simp only [List.cons_append,bytes,byte,if_neg (Ne.symm hcs.1),lastPart]
    split_ifs at hb ⊢
    · exact ih hb hcs.2
    · exact ih hb hcs.2

/-- The packets of each run when the runs are received one after the other. -/
def perRun (esc : Byte) : CobsDecoder packetSize → List (List Byte) → List (List (List Byte))
  | _, [] => []
  | d, run :: rs => (d.bytes esc (run ++ [esc])).2 :: perRun esc (d.bytes esc (run ++ [esc])).1 rs

theorem At.perRun (h : d.At esc []) {rs : List (List Byte)} (hr : ∀ run ∈ rs, esc ∉ run) :
    d.perRun esc rs =
      rs.map fun run => (framePacket esc (lastPart esc (packetSize+2) [] run)).toList := by
  induction rs generalizing d with
  | nil => rfl
  | cons run rs ih =>
    obtain ⟨hat,hp⟩ := h.run (hr run (by simp))
    rw [CobsDecoder.perRun,List.map_cons,hp,ih hat fun r hm => hr r (by simp [hm])]

end CobsDecoder

theorem runs_delimited {esc : Byte} {run cs : List Byte} (hr : esc ∉ run) :
    ∀ r ∈ runs esc run cs, esc ∉ r := by
  induction cs generalizing run with
  | nil => simp [runs]
  | cons c cs ih =>
    rw [runs]
    split_ifs with hc
    · intro r hm
      rcases List.mem_cons.mp hm with rfl | hm
      · exact hr
      · exact ih (by simp) r hm
    · refine ih ?_
      rw [List.mem_append,List.mem_singleton,not_or]
      exact ⟨hr,Ne.symm hc⟩

namespace CobsDecoder
variable {packetSize : Nat} {d : CobsDecoder packetSize} {esc : Byte}

theorem bytes_undelimited {run : List Byte} (hr : esc ∉ run) : (d.bytes esc run).2 = [] := by
  induction run generalizing d with
  | nil => rfl
  | cons c run ih =>
    rw [List.mem_cons,not_or] at hr
    simp only [bytes,byte,if_neg (Ne.symm hr.1)]
    exact ih hr.2

theorem bytes_perRun {run cs : List Byte} (hr : esc ∉ run) :
    (d.bytes esc (run ++ cs)).2 = (d.perRun esc (runs esc run cs)).flatten := by
  induction cs generalizing d run with
  | nil =>
    rw [List.append_nil]
    exact bytes_undelimited hr
  | cons c cs ih =>
    rw [List.append_cons,runs]
    by_cases hc : c = esc
    · subst hc
      rw [if_pos rfl,bytes_append,perRun,List.flatten_cons]
      have hnil : c ∉ ([] : List Byte) := List.not_mem_nil
      exact congrArg _ (ih hnil)
    · rw [if_neg hc]
      refine ih ?_
      rw [List.mem_append,List.mem_singleton,not_or]
      exact ⟨hr,Ne.symm hc⟩

theorem feed_perRun (esc : Byte) (d : CobsDecoder packetSize) (chunks : List (List Byte)) :
    (d.feed esc chunks).2 = (d.perRun esc (runs esc [] chunks.flatten)).flatten :=
  (feed_bytes esc d chunks).2.trans (bytes_perRun List.not_mem_nil)

theorem fresh_perRun (esc : Byte) (buf : Vector Byte (packetSize+2)) (stream : List Byte) :
    (fresh buf).perRun esc (runs esc [] stream) = (runs esc [] stream).map fun run =>
      (framePacket esc (lastPart esc (packetSize+2) [] run)).toList :=
  (fresh_at esc buf).perRun (runs_delimited (by simp))

/-- Every packet is the decoding of all of its run, without the checksum. -/
def Aligned (esc : Byte) (rs : List (List Byte)) (packets : List (List (List Byte))) : Prop :=
  List.Forall₂ (fun run ps => ∀ p ∈ ps, unstuff esc run = some (p ++ CobsEncoder.checksum p))
    rs packets

/-- A packet that is not the decoding of its run is that of the tail of a run that is too long
for the buffer. -/
theorem aligned_iff (esc : Byte) (buf : Vector Byte (packetSize+2)) (chunks : List (List Byte)) :
    ((fresh buf).feed esc chunks).2 =
      ((fresh buf).perRun esc (runs esc [] chunks.flatten)).flatten ∧
    (Aligned esc (runs esc [] chunks.flatten)
        ((fresh buf).perRun esc (runs esc [] chunks.flatten)) ↔
      ∀ run ∈ runs esc [] chunks.flatten, packetSize+2 < (received esc run).got.length →
        framePacket esc (lastPart esc (packetSize+2) [] run) = none) := by
  refine ⟨feed_perRun esc _ chunks,?_⟩
  rw [fresh_perRun,Aligned,List.forall₂_map_right_iff,List.forall₂_same]
  refine forall₂_congr fun run _ => ?_
  have hlast := @lastPart_length esc (packetSize+2) [] (Nat.zero_le _) run
  constructor
  · intro hal hlong
    by_contra hne
    obtain ⟨p,hp⟩ := Option.ne_none_iff_exists'.mp hne
    have hrun := unstuff_length (hal p (by rw [hp]; exact List.mem_singleton_self p))
    have htail := unstuff_length (framePacket_unstuff hp)
    omega
  · intro hnone p hm
    rw [Option.mem_toList] at hm
    by_cases hlong : packetSize+2 < (received esc run).got.length
    · rw [hnone hlong] at hm
      cases hm
    · rw [@lastPart_fits esc _ [] run (Nat.not_lt.mp hlong)] at hm
      exact framePacket_unstuff hm

/-- The frame in the last five bytes of a run of eleven is delivered by a decoder for packets
of at most three. -/
theorem aligned_overflow :
    ((fresh (Vector.replicate 5 0#8) : CobsDecoder 3).feed 0#8
      [[11#8,1#8,1#8,1#8,1#8,1#8,1#8,4#8,5#8,16#8,182#8,0#8]]).2 = [[5#8]] ∧
    ¬ Aligned 0#8 (runs 0#8 [] [11#8,1#8,1#8,1#8,1#8,1#8,1#8,4#8,5#8,16#8,182#8,0#8])
      ((fresh (Vector.replicate 5 0#8) : CobsDecoder 3).perRun 0#8
        (runs 0#8 [] [11#8,1#8,1#8,1#8,1#8,1#8,1#8,4#8,5#8,16#8,182#8,0#8])) := by
  refine ⟨by decide +kernel,fun h => ?_⟩
  have hr : runs 0#8 [] [11#8,1#8,1#8,1#8,1#8,1#8,1#8,4#8,5#8,16#8,182#8,0#8] =
      [[11#8,1#8,1#8,1#8,1#8,1#8,1#8,4#8,5#8,16#8,182#8]] := by decide
  have hp : (fresh (Vector.replicate 5 0#8) : CobsDecoder 3).perRun 0#8
      [[11#8,1#8,1#8,1#8,1#8,1#8,1#8,4#8,5#8,16#8,182#8]] = [[[5#8]]] := by decide +kernel
  have hu : unstuff 0#8 [11#8,1#8,1#8,1#8,1#8,1#8,1#8,4#8,5#8,16#8,182#8] =
      some [1#8,1#8,1#8,1#8,1#8,1#8,4#8,5#8,16#8,182#8] := by decide
  rw [hr,hp,Aligned,List.forall₂_cons] at h
  have h5 := h.1 [5#8] (by simp)
  rw [hu] at h5
  have hlen := congrArg List.length (Option.some.inj h5)
  simp [CobsEncoder.checksum] at hlen

/-- The calls of `decode` for a chunk: what is given, and the number of bytes processed. -/
def callsRest (esc : Byte) : Nat → CobsDecoder packetSize → List Byte → List (List Byte × Nat)
  | 0, _, _ => []
  | fuel+1, d, src =>
    let (d,cnt) := d.decode esc src
    (src,cnt) ::
      if d.status = .packetAvailable then callsRest esc fuel d (src.drop cnt) else []

def calls (esc : Byte) : CobsDecoder packetSize → List (List Byte) → List (List Byte × Nat)
  | _, [] => []
  | d, chunk :: chunks =>
    callsRest esc (chunk.length+1) d chunk ++
      calls esc (d.feedRest esc (chunk.length+1) chunk).1 chunks

/-- The calls process `stream`, each byte once. -/
structure Processed (calls : List (List Byte × Nat)) (stream : List Byte) : Prop where
  bytes : (calls.flatMap fun call => call.1.take call.2) = stream
  cnt : (calls.map Prod.snd).sum = stream.length

theorem Processed.append {calls calls' : List (List Byte × Nat)} {a b : List Byte}
    (h : Processed calls a) (h' : Processed calls' b) : Processed (calls ++ calls') (a ++ b) := by
  refine ⟨?_,?_⟩
  · rw [List.flatMap_append,h.bytes,h'.bytes]
  · rw [List.map_append,List.sum_append,List.length_append,h.cnt,h'.cnt]

theorem callsRest_processed (esc : Byte) {fuel : Nat} {src : List Byte} (hf : src.length < fuel) :
    Processed (d.callsRest esc fuel src) src := by
  induction fuel generalizing d src with
  | zero => omega
  | succ fuel ih =>
    have hone : ∀ done rest : List Byte,
        Processed [(done ++ rest,done.length)] done := fun done rest => ⟨by simp,by simp⟩
    rcases decodeLoop_bytes (d := {d with status := .unknown}) esc src.length (by simp) src with
      ⟨e,hd,he,-,-⟩ | ⟨e,rest,done,hd,he,rfl,hne,-⟩
    · simp only [callsRest,decode,hd,he,if_false]
      simpa using hone src []
    · have hpos := List.length_pos_iff.mpr hne
      have hlen : (done ++ rest).length-rest.length = done.length := by simp
      rw [List.length_append] at hf
      simp only [callsRest,decode,hd,he,if_true,hlen,List.drop_left]
      exact (hone done rest).append (ih (by omega))

theorem calls_processed (esc : Byte) (d : CobsDecoder packetSize) (chunks : List (List Byte)) :
    Processed (d.calls esc chunks) chunks.flatten := by
  induction chunks generalizing d with
  | nil => exact ⟨rfl,rfl⟩
  | cons chunk chunks ih =>
    exact (callsRest_processed esc (Nat.lt_succ_self _)).append (ih _)

/-- Neither the way a stream is cut nor what the buffer held before makes a difference. -/
theorem feed_chunking (esc : Byte) (buf buf' : Vector Byte (packetSize+2))
    (chunks chunks' : List (List Byte)) (h : chunks.flatten = chunks'.flatten) :
    ((fresh buf).feed esc chunks).2 = ((fresh buf').feed esc chunks').2 ∧
    Processed ((fresh buf).calls esc chunks) chunks.flatten ∧
    Processed ((fresh buf').calls esc chunks') chunks'.flatten := by
  refine ⟨?_,calls_processed esc _ chunks,calls_processed esc _ chunks'⟩
  rw [feed_perRun,feed_perRun,fresh_perRun,fresh_perRun,h]

theorem feed_chunking_bytes :
    ((fresh (Vector.replicate 5 9#8) : CobsDecoder 3).feed 0#8
      [[4#8,5#8],[],[16#8,182#8],[0#8,7#8]]).2 = [[5#8]] := by
  have hone : ((fresh (Vector.replicate 5 0#8) : CobsDecoder 3).feed 0#8
      [[4#8,5#8,16#8,182#8,0#8,7#8]]).2 = [[5#8]] := by decide +kernel
  rw [← hone]
  exact (feed_chunking 0#8 (Vector.replicate 5 9#8) (Vector.replicate 5 0#8)
    [[4#8,5#8],[],[16#8,182#8],[0#8,7#8]] [[4#8,5#8,16#8,182#8,0#8,7#8]] rfl).1

end CobsDecoder

end ApxBus.Serial
