import ApxBus.Backport.DownlinkRead
import ApxBus.DeltaFeed
set_option autoImplicit false

/-!
A frame of the downlink stream, packed and unpacked, as a step of a sender that sends its values
only when they changed.
-/

namespace ApxBus.Backport
open MaskGroups DeltaFeed

theorem flatten_piece {bs : List (List Byte)} {i : Nat} {b : List Byte} (hb : bs[i]? = some b)
    (rest : List Byte) :
    ((bs.flatten ++ rest).drop (bs.take i).flatten.length).take b.length = b := by
  obtain ⟨hi,rfl⟩ := List.getElem?_eq_some_iff.mp hb
  have hs : bs.flatten = (bs.take i).flatten ++ (bs[i] ++ (bs.drop (i+1)).flatten) := by
    rw [← List.flatten_cons,← List.flatten_append,← List.drop_eq_getElem_cons hi,
      List.take_append_drop]
  rw [hs,List.append_assoc,List.drop_left,List.append_assoc,List.take_left]

theorem flatten_behind {a s : List Byte} {n : Nat} (hn : a.length ≤ n) :
    (a ++ s.drop a.length).drop n = s.drop n := by
  rw [List.drop_append,List.drop_eq_nil_of_le hn,List.nil_append,List.drop_drop,
    Nat.add_sub_cancel' hn]

theorem items_get (r0 s0 : List Byte) (i off : Nat) (bs : List (List Byte)) (k : Nat) :
    (items r0 s0 i off bs)[k]? = bs[k]?.map fun b =>
      if bitAt r0 (i+k) = true ∨
        (s0.drop (off+(bs.take k).flatten.length)).take b.length ≠ b then some b else none := by
  induction bs generalizing i off k with
  | nil => simp [items]
  | cons b bs ih =>
    cases k with
    | zero => simp [items]
    | succ k =>
      rw [items,List.getElem?_cons_succ,ih,List.getElem?_cons_succ]
      have hi : i+1+k = i+(k+1) := by omega
      have ho : off+b.length+(bs.take k).flatten.length =
          off+((b :: bs).take (k+1)).flatten.length := by
        simp only [List.take_succ_cons,List.flatten_cons,List.length_append]
        omega
      rw [hi,ho]

section Store
variable {hd : Bool} {us : List (Option (List Byte))}

theorem store_other {idx i : Nat} (h : ∀ k b, us[k]? = some (some b) → idx+k ≠ i)
    (cells : List Cell) : (store hd idx us cells)[i]? = cells[i]? := by
  induction us generalizing idx cells with
  | nil => rfl
  | cons u us ih =>
    have htail : ∀ k b, us[k]? = some (some b) → idx+1+k ≠ i := by
      intro k b hk
      have hne := h (k+1) b (by simpa using hk)
      omega
    cases u with
    | none => exact ih htail cells
    | some b =>
      have hne : idx ≠ i := h 0 b rfl
      rw [store,ih htail]
      cases hv : vars[idx]? with
      | none => rfl
      | some m => exact List.getElem?_set_ne hne

theorem store_item {idx k : Nat} {b : List Byte} (hk : us[k]? = some (some b)) {m : MVar}
    (hm : vars[idx+k]? = some m) {cells : List Cell} (hl : idx+k < cells.length) :
    (store hd idx us cells)[idx+k]? = some (m.unpack hd b) := by
  induction us generalizing idx k cells with
  | nil => simp at hk
  | cons u us ih =>
    cases k with
    | zero =>
      obtain rfl : u = some b := by simpa using hk
      rw [store,store_other (fun k c _ => by omega)]
      simp only [Nat.add_zero] at hm hl ⊢
      rw [hm]
      simp [hl]
    | succ k =>
      have hk' : us[k]? = some (some b) := by simpa using hk
      have hi : idx+(k+1) = idx+1+k := by omega
      rw [hi] at hm hl ⊢
      cases u with
      | none => exact ih hk' hm hl
      | some c =>
        refine ih hk' hm ?_
        cases vars[idx]? with
        | none => exact hl
        | some m => simpa using hl

end Store

theorem flatMap_group_length (gs : List (List (Option (List Byte)))) :
    (gs.flatMap group).length = (dataOf gs.flatten).length+gs.length := by
  induction gs with
  | nil => rfl
  | cons g gs ih =>
    simp only [List.flatMap_cons,List.flatten_cons,List.length_append,dataOf_append,ih,
      group_length,List.length_cons]
    omega

theorem dataOf_none (n : Nat) : dataOf (List.replicate n (none : Option (List Byte))) = [] := by
  induction n with
  | zero => rfl
  | succ n ih =>
    rw [List.replicate_succ,dataOf_cons,ih]
    rfl

theorem rows_length {us : List (Option (List Byte))} {gs : List (List (Option (List Byte)))}
    {cur : List (Option (List Byte))} (h : Rows us gs cur) :
    (gs.flatMap group ++ group cur).length = (dataOf us).length+gs.length+1 := by
  rw [h.eq,List.length_append,dataOf_append,List.length_append,flatMap_group_length,group_length]
  omega

theorem Sent.data_le {us : List (Option (List Byte))} {s : List Byte} (h : Sent us s) :
    (dataOf us).length ≤ s.length := by
  cases h with
  | nothing n => simp [dataOf_none]
  | upto b n hg hc =>
    simp only [dataOf_append,dataOf_none,List.length_append,flatMap_group_length,group_length]
    simp only [List.length_nil]
    omega

/-- Where a variable stands in `dl_snapshot`. -/
def offset (hd : Bool) (i : Nat) : Nat := ((streamVars.take i).map (·.size hd)).sum

theorem offset_mono (hd : Bool) {i j : Nat} (h : j ≤ i) : offset hd j ≤ offset hd i := by
  obtain ⟨n,rfl⟩ := Nat.exists_eq_add_of_le h
  rw [offset,offset,List.take_add,List.map_append,List.sum_append]
  exact Nat.le_add_right _ _

namespace Mandala

def isHd (d : Mandala) : Bool := decide ((d.word idxCmode).setWidth 8 &&& cmodeDlhd ≠ 0#8)

structure Sized (d : Mandala) : Prop where
  cells : d.cells.length = vars.length
  resetMask : d.resetMask.length = 16

/-- The snapshot and the flags, for frames with the HD mark `hd`. -/
def feed (d : Mandala) (hd : Bool) : Sender (List Byte) where
  last i := (d.snapshot.drop (offset hd i)).take ((streamVars[i]?.map (·.size hd)).getD 0)
  due i := d.reset = true ∨ d.hdSave ≠ hd ∨ bitAt d.resetMask i = true

def stream (m : Mandala) (i : Nat) : Option Cell := (m.cells.take streamVars.length)[i]?

end Mandala

def decode (hd : Bool) (i : Nat) (b : List Byte) : Option Cell :=
  streamVars[i]?.map (·.unpack hd b)

section
variable (casts : BitVec 32 → Byte)

def Mandala.packed (d : Mandala) (hd : Bool) (i : Nat) : List Byte :=
  (news casts hd (streamVars.zip d.cells)).getD i []

variable {casts}

theorem news_lengths (hd : Bool) {cells : List Cell} (h : streamVars.length ≤ cells.length) :
    (news casts hd (streamVars.zip cells)).map List.length = streamVars.map (·.size hd) := by
  have hf : (fun x : MVar × Cell => (x.1.pack casts hd x.2).1.length) =
      (fun m : MVar => m.size hd) ∘ Prod.fst := by
    funext x
    exact MVar.pack_length casts hd x.2 x.1
  rw [news,List.map_map,Function.comp_def,hf,← List.map_map,List.map_fst_zip h]

theorem news_length (hd : Bool) {cells : List Cell} (h : streamVars.length ≤ cells.length) :
    (news casts hd (streamVars.zip cells)).length = streamVars.length := by
  simpa using congrArg List.length (@news_lengths casts hd cells h)

theorem news_offset (hd : Bool) {cells : List Cell} (h : streamVars.length ≤ cells.length)
    (i : Nat) : ((news casts hd (streamVars.zip cells)).take i).flatten.length = offset hd i := by
  rw [List.length_flatten,List.map_take,news_lengths hd h,← List.map_take]
  rfl

theorem packVars_length (hd : Bool) (maxSize : Nat) (l : List (MVar × Cell)) (p : Packing) :
    (packVars casts hd maxSize l p).1.length = l.length := by
  induction l generalizing p with
  | nil => rfl
  | cons x l ih =>
    obtain ⟨m,v⟩ := x
    obtain ⟨-,-,h⟩ | ⟨-,-,h⟩ | ⟨-,h⟩ := @packVars_cases casts hd maxSize m v l p
    · simp [h]
    · simp [h,ih]
    · simp [h,ih]

namespace Mandala
variable {d : Mandala}

/-- The flags once `dl_reset` is taken into account. -/
def flags (d : Mandala) (hd : Bool) : List Byte :=
  if d.reset = true ∨ d.hdSave ≠ hd then d.resetMask.map fun _ => 0xFF#8 else d.resetMask

theorem flags_length (d : Mandala) (hd : Bool) : (d.flags hd).length = d.resetMask.length := by
  unfold flags
  split_ifs
  · exact List.length_map _
  · rfl

theorem flags_due (h : d.Sized) (hd : Bool) {i : Nat} (hi : i < streamVars.length) :
    bitAt (d.flags hd) i = true ↔ (d.feed hd).due i := by
  have hs : streamVars.length = 121 := rfl
  unfold flags feed
  dsimp only
  split_ifs with hr
  · have hb : bitAt (d.resetMask.map fun _ => 0xFF#8) i = true := by
      have h8 : i%8 < 8 := Nat.mod_lt _ (by decide)
      have hp : i/8 < d.resetMask.length := by
        rw [h.resetMask]
        omega
      rw [bitAt,List.getD_eq_getElem?_getD,List.getElem?_map,List.getElem?_eq_getElem hp]
      simp only [Option.map_some,Option.getD_some]
      interval_cases i%8 <;> decide
    simp only [hb,true_iff]
    rcases hr with hr | hr
    · exact Or.inl hr
    · exact Or.inr (Or.inl hr)
  · rw [not_or] at hr
    simp [hr.1,hr.2]

def header (timestamp : BitVec 32) (hd : Bool) : List Byte :=
  [((timestamp/10#32) &&& 0x7FFF#32).setWidth 8,
    (((timestamp/10#32) &&& 0x7FFF#32) >>> 8).setWidth 8 ||| (if hd then 0x80#8 else 0#8)]

variable (casts) in
/-- The loop variables at the end of `pack_downstream`. -/
def final (d : Mandala) (maxSize : Nat) : List Cell × Packing :=
  packVars casts d.isHd maxSize (streamVars.zip d.cells)
    ⟨[0#8],0,1#8,0,0,1,d.flags d.isHd,0,d.snapshot,0⟩

theorem packDownstream_eq (d : Mandala) (maxSize : Nat) (timestamp : BitVec 32) :
    d.packDownstream casts maxSize timestamp =
      (header (d.word idxDlTimestamp) d.isHd ++ (d.final casts maxSize).2.buf,
      {d with
        cells := setWord ((d.final casts maxSize).1 ++ d.cells.drop streamVars.length)
          idxDlTimestamp (d.word idxDlTimestamp+(if d.word idxDlPeriod ≠ 0#32
            then d.word idxDlPeriod else timestamp-d.timeS))
        reset := decide (d.word idxDlTimestamp % 10000#32 = 0#32)
        resetMask := (d.final casts maxSize).2.resetMask
        snapshot := (d.final casts maxSize).2.snapshot
        timeS := timestamp
        size := (d.final casts maxSize).2.cnt+(d.final casts maxSize).2.maskCnt+2
        hdSave := d.isHd}) := by
  have hi : decide ((d.word idxCmode).setWidth 8 &&& cmodeDlhd ≠ 0#8) = d.isHd := rfl
  by_cases hs : d.hdSave = d.isHd
  · have hf : d.flags d.isHd =
        if d.reset then d.resetMask.map fun _ => 0xFF#8 else d.resetMask := by
      simp [flags,hs]
    simp only [packDownstream,final,hf,hi]
    rw [if_neg (not_not.mpr hs)]
    simp only [hs]
    rfl
  · have hf : d.flags d.isHd = d.resetMask.map fun _ => 0xFF#8 := by simp [flags,hs]
    simp only [packDownstream,final,hf,hi]
    rw [if_pos hs]
    rfl

variable (casts) in
def allPacked (d : Mandala) : List (List Byte) := news casts d.isHd (streamVars.zip d.cells)

theorem Sized.stream_le (h : d.Sized) : streamVars.length ≤ d.cells.length := by
  rw [h.cells,vars,List.length_append]
  exact Nat.le_add_right _ _

theorem packed_get (h : d.Sized) {i : Nat} (hi : i < streamVars.length) :
    (d.allPacked casts)[i]? = some (d.packed casts d.isHd i) := by
  have hl : i < (news casts d.isHd (streamVars.zip d.cells)).length := by
    rw [news_length _ h.stream_le]
    exact hi
  rw [packed,List.getD_eq_getElem _ _ hl]
  exact List.getElem?_eq_getElem hl

theorem packed_length (h : d.Sized) {i : Nat} (hi : i < streamVars.length) :
    (d.packed casts d.isHd i).length = (streamVars[i]?.map (·.size d.isHd)).getD 0 := by
  have hl := congrArg (·[i]?) (@news_lengths casts d.isHd d.cells h.stream_le)
  have hp : (news casts d.isHd (streamVars.zip d.cells))[i]? = some (d.packed casts d.isHd i) :=
    packed_get h hi
  simp only [List.getElem?_map,hp,Option.map_some] at hl
  rw [← hl]
  rfl

theorem item_wanted (h : d.Sized) {i : Nat} (hi : i < streamVars.length) (b : List Byte) :
    (items (d.flags d.isHd) d.snapshot 0 0 (d.allPacked casts))[i]? = some (some b) ↔
      (d.feed d.isHd).Wanted (d.packed casts d.isHd) i ∧ d.packed casts d.isHd i = b := by
  have hlast : (d.snapshot.drop (0+((d.allPacked casts).take i).flatten.length)).take
      (d.packed casts d.isHd i).length = (d.feed d.isHd).last i := by
    rw [Nat.zero_add,allPacked,news_offset _ h.stream_le,packed_length h hi]
    rfl
  have hw : (bitAt (d.flags d.isHd) i = true ∨
      (d.feed d.isHd).last i ≠ d.packed casts d.isHd i) ↔
        (d.feed d.isHd).Wanted (d.packed casts d.isHd) i := by
    rw [flags_due h _ hi,ne_comm]
    rfl
  rw [items_get,packed_get h hi,Option.map_some,Option.some_inj,hlast,Nat.zero_add]
  split_ifs with hc
  · rw [Option.some_inj]
    exact ⟨fun he => ⟨hw.mp hc,he⟩,And.right⟩
  · exact ⟨False.elim,fun he => absurd (hw.mpr he.1) hc⟩

theorem final_packed (h : d.Sized) (maxSize : Nat) :
    ∃ j, Packed (d.flags d.isHd) d.snapshot maxSize [] [] (d.allPacked casts)
      (d.final casts maxSize).2 j := by
  refine packVars_spec d.isHd maxSize _ (Packing.layout_start _ _) (resets_start _) ?_
  rw [flags_length,h.resetMask,List.length_zip,Nat.min_eq_left h.stream_le]
  decide

theorem Sized.pack (h : d.Sized) (maxSize : Nat) (timestamp : BitVec 32) :
    (d.packDownstream casts maxSize timestamp).2.Sized := by
  obtain ⟨j,hp⟩ := @final_packed casts d h maxSize
  rw [packDownstream_eq]
  refine ⟨?_,?_⟩
  · have hle := h.stream_le
    simp only [setWord,List.length_set,List.length_append,final,packVars_length,List.length_zip,
      List.length_drop]
    have hc := h.cells
    omega
  · have hl := hp.length
    rw [flags_length,h.resetMask] at hl
    exact hl

theorem word_setWord {m : Mandala} {cells : List Cell} {idx : Nat} {v : BitVec 32}
    (hm : m.cells = setWord cells idx v) (hi : idx < cells.length) : m.word idx = v := by
  simp [word,hm,setWord,hi]

theorem pack_word (h : d.Sized) (maxSize : Nat) (timestamp : BitVec 32) :
    (d.packDownstream casts maxSize timestamp).2.word idxDlTimestamp =
      d.word idxDlTimestamp+(if d.word idxDlPeriod ≠ 0#32 then d.word idxDlPeriod
        else timestamp-d.timeS) ∧
    (d.packDownstream casts maxSize timestamp).2.word idxDlPeriod = d.word idxDlPeriod := by
  have hl : (d.final casts maxSize).1.length = streamVars.length := by
    rw [final,packVars_length,List.length_zip,Nat.min_eq_left h.stream_le]
  have hs : streamVars.length = 121 := rfl
  have hv : vars.length = 201 := rfl
  rw [packDownstream_eq]
  refine ⟨?_,?_⟩
  · refine word_setWord rfl ?_
    rw [List.length_append,List.length_drop,hl,h.cells,hs,hv]
    decide
  · have hle : (d.final casts maxSize).1.length ≤ idxDlPeriod := by
      rw [hl,hs]
      decide
    have hne : idxDlTimestamp ≠ idxDlPeriod := by decide
    simp only [word,setWord,List.getD_eq_getElem?_getD]
    rw [List.getElem?_set_ne hne,List.getElem?_append_right hle,List.getElem?_drop,hl,hs]
    rfl

variable (casts) in
/-- What a frame is that went through `j` variables: the bytes `sent` behind the header, of the
row `us`. -/
structure Frame (d : Mandala) (maxSize j : Nat) (us : List (Option (List Byte)))
    (sent : List Byte) : Prop where
  le : j ≤ streamVars.length
  row : Sent us sent
  items : ∀ i b, us[i]? = some (some b) ↔
    i < j ∧ (d.feed d.isHd).Wanted (d.packed casts d.isHd) i ∧ d.packed casts d.isHd i = b
  written : ∀ timestamp, ∃ n, n ≤ 16 ∧ (d.packDownstream casts maxSize timestamp).1 =
    header (d.word idxDlTimestamp) d.isHd ++ sent ++ List.replicate n 0#8
  size : ∀ timestamp, (d.packDownstream casts maxSize timestamp).2.size = sent.length+2
  total : ∀ timestamp, (d.packDownstream casts maxSize timestamp).1.length =
    (dataOf us).length+j/8+3
  stop : j < streamVars.length → ∀ timestamp, maxSize ≤
    (d.packDownstream casts maxSize timestamp).1.length+(d.packed casts d.isHd j).length

theorem frame_of_packed (h : d.Sized) {maxSize j : Nat}
    (hp : Packed (d.flags d.isHd) d.snapshot maxSize [] [] (d.allPacked casts)
      (d.final casts maxSize).2 j) :
    ∃ us sent, d.Frame casts maxSize j us sent := by
  obtain ⟨sent,hsent,hbuf,hlen⟩ := hp.layout.sent
  obtain ⟨gs,cur,hrows,hbuf',-,-,-⟩ := hp.layout.rows
  simp only [List.nil_append,List.length_nil,List.flatten_nil] at hsent hrows
  have hstream : streamVars.length = 121 := rfl
  have hnl : (d.allPacked casts).length = streamVars.length := news_length _ h.stream_le
  have hj : j ≤ streamVars.length := hnl ▸ hp.le
  have hul : gs.length ≤ 15 := by
    have hl := hrows.length
    rw [List.length_take,items_length,hnl] at hl
    omega
  refine ⟨_,sent,⟨hj,hsent,fun i b => ?_,fun timestamp => ?_,fun timestamp => ?_,
    fun timestamp => ?_,fun hlt timestamp => ?_⟩⟩
  · rw [List.getElem?_take]
    split_ifs with hi
    · rw [item_wanted h (by omega)]
      exact ⟨fun he => ⟨hi,he⟩,And.right⟩
    · exact ⟨False.elim ∘ by simp,fun he => absurd he.1 hi⟩
  · refine ⟨(d.final casts maxSize).2.maskCntZero,?_,?_⟩
    · have h1 := rows_length hrows
      have h2 := hsent.data_le
      have h3 := congrArg List.length (hbuf.symm.trans hbuf')
      rw [List.length_append,List.length_replicate] at h3
      omega
    · rw [packDownstream_eq,hbuf,List.append_assoc]
  · rw [packDownstream_eq]
    dsimp only
    omega
  · have hl := hrows.length
    have hc := hrows.room
    rw [List.length_take,items_length,hnl,Nat.min_eq_left hj] at hl
    have hh : (header (d.word idxDlTimestamp) d.isHd).length = 2 := rfl
    rw [packDownstream_eq,List.length_append,hbuf',rows_length hrows,hh]
    omega
  · have hb := hp.stop _ (packed_get h hlt)
    rw [packDownstream_eq]
    dsimp only
    rw [List.length_append]
    exact hb.2

theorem after_last (d : Mandala) (maxSize : Nat) (timestamp : BitVec 32) (i : Nat) :
    ({(d.packDownstream casts maxSize timestamp).2 with reset := false}.feed d.isHd).last i =
      ((d.final casts maxSize).2.snapshot.drop (offset d.isHd i)).take
        ((streamVars[i]?.map (·.size d.isHd)).getD 0) := by
  rw [packDownstream_eq]
  rfl

theorem after_due (d : Mandala) (maxSize : Nat) (timestamp : BitVec 32) (i : Nat) :
    ({(d.packDownstream casts maxSize timestamp).2 with reset := false}.feed d.isHd).due i ↔
      bitAt (d.final casts maxSize).2.resetMask i = true := by
  rw [packDownstream_eq]
  simp [feed]

/-- `pack_downstream` sends what is wanted up to where it stops. What the period adds to the flags
comes on top. -/
theorem step_of_packed (h : d.Sized) {maxSize j : Nat}
    (hp : Packed (d.flags d.isHd) d.snapshot maxSize [] [] (d.allPacked casts)
      (d.final casts maxSize).2 j) (timestamp : BitVec 32) :
    (d.feed d.isHd).Step streamVars.length (d.packed casts d.isHd) j
      ({(d.packDownstream casts maxSize timestamp).2 with reset := false}.feed d.isHd) := by
  have hnl : (d.allPacked casts).length = streamVars.length := news_length _ h.stream_le
  have hj : j ≤ streamVars.length := hnl ▸ hp.le
  have hoff : ∀ i, ((d.allPacked casts).take i).flatten.length = offset d.isHd i :=
    news_offset _ h.stream_le
  have hsnap := hp.layout.snapshot
  rw [List.nil_append] at hsnap
  have hbit := hp.bit
  simp only [List.length_nil,Nat.zero_add,hnl] at hbit
  refine ⟨hj,fun i hi => ⟨?_,?_⟩,fun hlt => ⟨?_,?_⟩,fun i hji hi => ?_,fun i hji hi => ?_⟩
  · have hget : ((d.allPacked casts).take j)[i]? = some (d.packed casts d.isHd i) := by
      rw [List.getElem?_take_of_lt hi]
      exact packed_get h (by omega)
    have hpiece := flatten_piece hget (d.snapshot.drop ((d.allPacked casts).take j).flatten.length)
    rw [List.take_take,Nat.min_eq_left (Nat.le_of_lt hi),hoff i,
      packed_length h (by omega)] at hpiece
    rw [after_last,hsnap]
    exact hpiece
  · rw [after_due,hbit]
    have hne : i ≠ j := Nat.ne_of_lt hi
    simp [hne,hi]
  · obtain ⟨hs,-⟩ := hp.stop _ (packed_get h hlt)
    exact ((item_wanted h hlt _).mp hs).1
  · rw [after_due,hbit]
    simp [hlt]
  · rw [after_last,hsnap,flatten_behind]
    · rfl
    · rw [hoff]
      exact offset_mono d.isHd hji
  · rw [after_due,hbit,← flags_due h _ hi]
    have hne : i ≠ j := Nat.ne_of_gt hji
    simp [hne,Nat.le_of_lt hji]

theorem packDownstream_frame (h : d.Sized) (maxSize : Nat) :
    ∃ j us sent, d.Frame casts maxSize j us sent ∧ ∀ timestamp,
      (d.feed d.isHd).Step streamVars.length (d.packed casts d.isHd) j
        ({(d.packDownstream casts maxSize timestamp).2 with reset := false}.feed d.isHd) := by
  obtain ⟨j,hp⟩ := @final_packed casts d h maxSize
  obtain ⟨us,sent,hf⟩ := frame_of_packed h hp
  exact ⟨j,us,sent,hf,step_of_packed h hp⟩

def ticks (timestamp : BitVec 32) : BitVec 16 := ((timestamp/10#32) &&& 0x7FFF#32).setWidth 16

theorem unpackDownstream_sent {us : List (Option (List Byte))} {sent : List Byte}
    (hs : Sent us sent) {hd : Bool} (hfit : Fits hd 0 us) (m : Mandala) (timestamp : BitVec 32)
    (after : List Byte) :
    ∃ m', m.unpackDownstream (header timestamp hd ++ sent ++ after) (sent.length+2) =
      (if sent = [] then 2 else sent.length,m') ∧ m'.ts = ticks timestamp ∧
      m'.cells = store hd 0 us (setWord m.cells idxDlTimestamp (m.word idxDlTimestamp+
        ((ticks timestamp-m.ts) &&& 0x7FFF#16).setWidth 32*10#32)) := by
  obtain ⟨hmark,hticks⟩ := header_mark (timestamp/10#32) hd
  have h0 : (header timestamp hd ++ sent ++ after).getD 0 0#8 =
      ((timestamp/10#32) &&& 0x7FFF#32).setWidth 8 := rfl
  have h1 : (header timestamp hd ++ sent ++ after).getD 1 0#8 =
      (((timestamp/10#32) &&& 0x7FFF#32) >>> 8).setWidth 8 |||
        (if hd then 0x80#8 else 0#8) := rfl
  have hhd := Bool.eq_iff_iff.mpr ((decide_eq_true_iff).trans hmark)
  have hdrop : (header timestamp hd ++ sent ++ after).drop 2 = sent ++ after := rfl
  unfold unpackDownstream
  simp only [h0,h1,hhd,hdrop,hticks]
  by_cases hne : sent = []
  · subst hne
    exact ⟨_,rfl,rfl,(hs.store_nil hd 0 _).symm⟩
  · have hpos : sent.length+2 > 2 := by
      have := List.length_pos_iff.mpr hne
      omega
    rw [if_pos hpos,Nat.add_sub_cancel,unpackStream_sent hs hfit _ after hne,if_neg hne]
    exact ⟨_,rfl,rfl,rfl⟩

theorem Frame.fits {maxSize j : Nat} {us : List (Option (List Byte))} {sent : List Byte}
    (hf : d.Frame casts maxSize j us sent) (h : d.Sized) : Fits d.isHd 0 us := by
  intro i b hi
  obtain ⟨hj,-,rfl⟩ := (hf.items i b).mp hi
  have hlt : i < streamVars.length := Nat.lt_of_lt_of_le hj hf.le
  refine ⟨streamVars[i],?_,?_⟩
  · rw [Nat.zero_add,vars,List.getElem?_append_left hlt,List.getElem?_eq_getElem hlt]
  · rw [packed_length h hlt,List.getElem?_eq_getElem hlt]
    rfl

/-- The station reads such a frame. -/
theorem Frame.heard {maxSize j : Nat} {us : List (Option (List Byte))} {sent : List Byte}
    (hf : d.Frame casts maxSize j us sent) (h : d.Sized) {m : Mandala}
    (hm : m.cells.length = vars.length) (after : List Byte) :
    (m.unpackDownstream (header (d.word idxDlTimestamp) d.isHd ++ sent ++ after)
      (sent.length+2)).1 = (if sent = [] then 2 else sent.length) ∧
    (d.feed d.isHd).Heard (d.packed casts d.isHd) (decode d.isHd) j m.stream
      (m.unpackDownstream (header (d.word idxDlTimestamp) d.isHd ++ sent ++ after)
        (sent.length+2)).2.stream := by
  obtain ⟨m',hu,-,hc⟩ := unpackDownstream_sent hf.row (hf.fits h) m (d.word idxDlTimestamp) after
  rw [hu]
  generalize m.word idxDlTimestamp+_ = v at hc
  have hvars : vars.length = 201 := rfl
  have hstream : streamVars.length = 121 := rfl
  refine ⟨rfl,fun i hi hw => ?_,fun i hi => ?_⟩
  · have hlt : i < streamVars.length := Nat.lt_of_lt_of_le hi hf.le
    have hm' : vars[0+i]? = some streamVars[i] := by
      rw [Nat.zero_add,vars,List.getElem?_append_left hlt,List.getElem?_eq_getElem hlt]
    have hl : 0+i < (setWord m.cells idxDlTimestamp v).length := by
      rw [setWord,List.length_set]
      omega
    have hs := @store_item d.isHd _ _ _ _ ((hf.items i _).mpr ⟨hi,hw,rfl⟩) _ hm' _ hl
    rw [Nat.zero_add] at hs
    rw [stream,List.getElem?_take_of_lt hlt,hc,hs,decode,List.getElem?_eq_getElem hlt]
    rfl
  · rw [stream,stream,List.getElem?_take,List.getElem?_take]
    by_cases hlt : i < streamVars.length
    · rw [if_pos hlt,if_pos hlt,hc,store_other,setWord,List.getElem?_set_ne]
      · show 134 ≠ i
        omega
      · intro k b hk he
        obtain ⟨h1,h2,-⟩ := (hf.items k b).mp hk
        rw [Nat.zero_add] at he
        exact hi ⟨he ▸ h1,he ▸ h2⟩
    · rw [if_neg hlt,if_neg hlt]

end Mandala

end

end ApxBus.Backport
