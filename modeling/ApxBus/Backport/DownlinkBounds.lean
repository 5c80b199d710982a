import ApxBus.Backport.DownlinkRuns
set_option autoImplicit false

/-! How far the downlink stream writes and reads: the buffers of the vehicle, and any bytes at the
station. -/

namespace ApxBus.Backport
open MaskGroups

section Write
variable {casts : BitVec 32 → Byte} {d : Mandala}

theorem packVars_size (hd : Bool) (maxSize : Nat) (l : List (MVar × Cell)) (p : Packing)
    (h : p.cnt+p.maskCnt = 0 ∨ p.cnt+p.maskCnt+2 < maxSize) :
    (packVars casts hd maxSize l p).2.cnt+(packVars casts hd maxSize l p).2.maskCnt = 0 ∨
      (packVars casts hd maxSize l p).2.cnt+(packVars casts hd maxSize l p).2.maskCnt+2 <
        maxSize := by
  induction l generalizing p with
  | nil => exact h
  | cons x l ih =>
    obtain ⟨m,v⟩ := x
    have hu := p.unflag_eq
    obtain ⟨-,-,hres⟩ | ⟨-,hroom,hres⟩ | ⟨-,hres⟩ := @packVars_cases casts hd maxSize m v l p
    · rw [hres,hu]
      exact h
    · rw [hres]
      refine ih _ (Or.inr ?_)
      obtain ⟨h1,h2,-⟩ := @Packing.next_counts (p.unflag.post (m.pack casts hd v).1)
        (m.pack casts hd v).1.length
      rw [h1,h2,hu]
      dsimp only [Packing.post]
      omega
    · rw [hres]
      refine ih _ ?_
      obtain ⟨h1,h2,-⟩ := @Packing.next_counts p.unflag (m.pack casts hd v).1.length
      rw [h1,h2,hu]
      exact h

set_option maxRecDepth 1000 in
theorem offset_stream (hd : Bool) : offset hd streamVars.length ≤ 322 := by
  revert hd
  decide

theorem snapshot_length (h : d.Sized) (hs : d.snapshot.length = 1024) {maxSize j : Nat}
    (hp : Packed (d.flags d.isHd) d.snapshot maxSize [] [] (d.allPacked casts)
      (d.final casts maxSize).2 j) : (d.final casts maxSize).2.snapshot.length = 1024 := by
  have hj : offset d.isHd j ≤ 322 := by
    have hle : j ≤ streamVars.length := news_length d.isHd h.stream_le ▸ hp.le
    exact Nat.le_trans (offset_mono _ hle) (offset_stream _)
  have hl := hp.layout.snapshot
  have ho : ((d.allPacked casts).take j).flatten.length = offset d.isHd j :=
    news_offset _ h.stream_le _
  rw [List.nil_append] at hl
  rw [hl,List.length_append,List.length_drop,hs,ho]
  omega

theorem next_resetPtr (p : Packing) (n : Nat) : p.resetPtr ≤ (p.next n).resetPtr := by
  unfold Packing.next
  dsimp only
  split_ifs
  · exact Nat.le_succ _
  · exact Nat.le_refl _

theorem packVars_resetPtr (hd : Bool) (maxSize : Nat) (l : List (MVar × Cell)) (p : Packing) :
    p.resetPtr ≤ (packVars casts hd maxSize l p).2.resetPtr := by
  induction l generalizing p with
  | nil => exact Nat.le_refl _
  | cons x l ih =>
    obtain ⟨m,v⟩ := x
    have hu : p.unflag.resetPtr = p.resetPtr := by rw [p.unflag_eq]
    obtain ⟨-,-,h⟩ | ⟨-,-,h⟩ | ⟨-,h⟩ := @packVars_cases casts hd maxSize m v l p
    · rw [h]
      exact hu.ge
    · rw [h]
      exact hu.ge.trans ((next_resetPtr (p.unflag.post _) _).trans (ih _))
    · rw [h]
      exact hu.ge.trans ((next_resetPtr p.unflag _).trans (ih _))

theorem packVars_take_resetPtr (hd : Bool) (maxSize : Nat) (l : List (MVar × Cell)) (p : Packing)
    (k : Nat) : (packVars casts hd maxSize (l.take k) p).2.resetPtr ≤
      (packVars casts hd maxSize l p).2.resetPtr := by
  induction l generalizing p k with
  | nil => rw [List.take_nil]
  | cons x l ih =>
    cases k with
    | zero => exact packVars_resetPtr hd maxSize (x :: l) p
    | succ k =>
      obtain ⟨m,v⟩ := x
      rw [List.take_succ_cons]
      have htake := @packVars_cases casts hd maxSize m v (l.take k) p
      obtain ⟨hw,hr,h⟩ | ⟨hw,hr,h⟩ | ⟨hw,h⟩ := @packVars_cases casts hd maxSize m v l p
      · obtain ⟨-,-,h'⟩ | ⟨-,hr',-⟩ | ⟨hw',-⟩ := htake
        · rw [h,h']
        · exact absurd hr (Nat.not_le.mpr hr')
        · exact absurd hw hw'
      · obtain ⟨-,hr',-⟩ | ⟨-,-,h'⟩ | ⟨hw',-⟩ := htake
        · exact absurd hr' (Nat.not_le.mpr hr)
        · rw [h,h']
          exact ih _ k
        · exact absurd hw hw'
      · obtain ⟨hw',-⟩ | ⟨hw',-⟩ | ⟨-,h'⟩ := htake
        · exact absurd hw' hw
        · exact absurd hw' hw
        · rw [h,h']
          exact ih _ k

variable (casts) in
/-- The loop variables after the first `k` variables. -/
def Mandala.loop (d : Mandala) (maxSize k : Nat) : Packing :=
  (packVars casts d.isHd maxSize ((streamVars.zip d.cells).take k)
    ⟨[0#8],0,1#8,0,0,1,d.flags d.isHd,0,d.snapshot,0⟩).2

/-- Whatever the variables and the flags are: a frame that is more than its header is shorter than
`maxSize`, up to sixteen masks without variables are written behind it, and neither the snapshot nor
the flags are left at any variable. -/
theorem downlink_bounds (casts : BitVec 32 → Byte) {d : Mandala} (h : d.Sized)
    (hs : d.snapshot.length = 1024) (maxSize : Nat) (timestamp : BitVec 32) :
    ((d.packDownstream casts maxSize timestamp).2.size = 2 ∨
      (d.packDownstream casts maxSize timestamp).2.size < maxSize) ∧
    (∃ frame n, n ≤ 16 ∧ frame.length = (d.packDownstream casts maxSize timestamp).2.size ∧
      (d.packDownstream casts maxSize timestamp).1 = frame ++ List.replicate n 0#8) ∧
    (∀ k, (d.loop casts maxSize k).resetPtr < d.resetMask.length) ∧
    (d.final casts maxSize).2.resetPtr < d.resetMask.length ∧
    (d.packDownstream casts maxSize timestamp).2.Sized ∧
    (d.packDownstream casts maxSize timestamp).2.snapshot.length = 1024 := by
  obtain ⟨j,hp⟩ := @Mandala.final_packed casts d h maxSize
  obtain ⟨us,sent,hf⟩ := Mandala.frame_of_packed h hp
  obtain ⟨n,hn,hw⟩ := hf.written timestamp
  have hlast : (d.final casts maxSize).2.resetPtr < d.resetMask.length := by
    obtain ⟨gs,cur,hrows,-,-,-,hptr⟩ := hp.layout.rows
    have hl := hrows.length
    have hst : streamVars.length = 121 := rfl
    have hle := hf.le
    rw [List.nil_append,List.length_take,items_length] at hl
    rw [hptr,h.resetMask]
    omega
  refine ⟨?_,⟨_,n,hn,?_,hw⟩,fun k => ?_,hlast,h.pack maxSize timestamp,?_⟩
  · have hz := @packVars_size casts d.isHd maxSize (streamVars.zip d.cells)
      ⟨[0#8],0,1#8,0,0,1,d.flags d.isHd,0,d.snapshot,0⟩ (Or.inl rfl)
    rw [Mandala.packDownstream_eq]
    rcases hz with hz | hz
    · exact Or.inl (congrArg (·+2) hz)
    · exact Or.inr hz
  · rw [hf.size,List.length_append]
    exact Nat.add_comm _ _
  · exact Nat.lt_of_le_of_lt (packVars_take_resetPtr _ _ _ _ k) hlast
  · rw [Mandala.packDownstream_eq]
    exact snapshot_length h hs hp

theorem downlink_bounds_started :
    let r := (Link.started 0#32 100#32).vehicle.packDownstream (fun _ => 0#8) 30 7#32
    (r.2.size = 2 ∨ r.2.size < 30) ∧
      (∃ frame n, n ≤ 16 ∧ frame.length = r.2.size ∧ r.1 = frame ++ List.replicate n 0#8) ∧
      (∀ k, ((Link.started 0#32 100#32).vehicle.loop (fun _ => 0#8) 30 k).resetPtr < 16) ∧
      ((Link.started 0#32 100#32).vehicle.final (fun _ => 0#8) 30).2.resetPtr < 16 ∧
      r.2.Sized ∧ r.2.snapshot.length = 1024 :=
  downlink_bounds _ (Link.started_sized 0#32 100#32).1 List.length_replicate 30 7#32

end Write

section Read

set_option maxRecDepth 1000 in
theorem size_le {i : Nat} {m : MVar} (hm : vars[i]? = some m) (hd : Bool) : m.size hd ≤ 12 := by
  have hall : ∀ m ∈ vars, ∀ hd, m.size hd ≤ 12 := by decide
  exact hall m (List.mem_of_getElem? hm) hd

/-- The same loop variables over memories that are the same up to eleven bytes behind the frame. -/
structure Alike (u u' : Unpacking) : Prop where
  mem : Agree (u.tcnt+11).toNat u.mem u'.mem
  tcnt : u.tcnt = u'.tcnt
  idx : u.idx = u'.idx
  cells : u.cells = u'.cells

theorem unpackMask_alike (hd : Bool) (byte : Byte) (n : Nat) (mask : Byte) {u u' : Unpacking}
    (h : Alike u u') : (unpackMask hd byte n mask u).1 = (unpackMask hd byte n mask u').1 ∧
      Alike (unpackMask hd byte n mask u).2 (unpackMask hd byte n mask u').2 := by
  induction n generalizing mask u u' with
  | zero => exact ⟨rfl,h⟩
  | succ n ih =>
    obtain ⟨mem,tcnt,idx,cells⟩ := u
    obtain ⟨mem',tcnt',idx',cells'⟩ := u'
    obtain ⟨hmem,rfl,rfl,rfl⟩ := h
    unfold unpackMask
    split_ifs with hbit hcnt
    · exact ⟨rfl,hmem,rfl,rfl,rfl⟩
    · cases hv : vars[idx]? with
      | none => exact ⟨rfl,hmem,rfl,rfl,rfl⟩
      | some m =>
        have hle := size_le hv hd
        dsimp only at hmem hcnt
        refine ih _ ⟨?_,rfl,rfl,?_⟩
        · exact (hmem.drop _).mono (by dsimp only; omega)
        · dsimp only
          rw [m.unpack_agree hd (hmem.mono (by omega))]
    · exact ih _ ⟨hmem,rfl,rfl,rfl⟩

theorem unpackMask_tcnt (hd : Bool) (byte : Byte) (n : Nat) (mask : Byte) (u : Unpacking) :
    (unpackMask hd byte n mask u).2.tcnt ≤ u.tcnt := by
  induction n generalizing mask u with
  | zero => exact Int.le_refl _
  | succ n ih =>
    unfold unpackMask
    split_ifs
    · exact Int.le_refl _
    · cases vars[u.idx]? with
      | none => exact Int.le_refl _
      | some m =>
        refine Int.le_trans (ih _ _) ?_
        dsimp only
        omega
    · exact ih _ _

theorem unpackLoop_alike (hd : Bool) (fuel : Nat) {u u' : Unpacking}
    (hmem : Agree (u.tcnt+12).toNat u.mem u'.mem) (htcnt : u.tcnt = u'.tcnt) (h0 : 0 ≤ u.tcnt)
    (hidx : u.idx = u'.idx) (hcells : u.cells = u'.cells) :
    (unpackLoop hd fuel u).1 = (unpackLoop hd fuel u').1 ∧
      (unpackLoop hd fuel u).2.cells = (unpackLoop hd fuel u').2.cells := by
  induction fuel generalizing u u' with
  | zero => exact ⟨rfl,hcells⟩
  | succ fuel ih =>
    have hbyte := hmem 0 (by omega)
    obtain ⟨h1,h2⟩ := @unpackMask_alike hd (u.mem.getD 0 0#8) 8 1#8 {u with mem := u.mem.drop 1}
      {u' with mem := u'.mem.drop 1} ⟨(hmem.drop 1).mono (by dsimp only; omega),htcnt,hidx,hcells⟩
    unfold unpackLoop
    dsimp only
    rw [← hbyte,← h1,← h2.tcnt]
    split_ifs with hok hpos
    · exact ⟨rfl,h2.cells⟩
    · refine ih ?_ ?_ ?_ h2.idx h2.cells
      · refine h2.mem.mono ?_
        dsimp only
        omega
      · rfl
      · dsimp only
        omega
    · exact ⟨rfl,h2.cells⟩

theorem unpackLoop_fuel (hd : Bool) (fuel k : Nat) {u : Unpacking} (h0 : 0 ≤ u.tcnt)
    (h : u.tcnt < fuel) :
    unpackLoop hd (fuel+k) u = unpackLoop hd fuel u := by
  induction fuel generalizing u with
  | zero => omega
  | succ fuel ih =>
    rw [Nat.add_right_comm]
    unfold unpackLoop
    dsimp only
    have hle := unpackMask_tcnt hd (u.mem.getD 0 0#8) 8 1#8 {u with mem := u.mem.drop 1}
    split_ifs with hok hpos
    · rfl
    · refine ih ?_ ?_
      · dsimp only
        omega
      · dsimp only at hle ⊢
        omega
    · rfl

theorem unpackStream_agree (m : Mandala) {cnt : Nat} (hc : 0 < cnt) {mem mem' : List Byte}
    (h : Agree (cnt+11) mem mem') (hd : Bool) :
    m.unpackStream mem cnt hd = m.unpackStream mem' cnt hd := by
  obtain ⟨h1,h2⟩ := @unpackLoop_alike hd cnt ⟨mem,cnt-1,0,m.cells⟩ ⟨mem',cnt-1,0,m.cells⟩
    (h.mono (by dsimp only; omega)) rfl (by dsimp only; omega) rfl rfl
  unfold Mandala.unpackStream
  dsimp only
  rw [h1,h2]

/-- Any bytes are taken for a frame: no more than eleven behind it are read, the loop ends within
it, and nothing is stored behind the variables, however much there is. -/
theorem unpackDownstream_bounds (m : Mandala) (cnt : Nat) (mem : List Byte) :
    (∀ mem', Agree (cnt+11) mem mem' →
      m.unpackDownstream mem' cnt = m.unpackDownstream mem cnt) ∧
    (if cnt > 2 then (m.unpackDownstream mem cnt).1 = 0 ∨ (m.unpackDownstream mem cnt).1 = cnt-2
      else (m.unpackDownstream mem cnt).1 = 2) ∧
    (m.unpackDownstream mem cnt).2.cells.length = m.cells.length ∧
    (m.unpackDownstream mem cnt).2.cells.drop vars.length = m.cells.drop vars.length ∧
    (cnt > 2 → ∀ hd cells k, unpackLoop hd (cnt-2+k) ⟨mem.drop 2,(cnt-2 : Nat)-1,0,cells⟩ =
      unpackLoop hd (cnt-2) ⟨mem.drop 2,(cnt-2 : Nat)-1,0,cells⟩) := by
  refine ⟨fun mem' h => ?_,?_,m.unpackDownstream_length mem cnt,m.unpackDownstream_drop mem cnt,
    fun hc hd cells k => ?_⟩
  · have h0 := h 0 (by omega)
    have h1 := h 1 (by omega)
    unfold Mandala.unpackDownstream
    rw [← h0,← h1]
    dsimp only
    by_cases hc : cnt > 2
    · rw [if_pos hc,if_pos hc]
      exact (unpackStream_agree _ (by omega) ((h.drop 2).mono (by omega)) _).symm
    · rw [if_neg hc,if_neg hc]
  · unfold Mandala.unpackDownstream
    dsimp only
    by_cases hc : cnt > 2
    · rw [if_pos hc,if_pos hc]
      unfold Mandala.unpackStream
      dsimp only
      split_ifs
      · exact Or.inr rfl
      · exact Or.inl rfl
    · rw [if_neg hc,if_neg hc]
  · exact unpackLoop_fuel hd (cnt-2) k (by dsimp only; omega) (by dsimp only; omega)

/-- A frame with one variable, of which five of six bytes lie behind it. -/
theorem unpackDownstream_bounds_started :
    let m := (Link.started 0#32 100#32).station
    let m := {m with cells := m.cells ++ [(⟨1#32,2#32,3#32⟩ : Cell)]}
    m.unpackDownstream ([7#8,0#8,1#8,2#8] ++ List.replicate 11 9#8 ++ [5#8]) 4 =
        m.unpackDownstream ([7#8,0#8,1#8,2#8] ++ List.replicate 11 9#8) 4 ∧
      ((m.unpackDownstream ([7#8,0#8,1#8,2#8] ++ List.replicate 11 9#8) 4).1 = 0 ∨
        (m.unpackDownstream ([7#8,0#8,1#8,2#8] ++ List.replicate 11 9#8) 4).1 = 2) ∧
      (m.unpackDownstream ([7#8,0#8,1#8,2#8] ++ List.replicate 11 9#8) 4).2.cells.drop
        vars.length = [⟨1#32,2#32,3#32⟩] := by
  intro m0 m
  obtain ⟨hread,hret,-,hdrop,-⟩ :=
    unpackDownstream_bounds m 4 ([7#8,0#8,1#8,2#8] ++ List.replicate 11 9#8)
  refine ⟨hread _ fun i hi => (List.getD_append _ _ _ _ hi).symm,hret,hdrop.trans ?_⟩
  exact List.drop_left' (Link.started_sized 0#32 100#32).2

end Read

end ApxBus.Backport
