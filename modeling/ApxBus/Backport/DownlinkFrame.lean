import ApxBus.Backport.Downlink
import ApxBus.MaskGroups
set_option autoImplicit false

/-! What a frame of the downlink stream holds: the loop of `pack_downstream` and its result. -/

namespace ApxBus.Backport
open MaskGroups

/-- What stands in the frame for the variables gone through: groups of eight and the beginning of
one more. -/
structure Rows (us : List (Option (List Byte))) (gs : List (List (Option (List Byte))))
    (cur : List (Option (List Byte))) : Prop where
  eq : us = gs.flatten ++ cur
  full : ∀ g ∈ gs, g.length = 8
  room : cur.length < 8

/-- The bytes up to the last variable posted. -/
inductive Sent : List (Option (List Byte)) → List Byte → Prop where
  | nothing (n : Nat) : Sent (List.replicate n none) []
  | upto {gs : List (List (Option (List Byte)))} {cur : List (Option (List Byte))}
      (b : List Byte) (n : Nat) (hg : ∀ g ∈ gs, g.length = 8) (hc : cur.length < 8) :
      Sent (gs.flatten ++ (cur ++ [some b]) ++ List.replicate n none)
        (gs.flatMap group ++ group (cur ++ [some b]))

theorem Rows.length {us : List (Option (List Byte))} {gs : List (List (Option (List Byte)))}
    {cur : List (Option (List Byte))} (h : Rows us gs cur) :
    us.length = 8*gs.length+cur.length := by
  have hs : (gs.map List.length).sum = 8*gs.length := by
    rw [List.eq_replicate_of_mem (l := gs.map List.length) (a := 8) ?_]
    · simp [Nat.mul_comm]
    · intro n hn
      obtain ⟨g,hg,rfl⟩ := List.mem_map.mp hn
      exact h.full g hg
  rw [h.eq,List.length_append,List.length_flatten,hs]

theorem Sent.snoc_none {us : List (Option (List Byte))} {s : List Byte} (h : Sent us s) :
    Sent (us ++ [none]) s := by
  cases h with
  | nothing n => simpa [List.replicate_succ'] using Sent.nothing (n+1)
  | upto b n hg hc =>
    rw [List.append_assoc,← List.replicate_succ']
    exact Sent.upto b (n+1) hg hc

namespace Packing

/-- The loop variables after the variables `us` were gone through, whose packed bytes are `bs`;
`s0` is the snapshot at the start. -/
structure Layout (s0 : List Byte) (us : List (Option (List Byte))) (bs : List (List Byte))
    (p : Packing) : Prop where
  rows : ∃ gs cur, Rows us gs cur ∧ p.buf = gs.flatMap group ++ group cur ∧
    p.maskPtr = (gs.flatMap group).length ∧ p.mask = bitMask cur.length ∧ p.resetPtr = gs.length
  sent : ∃ s, Sent us s ∧ p.buf = s ++ List.replicate p.maskCntZero 0#8 ∧
    s.length = p.cnt+p.maskCnt
  snapPtr : p.snapPtr = bs.flatten.length
  snapshot : p.snapshot = bs.flatten ++ s0.drop bs.flatten.length

variable {s0 : List Byte} {us : List (Option (List Byte))} {bs : List (List Byte)} {p : Packing}

theorem layout_start (s0 r : List Byte) : Layout s0 [] [] ⟨[0#8],0,1#8,0,0,1,r,0,s0,0⟩ where
  rows := ⟨[],[],⟨rfl,by simp,by simp⟩,rfl,rfl,rfl,rfl⟩
  sent := ⟨[],Sent.nothing 0,rfl,rfl⟩
  snapPtr := rfl
  snapshot := by simp

theorem Layout.withReset (h : p.Layout s0 us bs) (r : List Byte) :
    {p with resetMask := r}.Layout s0 us bs := ⟨h.rows,h.sent,h.snapPtr,h.snapshot⟩

theorem Layout.buf_length (h : Layout s0 us bs p) :
    p.buf.length = p.cnt+p.maskCnt+p.maskCntZero := by
  obtain ⟨s,-,hb,hl⟩ := h.sent
  rw [hb,List.length_append,List.length_replicate,hl]

theorem next_rows {gs : List (List (Option (List Byte)))} {cur : List (Option (List Byte))}
    {u : Option (List Byte)} (hg : ∀ g ∈ gs, g.length = 8) (hc : cur.length < 8)
    (hb : p.buf = gs.flatMap group ++ group (cur ++ [u]))
    (hm : p.maskPtr = (gs.flatMap group).length) (hk : p.mask = bitMask cur.length)
    (hr : p.resetPtr = gs.length) (n : Nat) :
    ∃ gs' cur', Rows (gs.flatten ++ cur ++ [u]) gs' cur' ∧
      (p.next n).buf = gs'.flatMap group ++ group cur' ∧
      (p.next n).maskPtr = (gs'.flatMap group).length ∧
      (p.next n).mask = bitMask cur'.length ∧ (p.next n).resetPtr = gs'.length := by
  have hz : p.mask <<< 1 = 0#8 ↔ cur.length = 7 := by
    rw [hk,bitMask_shift,bitMask_eq_zero (by omega)]
    omega
  by_cases h7 : cur.length = 7
  · refine ⟨gs ++ [cur ++ [u]],[],⟨by simp,?_,by simp⟩,?_,?_,?_,?_⟩
    · intro g hgm
      rcases List.mem_append.mp hgm with h | h
      · exact hg g h
      · simp [List.mem_singleton.mp h,h7]
    · simp [next,hz,h7,hb,group,maskOf]
    · simp [next,hz,h7,hb]
    · simp [next,hz,h7,bitMask]
    · simp [next,hz,h7,hr]
  · refine ⟨gs,cur ++ [u],⟨by simp,hg,by simp; omega⟩,?_,?_,?_,?_⟩
    · simp [next,hz,h7,hb]
    · simp [next,hz,h7,hm]
    · have hn : ¬ p.mask <<< 1 = 0#8 := fun h => h7 (hz.mp h)
      rw [next]
      dsimp only
      rw [if_neg hn,hk,bitMask_shift]
      simp
    · simp [next,hz,h7,hr]

theorem next_sent {s : List Byte} (hs : p.buf = s ++ List.replicate p.maskCntZero 0#8) (n : Nat) :
    (p.next n).buf = s ++ List.replicate (p.next n).maskCntZero 0#8 := by
  unfold next
  dsimp only
  split_ifs
  · rw [hs,List.append_assoc,← List.replicate_succ']
  · exact hs

theorem next_counts (n : Nat) : (p.next n).cnt = p.cnt ∧ (p.next n).maskCnt = p.maskCnt ∧
    (p.next n).snapPtr = p.snapPtr+n ∧ (p.next n).snapshot = p.snapshot ∧
    (p.next n).resetMask = p.resetMask := by
  unfold next
  dsimp only
  split_ifs <;> exact ⟨rfl,rfl,rfl,rfl,rfl⟩

theorem Layout.skip (h : Layout s0 us bs p) {b : List Byte}
    (hb : (s0.drop bs.flatten.length).take b.length = b) :
    Layout s0 (us ++ [none]) (bs ++ [b]) (p.next b.length) := by
  obtain ⟨gs,cur,hrows,hbuf,hm,hk,hr⟩ := h.rows
  obtain ⟨s,hs,hbs,hl⟩ := h.sent
  obtain ⟨h1,h2,h3,h4,-⟩ := @next_counts p b.length
  refine ⟨?_,⟨s,hs.snoc_none,next_sent hbs _,by rw [h1,h2,hl]⟩,?_,?_⟩
  · rw [hrows.eq]
    exact next_rows hrows.full hrows.room (by rw [group_snoc_none,hbuf]) hm hk hr _
  · rw [h3,h.snapPtr]
    simp
  · rw [h4,h.snapshot]
    have hd : s0.drop bs.flatten.length = b ++ s0.drop (bs.flatten.length+b.length) := by
      rw [← List.drop_drop]
      conv_lhs => rw [← List.take_append_drop b.length (s0.drop bs.flatten.length),hb]
    rw [hd]
    simp

theorem Layout.posted (h : Layout s0 us bs p) (b : List Byte) :
    Layout s0 (us ++ [some b]) (bs ++ [b]) ((p.post b).next b.length) := by
  obtain ⟨gs,cur,hrows,hbuf,hm,hk,hr⟩ := h.rows
  obtain ⟨h1,h2,h3,h4,-⟩ := @next_counts (p.post b) b.length
  have hpost : (p.post b).buf = gs.flatMap group ++ group (cur ++ [some b]) := by
    rw [post,hbuf,hm,hk,setBits,group_snoc_some hrows.room]
    simp [group]
  refine ⟨?_,⟨(p.post b).buf,?_,next_sent (by simp [post]) _,?_⟩,?_,?_⟩
  · rw [hrows.eq]
    exact next_rows hrows.full hrows.room hpost hm hk hr _
  · rw [hpost,hrows.eq,List.append_assoc]
    simpa using Sent.upto b 0 hrows.full hrows.room
  · have hlen := h.buf_length
    rw [h1,h2]
    simp only [post,setBits,List.length_set,List.length_append]
    omega
  · rw [h3]
    simp [post,h.snapPtr]
  · rw [h4,post,h.snapshot,h.snapPtr]
    simp [List.drop_append]

end Packing

/-- The flags of what is to be sent in any case, when `i` variables have been gone through. -/
structure Resets (r0 : List Byte) (i : Nat) (r : List Byte) : Prop where
  length : r.length = r0.length
  bit : ∀ k, bitAt r k = (decide (i ≤ k) && bitAt r0 k)

theorem resets_start (r0 : List Byte) : Resets r0 0 r0 := ⟨rfl,fun _ => by simp⟩

theorem Resets.clear {r0 r : List Byte} {p k : Nat} (h : Resets r0 (8*p+k) r) (hk : k < 8)
    (hp : p < r0.length) : Resets r0 (8*p+k+1) (Packing.clearBits r p (bitMask k)) where
  length := by rw [Packing.clearBits,List.length_set,h.length]
  bit := fun j => by
    rw [Packing.clearBits,bitAt_andNot (by rw [h.length]; exact hp) hk,h.bit]
    by_cases hj : j = 8*p+k
    · simp [hj]
    · have hle : 8*p+k+1 ≤ j ↔ 8*p+k ≤ j := by omega
      simp [hj,hle]

theorem Resets.pass {r0 r : List Byte} {i : Nat} (h : Resets r0 i r) (hi : bitAt r i = false) :
    Resets r0 (i+1) r where
  length := h.length
  bit := fun j => by
    rw [h.bit]
    by_cases hj : j = i
    · subst hj
      have h0 := h.bit j
      simp only [Nat.le_refl,decide_true,Bool.true_and] at h0
      simp [← h0,hi]
    · have hle : i+1 ≤ j ↔ i ≤ j := by omega
      simp [hle]

section
variable (casts : BitVec 32 → Byte)

def news (hd : Bool) (l : List (MVar × Cell)) : List (List Byte) :=
  l.map fun x => (x.1.pack casts hd x.2).1

/-- What is to be sent of them: those whose flag is set, and those that differ from the
snapshot. -/
def items (r0 s0 : List Byte) : Nat → Nat → List (List Byte) → List (Option (List Byte))
  | _, _, [] => []
  | i, off, b :: bs =>
    (if bitAt r0 i = true ∨ (s0.drop off).take b.length ≠ b then some b else none) ::
      items r0 s0 (i+1) (off+b.length) bs

theorem items_length (r0 s0 : List Byte) (i off : Nat) (bs : List (List Byte)) :
    (items r0 s0 i off bs).length = bs.length := by
  induction bs generalizing i off with
  | nil => rfl
  | cons b bs ih => simp [items,ih]

/-- The loop goes through `j` variables and stops there only when the next is to be sent and the
buffer has no room for it. -/
structure Packed (r0 s0 : List Byte) (maxSize : Nat) (us : List (Option (List Byte)))
    (bs : List (List Byte)) (rest : List (List Byte)) (q : Packing) (j : Nat) : Prop where
  le : j ≤ rest.length
  layout : q.Layout s0 (us ++ (items r0 s0 us.length bs.flatten.length rest).take j)
    (bs ++ rest.take j)
  length : q.resetMask.length = r0.length
  bit : ∀ k, bitAt q.resetMask k =
    (decide (k = us.length+j ∧ j < rest.length) || decide (us.length+j ≤ k) && bitAt r0 k)
  stop : ∀ b, rest[j]? = some b →
    (items r0 s0 us.length bs.flatten.length rest)[j]? = some (some b) ∧
      maxSize ≤ 2+q.buf.length+b.length

theorem Packed.cons {r0 s0 : List Byte} {maxSize : Nat} {us : List (Option (List Byte))}
    {bs : List (List Byte)} {b : List Byte} {u : Option (List Byte)} {rest : List (List Byte)}
    {q : Packing} {j : Nat} (h : Packed r0 s0 maxSize (us ++ [u]) (bs ++ [b]) rest q j)
    (hu : (if bitAt r0 us.length = true ∨ (s0.drop bs.flatten.length).take b.length ≠ b
      then some b else none) = u) : Packed r0 s0 maxSize us bs (b :: rest) q (j+1) := by
  have hl : (us ++ [u]).length = us.length+1 := by simp
  have ho : (bs ++ [b]).flatten.length = bs.flatten.length+b.length := by simp
  obtain ⟨hle,hlay,hlen,hbit,hstop⟩ := h
  rw [hl,ho] at hlay hstop
  rw [hl] at hbit
  refine ⟨Nat.succ_le_succ hle,?_,hlen,fun k => ?_,fun c hc => ?_⟩
  · rw [items,hu]
    simpa using hlay
  · rw [hbit,Nat.add_right_comm,Nat.add_assoc]
    simp
  · rw [items]
    simpa using hstop c (by simpa using hc)

variable {casts}

def Packing.unflag (p : Packing) : Packing :=
  if p.resetMask.getD p.resetPtr 0#8 &&& p.mask ≠ 0#8 then
    {p with resetMask := Packing.clearBits p.resetMask p.resetPtr p.mask} else p

/-- The variable, packed into `b`, is to be sent. -/
def Packing.Wants (p : Packing) (b : List Byte) : Prop :=
  p.resetMask.getD p.resetPtr 0#8 &&& p.mask ≠ 0#8 ∨ (p.snapshot.drop p.snapPtr).take b.length ≠ b

theorem Packing.unflag_eq (p : Packing) : p.unflag = {p with resetMask := p.unflag.resetMask} := by
  unfold unflag
  split_ifs <;> rfl

/-- What the loop does with a variable: there is no room for it, it is posted, or it is left out. -/
theorem packVars_cases (hd : Bool) (maxSize : Nat) (m : MVar) (v : Cell) (l : List (MVar × Cell))
    (p : Packing) :
    let b := (m.pack casts hd v).1
    let v' := (m.pack casts hd v).2
    (p.Wants b ∧ maxSize ≤ p.cnt+p.maskCnt+2+b.length+p.maskCntZero ∧
      packVars casts hd maxSize ((m,v) :: l) p = (v' :: l.map Prod.snd,{p.unflag with
        resetMask := Packing.setBits p.unflag.resetMask p.resetPtr p.mask})) ∨
    (p.Wants b ∧ p.cnt+p.maskCnt+2+b.length+p.maskCntZero < maxSize ∧
      packVars casts hd maxSize ((m,v) :: l) p =
        (v' :: (packVars casts hd maxSize l ((p.unflag.post b).next b.length)).1,
          (packVars casts hd maxSize l ((p.unflag.post b).next b.length)).2)) ∨
    (¬ p.Wants b ∧ packVars casts hd maxSize ((m,v) :: l) p =
      (v' :: (packVars casts hd maxSize l (p.unflag.next b.length)).1,
        (packVars casts hd maxSize l (p.unflag.next b.length)).2)) := by
  intro b v'
  have hq : (if decide (p.resetMask.getD p.resetPtr 0#8 &&& p.mask ≠ 0#8) = true then
      {p with resetMask := Packing.clearBits p.resetMask p.resetPtr p.mask} else p) = p.unflag := by
    simp only [decide_eq_true_eq]
    rfl
  have hf : (!decide (p.resetMask.getD p.resetPtr 0#8 &&& p.mask ≠ 0#8) &&
      decide ((p.unflag.snapshot.drop p.unflag.snapPtr).take b.length = b)) = true ↔
        ¬ p.Wants b := by
    rw [p.unflag_eq,Bool.and_eq_true,Bool.not_eq_true',decide_eq_false_iff_not,decide_eq_true_eq]
    simp only [Packing.Wants,not_or,ne_eq,not_not]
  rw [packVars]
  dsimp only
  rw [hq]
  have hu := p.unflag_eq
  by_cases hw : p.Wants b
  · have hn := Bool.eq_false_iff.mpr fun h => hf.mp h hw
    simp only [b] at hn
    rw [hn]
    by_cases hr : maxSize ≤ p.cnt+p.maskCnt+2+b.length+p.maskCntZero
    · refine Or.inl ⟨hw,hr,?_⟩
      rw [if_pos]
      · rw [hu]
      · rw [hu]
        simpa using hr
    · refine Or.inr (Or.inl ⟨hw,by omega,?_⟩)
      rw [if_neg,if_neg Bool.false_ne_true]
      rw [hu]
      simpa using hr
  · have hn := hf.mpr hw
    simp only [b] at hn
    rw [hn]
    refine Or.inr (Or.inr ⟨hw,?_⟩)
    rw [if_neg (by simp),if_pos rfl]

section Spec
variable {r0 s0 : List Byte} {us : List (Option (List Byte))} {bs : List (List Byte)} {p : Packing}

theorem flag_bit (hp : p.Layout s0 us bs) (hr : Resets r0 us.length p.resetMask) :
    p.resetMask.getD p.resetPtr 0#8 &&& p.mask ≠ 0#8 ↔ bitAt r0 us.length = true := by
  obtain ⟨gs,cur,hrows,-,-,hmask,hptr⟩ := hp.rows
  have hb := hr.bit us.length
  rw [decide_eq_true (Nat.le_refl _),Bool.true_and] at hb
  rw [hmask,hptr,and_bitMask hrows.room,← bitAt_place hrows.room,← hrows.length,hb]

theorem wants_iff (hp : p.Layout s0 us bs) (hr : Resets r0 us.length p.resetMask) (b : List Byte) :
    p.Wants b ↔ bitAt r0 us.length = true ∨ (s0.drop bs.flatten.length).take b.length ≠ b := by
  rw [Packing.Wants,flag_bit hp hr,hp.snapshot,hp.snapPtr,List.drop_left]

theorem unflag_layout (hp : p.Layout s0 us bs) : p.unflag.Layout s0 us bs := by
  rw [p.unflag_eq]
  exact hp.withReset _

theorem unflag_resets (hp : p.Layout s0 us bs) (hr : Resets r0 us.length p.resetMask)
    (hlen : us.length < 8*r0.length) : Resets r0 (us.length+1) p.unflag.resetMask := by
  have hflag := flag_bit hp hr
  obtain ⟨gs,cur,hrows,-,-,hmask,hptr⟩ := hp.rows
  have hi := hrows.length
  have hc := hrows.room
  unfold Packing.unflag
  split_ifs with h
  · rw [hi] at hr ⊢
    rw [hmask,hptr]
    exact hr.clear hc (by omega)
  · refine hr.pass ?_
    have hb := hr.bit us.length
    rw [hflag,Bool.not_eq_true] at h
    rw [hb,h,Bool.and_false]

theorem packed_stop (hp : p.Layout s0 us bs) (hr : Resets r0 us.length p.resetMask) {b : List Byte}
    {rest : List (List Byte)} {maxSize : Nat} (hlen : us.length < 8*r0.length) (hw : p.Wants b)
    (hroom : maxSize ≤ p.cnt+p.maskCnt+2+b.length+p.maskCntZero) :
    Packed r0 s0 maxSize us bs (b :: rest) {p.unflag with
      resetMask := Packing.setBits p.unflag.resetMask p.resetPtr p.mask} 0 := by
  have hw' := (wants_iff hp hr b).mp hw
  have hr' := unflag_resets hp hr hlen
  have hp' := unflag_layout hp
  have hl := hp'.buf_length
  obtain ⟨gs,cur,hrows,-,-,hmask,hptr⟩ := hp.rows
  have hi := hrows.length
  have hc := hrows.room
  refine ⟨Nat.zero_le _,?_,?_,fun k => ?_,fun c hc => ?_⟩
  · rw [List.take_zero,List.append_nil,List.take_zero,List.append_nil]
    exact hp'.withReset _
  · simp [Packing.setBits,hr'.length]
  · rw [hptr,hmask]
    dsimp only [Packing.setBits]
    rw [bitAt_or (by rw [hr'.length]; omega) hc,hr'.bit,← hi]
    by_cases hk : k = us.length
    · subst hk
      simp
    · have hle : us.length+1 ≤ k ↔ us.length ≤ k := by omega
      simp [hk,hle]
  · obtain rfl : b = c := by simpa using hc
    refine ⟨by rw [items,if_pos hw']; rfl,?_⟩
    rw [p.unflag_eq] at hl
    rw [p.unflag_eq]
    dsimp only at hl ⊢
    omega

theorem packVars_spec (hd : Bool) (maxSize : Nat) (l : List (MVar × Cell))
    (hp : p.Layout s0 us bs) (hr : Resets r0 us.length p.resetMask)
    (hlen : us.length+l.length ≤ 8*r0.length) :
    ∃ j, Packed r0 s0 maxSize us bs (news casts hd l) (packVars casts hd maxSize l p).2 j := by
  induction l generalizing us bs p with
  | nil =>
    refine ⟨0,⟨Nat.le_refl 0,by simpa [news,items,packVars] using hp,hr.length,fun k => ?_,?_⟩⟩
    · simp [news,packVars,hr.bit]
    · simp [news]
  | cons x l ih =>
    obtain ⟨m,v⟩ := x
    rw [List.length_cons] at hlen
    let b := (m.pack casts hd v).1
    have hnews : news casts hd ((m,v) :: l) = b :: news casts hd l := rfl
    have hp' := unflag_layout hp
    have hr' := unflag_resets hp hr (by omega)
    have hwant := wants_iff hp hr b
    rw [hnews]
    obtain ⟨hw,hroom,hres⟩ | ⟨hw,-,hres⟩ | ⟨hw,hres⟩ := packVars_cases hd maxSize m v l p
    · rw [hres]
      exact ⟨0,packed_stop hp hr (by omega) hw hroom⟩
    · obtain ⟨j,hj⟩ := ih (hp'.posted b)
        (by rw [(Packing.next_counts _).2.2.2.2,List.length_append]; exact hr')
        (by rw [List.length_append,List.length_singleton]; omega)
      rw [hres]
      exact ⟨j+1,hj.cons (if_pos (hwant.mp hw))⟩
    · have hn := mt hwant.mpr hw
      obtain ⟨j,hj⟩ := ih (hp'.skip (not_not.mp fun h => hn (Or.inr h)))
        (by rw [(Packing.next_counts _).2.2.2.2,List.length_append]; exact hr')
        (by rw [List.length_append,List.length_singleton]; omega)
      rw [hres]
      exact ⟨j+1,hj.cons (if_neg hn)⟩

end Spec

end

end ApxBus.Backport
