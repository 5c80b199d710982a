import ApxBus.Stream
set_option autoImplicit false

/-! Writers at the end of the buffer: what a write leaves as it was, and the same writes in a
shorter buffer. -/

namespace ApxBus

theorem overwrite_take_cut {buf src : List Byte} {pos n : Nat} (hn : n ≤ buf.length)
    (h : pos+src.length ≤ n) : (overwrite buf pos src).take n = overwrite (buf.take n) pos src := by
  have hpos : min pos buf.length = pos := Nat.min_eq_left (by omega)
  unfold overwrite
  rw [List.take_append,List.take_take,List.take_of_length_le (by simp; omega),
    List.drop_take,Nat.min_eq_left (by omega),List.length_append,List.length_take,hpos]

theorem overwrite_take_behind {buf src : List Byte} {pos n : Nat} (hpos : pos ≤ buf.length)
    (h : n ≤ pos) : (overwrite buf pos src).take n = buf.take n := by
  unfold overwrite
  rw [List.append_assoc,List.take_append_of_le_length (by simp; omega),List.take_take,
    Nat.min_eq_left h]

theorem overwrite_getElem? {buf src : List Byte} {pos q : Nat} (hpos : pos ≤ buf.length)
    (hq : q < pos) : (overwrite buf pos src)[q]? = buf[q]? := by
  unfold overwrite
  rw [List.append_assoc,List.getElem?_append_left (by simp; omega),List.getElem?_take_of_lt hq]

namespace Writer
variable {w w' w1 : Writer} {n m p q : Nat}

/-- The bytes before `m` are as they were. -/
structure Keeps (m : Nat) (w w' : Writer) : Prop where
  size : w'.size = w.size
  same : ∀ q < m, w'.buf[q]? = w.buf[q]?

theorem Keeps.refl (m : Nat) (w : Writer) : Keeps m w w := ⟨rfl,fun _ _ => rfl⟩

theorem Keeps.trans (h : Keeps m w w1) (h' : Keeps p w1 w') (hle : m ≤ p) : Keeps m w w' :=
  ⟨h'.size.trans h.size,fun q hq => (h'.same q (by omega)).trans (h.same q hq)⟩

theorem keeps_writeT (h : w.pos ≤ w.size) (data : List Byte) : Keeps w.pos w (w.writeT data) := by
  refine ⟨size_writeT w data,fun q hq => ?_⟩
  unfold writeT
  split_ifs with hfull
  · rfl
  · exact overwrite_getElem? h hq

theorem keeps_write (h : w.pos ≤ w.size) (src : List Byte) : Keeps w.pos w (w.write src) :=
  ⟨size_write w src h,fun _ hq => overwrite_getElem? h hq⟩

theorem pos_put (h : w.pos ≤ w.size) (b : Byte) : (w.writeT [b]).pos = min w.size (w.pos+1) := by
  unfold writeT
  split_ifs with hfull
  · rw [List.length_singleton] at hfull
    omega
  · rw [List.length_singleton] at hfull ⊢
    dsimp only
    omega

theorem getElem?_put (h : w.pos < w.size) (b : Byte) : (w.writeT [b]).buf[w.pos]? = some b := by
  rw [writeT_fits (by rw [List.length_singleton]; omega)]
  unfold size at h
  dsimp only
  rw [overwrite,List.append_assoc,List.getElem?_append_right (by simp),List.length_take,
    Nat.min_eq_left (by omega),Nat.sub_self]
  rfl

theorem pos_write (h : w.pos ≤ w.size) (src : List Byte) :
    (w.write src).pos = min w.size (w.pos+src.length) := by
  unfold write available
  dsimp only
  rw [List.length_take]
  omega

theorem modifyAt_spec {f : Byte → Byte} (h : w.modifyAt p f = some w') :
    p < w.size ∧ w'.pos = w.pos ∧ w'.size = w.size ∧ ∀ q, q ≠ p → w'.buf[q]? = w.buf[q]? := by
  unfold modifyAt at h
  split_ifs at h with hp
  cases h
  refine ⟨hp,rfl,?_,fun q hq => ?_⟩
  · exact List.length_set
  · exact List.getElem?_set_ne (Ne.symm hq)

/-- The position is in a buffer of `n` bytes. -/
structure Within (n : Nat) (w : Writer) : Prop where
  size : w.size = n
  le : w.pos ≤ n

theorem Within.writeT (h : w.Within n) (data : List Byte) : (w.writeT data).Within n := by
  refine ⟨(size_writeT w data).trans h.size,?_⟩
  have hle := h.le
  have hsize := h.size
  unfold Writer.writeT
  split_ifs
  · exact hle
  · dsimp only
    omega

theorem Within.write (h : w.Within n) (src : List Byte) : (w.write src).Within n := by
  have hp : w.pos ≤ w.size := h.size ▸ h.le
  refine ⟨(size_write w src hp).trans h.size,?_⟩
  rw [pos_write hp,h.size]
  exact Nat.min_le_left _ _

theorem Within.reset (h : w.Within n) (p : Nat) : (w.reset p).Within n := by
  refine ⟨h.size,?_⟩
  have hsize := h.size
  unfold Writer.reset
  dsimp only
  split_ifs <;> omega

theorem Within.modifyAt (h : w.Within n) {f : Byte → Byte} (hw : w.modifyAt p f = some w') :
    w'.Within n := by
  obtain ⟨-,hpos,hsize,-⟩ := modifyAt_spec hw
  exact ⟨hsize.trans h.size,hpos.trans_le h.le⟩

theorem length_out (h : w.pos ≤ w.size) : w.out.length = w.pos := by
  rw [out,List.length_take]
  exact Nat.min_eq_left h

theorem Holds.getElem? {o o' : List Byte} {x : Byte} (h : w.Holds n (o ++ x :: o')) :
    w.buf[o.length]? = some x := by
  have hp := h.pos
  rw [List.length_append,List.length_cons] at hp
  rw [← List.getElem?_take_of_lt (show o.length < w.pos by omega)]
  change w.out[o.length]? = _
  rw [h.out,List.getElem?_append_right (Nat.le_refl _),Nat.sub_self]
  rfl

/-- The writer in a buffer that ends at `n`. -/
def cut (w : Writer) (n : Nat) : Writer := ⟨w.buf.take n,min n w.pos⟩

theorem pos_cut (w : Writer) (n : Nat) : (w.cut n).pos = min n w.pos := rfl

theorem size_cut (h : n ≤ w.size) : (w.cut n).size = n := by
  unfold size at h
  rw [cut,size,List.length_take]
  exact Nat.min_eq_left h

theorem cut_out (h : w.pos ≤ n) : (w.cut n).out = w.out := by
  unfold out cut
  rw [Nat.min_eq_right h,List.take_take,Nat.min_eq_left h]

theorem getElem?_cut (h : q < n) : (w.cut n).buf[q]? = w.buf[q]? := List.getElem?_take_of_lt h

theorem cut_writeT (hn : n ≤ w.size) {data : List Byte} (h : w.pos+data.length ≤ n) :
    (w.cut n).writeT data = (w.writeT data).cut n := by
  rw [writeT_fits (w := w) (by omega),writeT_fits (by rw [size_cut hn,pos_cut]; omega)]
  unfold cut
  dsimp only
  rw [Nat.min_eq_right (by omega),Nat.min_eq_right h,overwrite_take_cut hn h]

theorem cut_write (hn : n ≤ w.size) {src : List Byte} (h : w.pos+src.length ≤ n) :
    (w.cut n).write src = (w.write src).cut n := by
  have hc := cut_writeT hn h
  have hfit : (w.cut n).pos+src.length ≤ (w.cut n).size := by
    rw [size_cut hn,pos_cut]
    omega
  rw [writeT_fits hfit,writeT_fits (by omega)] at hc
  rw [write_fits hfit,write_fits (by omega)]
  exact hc

theorem cut_put (hn : n ≤ w.size) (hp : w.pos ≤ w.size) (b : Byte) :
    (w.cut n).writeT [b] = (w.writeT [b]).cut n := by
  by_cases h : w.pos+[b].length ≤ n
  · exact cut_writeT hn h
  · rw [List.length_singleton] at h
    have hfull : (w.cut n).pos+[b].length > (w.cut n).size := by
      rw [size_cut hn,pos_cut,List.length_singleton]
      omega
    have htake : (w.writeT [b]).buf.take n = w.buf.take n := by
      unfold writeT
      split_ifs
      · rfl
      · exact overwrite_take_behind hp (by omega)
    rw [writeT,if_pos hfull]
    unfold cut
    rw [htake,pos_put hp]
    congr 1
    omega

theorem cut_reset (hn : n ≤ w.size) (h : p ≤ n) : (w.cut n).reset p = (w.reset p).cut n := by
  unfold reset
  rw [size_cut hn,if_neg (by omega),if_neg (by omega)]
  unfold cut
  dsimp only
  rw [Nat.min_eq_right h]

theorem cut_modifyAt (hn : n ≤ w.size) (h : p < n) (f : Byte → Byte) :
    (w.cut n).modifyAt p f = (w.modifyAt p f).map fun w => w.cut n := by
  have hlen : (w.buf.take n).length = n := size_cut hn
  have hp : p < w.buf.length := Nat.lt_of_lt_of_le h hn
  have hp' : p < (w.cut n).buf.length := by
    unfold cut
    rw [hlen]
    exact h
  unfold modifyAt
  rw [dif_pos hp,dif_pos hp',Option.map_some]
  unfold cut
  dsimp only
  rw [List.take_set]
  simp only [List.get_eq_getElem,List.getElem_take]

end Writer

end ApxBus
