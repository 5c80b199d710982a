import ApxBus.Crc32
import Mathlib.Data.List.Basic
set_option autoImplicit false

/-! The byte streams of `xbus/XbusStream.h`, `XbusStreamWriter.h` and `XbusStreamReader.h`. -/

namespace ApxBus

/-- `memcpy` of `src` to position `pos` of the buffer. -/
def overwrite (buf : List Byte) (pos : Nat) (src : List Byte) : List Byte :=
  buf.take pos ++ src ++ buf.drop (pos+src.length)

theorem overwrite_length {buf src : List Byte} {pos : Nat} (h : pos+src.length ≤ buf.length) :
    (overwrite buf pos src).length = buf.length := by
  simp [overwrite]; omega

theorem overwrite_take {buf src : List Byte} {pos : Nat} (h : pos ≤ buf.length) :
    (overwrite buf pos src).take (pos+src.length) = buf.take pos ++ src := by
  rw [overwrite,List.take_left' (by simp; omega)]

/-- `_buf` with its `_size` bytes, and `_pos`. -/
structure Writer where
  buf : List Byte
  pos : Nat := 0
  deriving DecidableEq, Repr

namespace Writer

def size (w : Writer) : Nat := w.buf.length

def available (w : Writer) : Nat := w.size-w.pos

def reset (w : Writer) (pos : Nat) : Writer := {w with pos := if pos > w.size then w.size else pos}

/-- `write(const void *src, size_t sz)`: `sz` is cut to the bytes available. -/
def write (w : Writer) (src : List Byte) : Writer :=
  let src := src.take w.available
  ⟨overwrite w.buf w.pos src,w.pos+src.length⟩

/-- `write<_T>(data)` with the little-endian bytes of `data`: all of them or none. -/
def writeT (w : Writer) (data : List Byte) : Writer :=
  if w.pos+data.length > w.size then w
  else ⟨overwrite w.buf w.pos data,w.pos+data.length⟩

/-- Store through a pointer taken earlier from `ptr()`. The source checks nothing here:
a pointer to the end of a full buffer lies outside, which is `none`. -/
def modifyAt (w : Writer) (p : Nat) (f : Byte → Byte) : Option Writer :=
  if h : p < w.buf.length then some {w with buf := w.buf.set p (f (w.buf.get ⟨p,h⟩))} else none

def out (w : Writer) : List Byte := w.buf.take w.pos

theorem write_fits {w : Writer} {src : List Byte} (h : w.pos+src.length ≤ w.size) :
    w.write src = ⟨overwrite w.buf w.pos src,w.pos+src.length⟩ := by
  have ha : src.take w.available = src := List.take_of_length_le (by unfold available; omega)
  simp [write,ha]

theorem writeT_fits {w : Writer} {data : List Byte} (h : w.pos+data.length ≤ w.size) :
    w.writeT data = ⟨overwrite w.buf w.pos data,w.pos+data.length⟩ := by
  have ha : ¬ w.pos+data.length > w.size := by omega
  simp [writeT,ha]

theorem pos_writeT {w : Writer} {data : List Byte} (h : w.pos+data.length ≤ w.size) :
    (w.writeT data).pos = w.pos+data.length := by rw [writeT_fits h]

theorem size_write (w : Writer) (src : List Byte) (hp : w.pos ≤ w.size) :
    (w.write src).size = w.size := by
  unfold size at hp
  apply overwrite_length
  simp only [List.length_take,available,size]
  omega

theorem size_writeT (w : Writer) (data : List Byte) : (w.writeT data).size = w.size := by
  unfold writeT
  split_ifs with h
  · rfl
  · exact overwrite_length (by unfold size at h; omega)

theorem out_write {w : Writer} {src : List Byte} (h : w.pos+src.length ≤ w.size) :
    (w.write src).out = w.out ++ src := by
  rw [write_fits h]
  exact overwrite_take (by unfold size at h; omega)

theorem out_writeT {w : Writer} {data : List Byte} (h : w.pos+data.length ≤ w.size) :
    (w.writeT data).out = w.out ++ data := by
  rw [writeT_fits h]
  exact overwrite_take (by unfold size at h; omega)

/-- The bytes written so far are `o`, in a buffer of `n` bytes. -/
structure Holds (w : Writer) (n : Nat) (o : List Byte) : Prop where
  size : w.size = n
  le : w.pos ≤ n
  out : w.out = o

section Holds
variable {w : Writer} {n : Nat} {o : List Byte}

theorem Holds.pos (h : w.Holds n o) : w.pos = o.length := by
  rw [← h.out,Writer.out,List.length_take]
  exact (Nat.min_eq_left (h.le.trans h.size.ge)).symm

theorem Holds.writeT (h : w.Holds n o) (data : List Byte) (hd : o.length+data.length ≤ n) :
    (w.writeT data).Holds n (o ++ data) := by
  have hfit : w.pos+data.length ≤ w.size := by rw [h.pos,h.size]; exact hd
  refine ⟨(size_writeT w data).trans h.size,?_,by rw [out_writeT hfit,h.out]⟩
  rw [pos_writeT hfit,h.pos]
  exact hd

theorem Holds.write (h : w.Holds n o) (data : List Byte) (hd : o.length+data.length ≤ n) :
    (w.write data).Holds n (o ++ data) := by
  have hfit : w.pos+data.length ≤ w.size := by rw [h.pos,h.size]; exact hd
  rw [write_fits hfit,← writeT_fits hfit]
  exact h.writeT data hd

theorem Holds.reset {p q : List Byte} (h : w.Holds n (p ++ q)) :
    (w.reset p.length).Holds n p := by
  have hp := h.pos
  have hle := h.le
  rw [List.length_append] at hp
  have hfit : ¬ p.length > w.size := by rw [h.size]; omega
  have heq : w.reset p.length = {w with pos := p.length} := by rw [Writer.reset,if_neg hfit]
  rw [heq]
  refine ⟨h.size,?_,?_⟩
  · dsimp only
    omega
  · have hout := congrArg (List.take p.length) h.out
    rw [List.take_left,Writer.out,List.take_take,Nat.min_eq_left (by omega)] at hout
    exact hout

theorem Holds.reset_pos (h : w.Holds n o) : (w.reset w.pos).Holds n o := by
  rw [h.pos]
  exact Holds.reset (q := []) (by rw [List.append_nil]; exact h)

theorem Holds.modifyAt {p q : List Byte} {x : Byte} (h : w.Holds n (p ++ x :: q))
    (f : Byte → Byte) :
    ∃ w', w.modifyAt p.length f = some w' ∧ w'.Holds n (p ++ f x :: q) := by
  have hp := h.pos
  have hle := h.le
  rw [List.length_append,List.length_cons] at hp
  have hlt : p.length < w.buf.length := by
    have hs : w.buf.length = n := h.size
    omega
  have hget : w.out[p.length]? = some x := by
    rw [h.out,List.getElem?_append_right (Nat.le_refl _),Nat.sub_self]
    rfl
  rw [Writer.out,List.getElem?_take_of_lt (by omega),List.getElem?_eq_getElem hlt] at hget
  have hx : w.buf.get ⟨p.length,hlt⟩ = x := Option.some.inj hget
  refine ⟨{w with buf := w.buf.set p.length (f (w.buf.get ⟨p.length,hlt⟩))},
    by rw [Writer.modifyAt,dif_pos hlt],⟨?_,h.le,?_⟩⟩
  · rw [Writer.size,List.length_set]
    exact h.size
  · rw [Writer.out]
    dsimp only
    rw [List.take_set,hx,← Writer.out,h.out,List.set_append_right _ _ (Nat.le_refl _),Nat.sub_self]
    rfl

end Holds

end Writer

/-- `_buf` with its `_size` bytes, and `_pos`. -/
structure Reader where
  buf : List Byte
  pos : Nat := 0
  deriving DecidableEq, Repr

namespace Reader

def size (r : Reader) : Nat := r.buf.length

def available (r : Reader) : Nat := r.size-r.pos

def reset (r : Reader) (pos : Nat) : Reader := {r with pos := if pos > r.size then r.size else pos}

/-- The bytes from `ptr()` to the end of the stream. -/
def rest (r : Reader) : List Byte := r.buf.drop r.pos

/-- `read<_T>` of an `n`-byte type: its bytes, or zero bytes and the end of the stream when
fewer than `n` are left. -/
def readT (r : Reader) (n : Nat) : List Byte × Reader :=
  if r.pos+n > r.size then (List.replicate n 0,{r with pos := r.size})
  else (r.rest.take n,{r with pos := r.pos+n})

def read8 (r : Reader) : Byte × Reader :=
  let (b,r) := r.readT 1
  (b.getD 0 0,r)

def read16 (r : Reader) : BitVec 16 × Reader :=
  let (b,r) := r.readT 2
  (le16 (b.getD 0 0) (b.getD 1 0),r)

def read32 (r : Reader) : BitVec 32 × Reader :=
  let (b,r) := r.readT 4
  (le32 (b.getD 0 0) (b.getD 1 0) (b.getD 2 0) (b.getD 3 0),r)

/-- `read(void *dest, size_t sz)`: the bytes copied to `dest`. -/
def read (r : Reader) (sz : Nat) : List Byte × Reader :=
  let sz := if sz > r.available then r.available else sz
  (r.rest.take sz,{r with pos := r.pos+sz})

theorem rest_length (r : Reader) : r.rest.length = r.available := List.length_drop

theorem rest_readT (r : Reader) (n : Nat) : (r.readT n).2.rest = r.rest.drop n := by
  unfold readT
  by_cases h : r.pos+n > r.size
  · rw [if_pos h,List.drop_eq_nil_of_le (by rw [rest_length]; unfold available; omega)]
    exact List.drop_eq_nil_of_le (Nat.le_refl _)
  · rw [if_neg h]
    exact List.drop_drop.symm

theorem available_readT (r : Reader) (n : Nat) : (r.readT n).2.available = r.available-n := by
  rw [← rest_length,rest_readT,List.length_drop,rest_length]

theorem getD_readT (r : Reader) {n i : Nat} (hi : i < n) (h : n ≤ r.available) :
    (r.readT n).1.getD i 0 = r.rest.getD i 0 := by
  unfold readT
  unfold available at h
  rw [if_neg (by omega)]
  simp only [List.getD_eq_getElem?_getD]
  rw [List.getElem?_take_of_lt hi]

theorem read8_fst (r : Reader) : r.read8.1 = r.rest.getD 0 0#8 := by
  by_cases h : 1 ≤ r.available
  · exact r.getD_readT Nat.one_pos h
  · have hr : r.rest = [] := List.length_eq_zero_iff.mp (by rw [rest_length]; omega)
    rw [hr]
    unfold read8 readT
    unfold available at h
    by_cases hp : r.pos+1 > r.size
    · rw [if_pos hp]
      rfl
    · omega

theorem rest_read8 (r : Reader) : r.read8.2.rest = r.rest.drop 1 := r.rest_readT 1

theorem rest_read16 (r : Reader) : r.read16.2.rest = r.rest.drop 2 := r.rest_readT 2

theorem rest_read32 (r : Reader) : r.read32.2.rest = r.rest.drop 4 := r.rest_readT 4

theorem read8_cons {r : Reader} {b : Byte} {l : List Byte} (h : r.rest = b :: l) :
    r.read8.1 = b ∧ r.read8.2.rest = l := by
  rw [read8_fst,rest_read8,h]
  exact ⟨rfl,rfl⟩

theorem read16_append {r : Reader} {v : BitVec 16} {l : List Byte}
    (h : r.rest = bytes16 v ++ l) : r.read16.1 = v ∧ r.read16.2.rest = l := by
  have hlen : 2 ≤ r.available := by
    rw [← rest_length,h,List.length_append]
    exact Nat.le_add_right 2 _
  refine ⟨?_,by rw [rest_read16,h]; rfl⟩
  change le16 ((r.readT 2).1.getD 0 0) ((r.readT 2).1.getD 1 0) = v
  rw [r.getD_readT (by decide) hlen,r.getD_readT (by decide) hlen,h]
  exact le16_bytes v

theorem read32_append {r : Reader} {v : BitVec 32} {l : List Byte}
    (h : r.rest = bytes32 v ++ l) : r.read32.1 = v ∧ r.read32.2.rest = l := by
  have hlen : 4 ≤ r.available := by
    rw [← rest_length,h,List.length_append]
    exact Nat.le_add_right 4 _
  refine ⟨?_,by rw [rest_read32,h]; rfl⟩
  change le32 ((r.readT 4).1.getD 0 0) ((r.readT 4).1.getD 1 0) ((r.readT 4).1.getD 2 0)
    ((r.readT 4).1.getD 3 0) = v
  rw [r.getD_readT (by decide) hlen,r.getD_readT (by decide) hlen,r.getD_readT (by decide) hlen,
    r.getD_readT (by decide) hlen,h]
  exact le32_bytes v

theorem rest_reset_add {r : Reader} {b l : List Byte} (h : r.rest = b ++ l) :
    (r.reset (r.pos+b.length)).rest = l := by
  have hlen := r.rest_length
  rw [h,List.length_append,Reader.available] at hlen
  by_cases hb : r.pos+b.length > r.size
  · have hl : l = [] := List.eq_nil_of_length_eq_zero (by omega)
    rw [reset,if_pos hb,hl]
    exact List.drop_eq_nil_of_le (Nat.le_refl _)
  · rw [reset,if_neg hb]
    rw [Reader.rest] at h ⊢
    rw [← List.drop_drop,h,List.drop_left]

theorem available_read8 (r : Reader) : r.read8.2.available = r.available-1 := r.available_readT 1

end Reader

end ApxBus
