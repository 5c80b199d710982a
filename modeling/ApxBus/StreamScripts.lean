import ApxBus.StreamString
import ApxBus.WireRecords
set_option autoImplicit false

/-!
Sequences of calls on a writer, and the same calls on a reader of what was written:
`XbusStreamWriter` and `XbusStreamReader` with all their kinds of data.
-/

namespace ApxBus

def le64 (b0 b1 b2 b3 b4 b5 b6 b7 : Byte) : BitVec 64 := le32 b4 b5 b6 b7 ++ le32 b0 b1 b2 b3

def bytes64 (v : BitVec 64) : List Byte :=
  bytes32 (v.extractLsb' 0 32) ++ bytes32 (v.extractLsb' 32 32)

def Reader.read64 (r : Reader) : BitVec 64 × Reader :=
  let (b,r) := r.readT 8
  (le64 (b.getD 0 0) (b.getD 1 0) (b.getD 2 0) (b.getD 3 0) (b.getD 4 0) (b.getD 5 0) (b.getD 6 0)
    (b.getD 7 0),r)

/-- What is written with one call: a value of a type, a record, bytes, or a string, which is read
with a maximal size. -/
inductive Item where
  | u8 (v : Byte)
  | u16 (v : BitVec 16)
  | u32 (v : BitVec 32)
  | u64 (v : BitVec 64)
  | struct (b : Byte) (data : List Byte)
  | raw (src : List Byte)
  | str (s : List Byte) (maxSize : Nat)
  deriving DecidableEq, Repr

inductive ReadCall where
  | u8 | u16 | u32 | u64
  | struct (size : Nat)
  | raw (sz : Nat)
  | str (maxSize : Nat)
  deriving DecidableEq, Repr

inductive Got where
  | u8 (v : Byte)
  | u16 (v : BitVec 16)
  | u32 (v : BitVec 32)
  | u64 (v : BitVec 64)
  | struct (data : List Byte)
  | raw (data : List Byte)
  | str (s : Option (List Byte))
  deriving DecidableEq, Repr

def Writer.writeSize (w : Writer) (data : List Byte) : Nat × Writer :=
  (if w.pos+data.length > w.size then 0 else data.length,w.writeT data)

namespace Item

def write (w : Writer) : Item → Nat × Writer
  | u8 v => w.writeSize [v]
  | u16 v => w.writeSize (bytes16 v)
  | u32 v => w.writeSize (bytes32 v)
  | u64 v => w.writeSize (bytes64 v)
  | struct b data => w.writeSize (b :: data)
  | raw src => (min src.length w.available,w.write src)
  | str s _ => w.writeString (s ++ [0#8])

def call : Item → ReadCall
  | u8 _ => .u8
  | u16 _ => .u16
  | u32 _ => .u32
  | u64 _ => .u64
  | struct _ data => .struct (data.length+1)
  | raw src => .raw src.length
  | str _ maxSize => .str maxSize

def bytes : Item → List Byte
  | u8 v => [v]
  | u16 v => bytes16 v
  | u32 v => bytes32 v
  | u64 v => bytes64 v
  | struct b data => b :: data
  | raw src => src
  | str s _ => s ++ [0#8]

def room : Item → Nat
  | str s _ => s.length+2
  | i => i.bytes.length

def got : Item → Got
  | u8 v => .u8 v
  | u16 v => .u16 v
  | u32 v => .u32 v
  | u64 v => .u64 v
  | struct b data => .struct (b :: data)
  | raw src => .raw src
  | str s _ => .str (some s)

/-- What is read where there was no room for the whole: zero, the bytes that were written, or no
string. -/
def cut (available : Nat) : Item → Got
  | u8 _ => .u8 0#8
  | u16 _ => .u16 0#16
  | u32 _ => .u32 0#32
  | u64 _ => .u64 0#64
  | struct _ data => .struct (List.replicate (data.length+1) 0#8)
  | raw src => .raw (src.take available)
  | str _ _ => .str none

def isString : Item → Bool
  | str _ _ => true
  | _ => false

end Item

def ReadCall.read (signed : Bool) (r : Reader) : ReadCall → Option (Got × Reader)
  | u8 => some (r.read8.map Got.u8 id)
  | u16 => some (r.read16.map Got.u16 id)
  | u32 => some (r.read32.map Got.u32 id)
  | u64 => some (r.read64.map Got.u64 id)
  | struct size => some ((r.readT size).map Got.struct id)
  | raw sz => some ((r.read sz).map Got.raw id)
  | str maxSize => (r.readString signed maxSize).map fun x => x.map Got.str id

/-- What is received when that many bytes were free: from the first for which there was no room on
nothing, though there may have been room for others. -/
def received (available : Nat) : List Item → List Got
  | [] => []
  | i :: items =>
    if i.room ≤ available then i.got :: received (available-i.bytes.length) items
    else i.cut available :: items.map (Item.cut 0)

def Clear (available : Nat) : List Item → Prop
  | [] => True
  | i :: items =>
    if i.room ≤ available then Clear (available-i.bytes.length) items else i.isString = false

def Item.part (available : Nat) : Item → List Byte
  | raw src => src.take available
  | _ => []

def Item.put (available : Nat) (i : Item) : List Byte :=
  if i.room ≤ available then i.bytes else i.part available

namespace Writer
variable {w : Writer}

end Writer

namespace Item
variable {w : Writer}

end Item

namespace Reader
variable {r : Reader}

end Reader

section
variable {signed : Bool} {r : Reader} {i : Item} {l : List Byte}

end

end ApxBus
