import ApxBus.Mandala
set_option autoImplicit false

/-!
The dictionary and the macros of `mandala/Mandala.j2` that number it, with `match` of
`MandalaTreeBase.h` and `is_bundle` of `MandalaMeta.h.j2`. Numbers are those of the templates: one
that does not fit `uid_t` is an error of the compiler. The titles and descriptions are left out.
-/

namespace ApxBus.Mandala

/-- `units` of an entry: one unit, or a name for each value. -/
inductive Units where
  | none
  | one (units : String)
  | options (units : List String)
  deriving DecidableEq, Repr

/-- The properties of an entry of the dictionary, `content` apart. -/
structure Props where
  name : String
  reserved : Bool
  type : TypeId
  units : Units
  fmt : Option Fmt
  seq : Option (BitVec 2)
  ds : Option (BitVec 3)
  deriving DecidableEq, Repr

/-- An entry; `content` is defined for a group only. -/
inductive Entry where
  | leaf (d : Props)
  | group (d : Props) (content : List Entry)

namespace Entry

def d : Entry → Props
  | leaf d => d
  | group d _ => d

def isLeaf : Entry → Bool
  | leaf _ => true
  | group _ _ => false

end Entry

/-- `data`, the root of the dictionary. -/
structure Dict where
  uidBase : Nat
  uidBits : List Nat
  content : List Entry

/-- What `mandala_meta_expand` passes to its caller. -/
structure Meta where
  d : Entry
  path : List String
  uid : Nat
  mask : Nat
  level : Nat
  group : Bool
  typeId : TypeId
  unitsLabel : Option String
  unitsCnt : Nat

def unitsLabel (units : String) : String :=
  (((units.replace "/" "p").replace "%" "percent").replace "^2" "_sq").replace "^3" "_cb"

/-- The three values that depend on the units: `type_id`, `units_label` and `units_cnt`. An empty
text or list counts as undefined. -/
def unitsOf : Entry → TypeId × Option String × Nat
  | .group _ _ => (.byte,none,0)
  | .leaf d =>
    match d.units with
    | .none => (d.type,none,0)
    | .one units => if units = "" then (d.type,none,0) else (d.type,some (unitsLabel units),1)
    | .options units => if units = [] then (d.type,none,0) else (.byte,none,units.length)

def metaOf (data : Dict) (d : Entry) (path : List String) (level uid : Nat) : Meta :=
  let group : Bool := level < data.uidBits.length-1
  let (typeId,unitsLabel,unitsCnt) := unitsOf d
  {d := d
   path := path
   uid := if group then uid else uid+1
   mask := 2^data.uidBits.sum-1-(2^(data.uidBits.drop (level+1)).sum-1)+data.uidBase
   level := level
   group := group
   typeId := typeId
   unitsLabel := unitsLabel
   unitsCnt := unitsCnt}

mutual

/-- `mandala_meta_expand`, as the list of its calls of `caller`. -/
def metaExpand (data : Dict) (path : List String) (level uid : Nat) : Entry → List Meta
  | .leaf d => [metaOf data (.leaf d) (path++[d.name]) level uid]
  | .group d content =>
    metaOf data (.group d content) (path++[d.name]) level uid ::
      expandContent data (path++[d.name]) level uid 0 content

/-- The loop over `d.content`, from `loop.index0` on. -/
def expandContent (data : Dict) (path : List String) (level uid index0 : Nat) :
    List Entry → List Meta
  | [] => []
  | i :: content =>
    (if i.d.reserved then []
      else metaExpand data path (level+1) (uid+index0*2^(data.uidBits.drop (level+2)).sum) i) ++
      expandContent data path level uid (index0+1) content

end

/-- The loop of `mandala_meta` over the entries of the root, from `loop.index0` on. -/
def metaRoot (data : Dict) (index0 : Nat) : List Entry → List Meta
  | [] => []
  | i :: content =>
    metaExpand data [] 0 (data.uidBase+index0*2^(data.uidBits.drop 1).sum) i ++
      metaRoot data (index0+1) content

def Dict.meta (data : Dict) : List Meta := metaRoot data 0 data.content

def Meta.treeMatch (m : Meta) (uid : Nat) : Bool := (uid &&& m.mask) = m.uid

/-- `is_bundle`, with the bits of the last level. -/
def Dict.isBundle (data : Dict) (uid : Nat) : Bool :=
  (uid &&& ((1 <<< data.uidBits.getLastD 0)-1)) = 0

end ApxBus.Mandala
