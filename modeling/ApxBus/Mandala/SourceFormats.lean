import ApxBus.Mandala.FormatList
import ApxBus.Mandala.Inheritance
set_option autoImplicit false

/-! The format of an identifier, of the files from which the dictionary is made. -/

namespace ApxBus.Mandala
open OrderedMap

def typeString : TypeId → String
  | .byte => "byte"
  | .word => "word"
  | .dword => "dword"
  | .real => "real"

/-- `fmt_string`. -/
def fmtString : Fmt → String
  | .none => "none"
  | .u8 => "u8"
  | .u16 => "u16"
  | .u32 => "u32"
  | .f32 => "f32"
  | .a32 => "a32"
  | .bit => "bit"
  | .u4 => "u4"
  | .f16 => "f16"
  | .s8 => "s8"
  | .s8_10 => "s8_10"
  | .s8_01 => "s8_01"
  | .s8_001 => "s8_001"
  | .u8_10 => "u8_10"
  | .u8_01 => "u8_01"
  | .u8_001 => "u8_001"
  | .s16_rad => "s16_rad"
  | .s16_rad2 => "s16_rad2"
  | .u8_u => "u8_u"
  | .s8_u => "s8_u"
  | .u16_10 => "u16_10"
  | .s8_rad => "s8_rad"

/-- The identifiers that the templates put together of a prefix and the value. -/
def typeNamed (s : String) : Option TypeId :=
  [TypeId.byte,.word,.dword,.real].find? fun t => typeString t = s

def fmtNamed (s : String) : Option Fmt := Fmt.list.find? fun f => fmtString f = s

def seqNamed (s : String) : Option (BitVec 2) :=
  [("always",seqAlways),("skip",seqSkip),("rare",seqRare),("scheduled",seqScheduled)].lookup s

def dsNamed (s : String) : Option (BitVec 3) :=
  [("aux",dsAux),("minimal",1#3),("normal",2#3),("heavy",3#3),("auto",4#3)].lookup s

def unitsGiven : Option Value → Option Units
  | none => some .none
  | some (.str units) => some (.one units)
  | some (.strs units) => some (.options units)
  | some _ => none

def given {α : Type} (named : String → Option α) : Option Value → Option (Option α)
  | none => some none
  | some (.str s) => (named s).map some
  | some _ => none

def nameGiven : Option Value → String
  | some (.str name) => name
  | _ => ""

/-- A value that is read for the element of a field, which one with the format `none` has not. -/
def givenListed {α : Type} (fmt : Option Fmt) (named : String → Option α) (v : Option Value) :
    Option (Option α) :=
  if fmt = some .none then some none else given named v

/-- The properties of a field as the templates read them; what they do not make code of is none. -/
def propsOf (get : String → Option Value) : Option Props := do
  let type ← given typeNamed (get "type")
  let fmt ← given fmtNamed (get "fmt")
  return {
    name := nameGiven (get "name")
    reserved := (get "reserved").isSome
    type := ← type
    units := ← unitsGiven (get "units")
    fmt := fmt
    seq := ← givenListed fmt seqNamed (get "seq")
    ds := ← givenListed fmt dsNamed (get "ds")}

def headOf (get : String → Option Value) : Props where
  name := nameGiven (get "name")
  reserved := (get "reserved").isSome
  type := .byte
  units := .none
  fmt := none
  seq := none
  ds := none

def Parsed.skipped : Parsed → Entry
  | leaf d => .leaf (headOf d.get)
  | group d _ => .group (headOf d.get) []

mutual

def Parsed.entry : Parsed → Option Entry
  | leaf d => (propsOf d.get).map Entry.leaf
  | group d content => (entries content).map fun content => .group (headOf d.get) content

def Parsed.entries : List Parsed → Option (List Entry)
  | [] => some []
  | e :: content =>
    (if (e.d.get "reserved").isSome then some e.skipped else e.entry).bind fun x =>
      (entries content).map (x :: ·)

end

/-- The entries of the root, where none is skipped. -/
def Parsed.rootEntries : List Parsed → Option (List Entry)
  | [] => some []
  | e :: content => e.entry.bind fun x => (rootEntries content).map (x :: ·)

/-- `data` of the templates. -/
def Parsed.dict : Parsed → Option Dict
  | leaf _ => none
  | group d content =>
    match d.get "uid_base", d.get "uid_bits" with
    | some (.int uidBase), some (.ints uidBits) =>
      (rootEntries content).map fun content => ⟨uidBase,uidBits,content⟩
    | _, _ => none

theorem entries_getElem? {content : List Parsed} {l : List Entry} {i : Nat} {y : Parsed}
    (h : Parsed.entries content = some l) (hy : content[i]? = some y)
    (hr : y.d.get "reserved" = none) : ∃ y', l[i]? = some y' ∧ y.entry = some y' := by
  induction content generalizing l i with
  | nil => cases hy
  | cons e content ih =>
    obtain ⟨x,hx,h⟩ := Option.bind_eq_some_iff.mp h
    obtain ⟨u,hu,rfl⟩ := Option.map_eq_some_iff.mp h
    cases i with
    | zero =>
      cases hy
      rw [hr,if_neg (by simp)] at hx
      exact ⟨x,rfl,hx⟩
    | succ i => exact @ih u i hu hy

theorem rootEntries_getElem? {content : List Parsed} {l : List Entry} {i : Nat} {y : Parsed}
    (h : Parsed.rootEntries content = some l) (hy : content[i]? = some y) :
    ∃ y', l[i]? = some y' ∧ y.entry = some y' := by
  induction content generalizing l i with
  | nil => cases hy
  | cons e content ih =>
    obtain ⟨x,hx,h⟩ := Option.bind_eq_some_iff.mp h
    obtain ⟨u,hu,rfl⟩ := Option.map_eq_some_iff.mp h
    cases i with
    | zero =>
      cases hy
      exact ⟨x,rfl,hx⟩
    | succ i => exact @ih u i hu hy

section
variable {e : Parsed} {e' : Entry}

theorem entry_reserved (h : e.entry = some e') : e'.d.reserved = (e.d.get "reserved").isSome := by
  cases e with
  | leaf d =>
    obtain ⟨p,hp,rfl⟩ := Option.map_eq_some_iff.mp h
    simp only [propsOf,Option.bind_eq_bind,Option.bind_eq_some_iff,Option.pure_def,
      Option.some.injEq] at hp
    obtain ⟨_,-,_,-,_,-,_,-,_,-,_,-,rfl⟩ := hp
    rfl
  | group d content =>
    obtain ⟨l,-,rfl⟩ := Option.map_eq_some_iff.mp h
    rfl

theorem entry_at (h : e.entry = some e') {pos : List Nat} {x : Parsed} (hx : e.at pos = some x)
    (hr : ∀ q, q <+: pos → q ≠ [] → ∀ y, e.at q = some y → y.d.get "reserved" = none) :
    ∃ x', e'.at pos = some x' ∧ x.entry = some x' := by
  induction pos generalizing e e' with
  | nil =>
    cases hx
    exact ⟨e',by cases e' <;> rfl,h⟩
  | cons i pos ih =>
    cases e with
    | leaf d => cases hx
    | group d content =>
      obtain ⟨l,hl,rfl⟩ := Option.map_eq_some_iff.mp h
      obtain ⟨y,hy,hx⟩ := Option.bind_eq_some_iff.mp hx
      have hnone : y.d.get "reserved" = none := by
        refine hr [i] (by simp) (by simp) y ?_
        rw [Parsed.at,hy,Option.bind_some]
        cases y <;> rfl
      obtain ⟨y',hy',hent⟩ := entries_getElem? hl hy hnone
      have hfree : y'.d.reserved = false := by
        rw [entry_reserved hent,hnone]
        rfl
      obtain ⟨x',hx',hxe⟩ := ih hent hx fun q hq hne z hz => by
        refine hr (i :: q) (List.cons_prefix_cons.mpr ⟨rfl,hq⟩) (by simp) z ?_
        rw [Parsed.at,hy,Option.bind_some,hz]
      refine ⟨x',?_,hxe⟩
      rw [Entry.at,hy',Option.bind_some,hfree]
      exact hx'

end

section
variable {data : Dict} {m : Parsed}

theorem dict_at (h : m.dict = some data) {pos : List Nat} {x : Parsed} (hpos : pos ≠ [])
    (hx : m.at pos = some x)
    (hr : ∀ q, q <+: pos → 2 ≤ q.length → ∀ y, m.at q = some y → y.d.get "reserved" = none) :
    ∃ x', data.at pos = some x' ∧ x.entry = some x' := by
  cases m with
  | leaf d => cases h
  | group d content =>
    cases pos with
    | nil => exact absurd rfl hpos
    | cons i pos =>
      rw [Parsed.dict] at h
      split at h
      · obtain ⟨l,hl,rfl⟩ := Option.map_eq_some_iff.mp h
        obtain ⟨y,hy,hx⟩ := Option.bind_eq_some_iff.mp hx
        obtain ⟨y',hy',hent⟩ := rootEntries_getElem? hl hy
        obtain ⟨x',hx',hxe⟩ := entry_at hent hx fun q hq hne z hz => by
          have hlen := List.length_pos_iff.mpr hne
          refine hr (i :: q) (List.cons_prefix_cons.mpr ⟨rfl,hq⟩) ?_ z ?_
          · rw [List.length_cons]
            omega
          · rw [Parsed.at,hy,Option.bind_some,hz]
        refine ⟨x',?_,hxe⟩
        rw [Dict.at,hy',Option.bind_some,hx']
      · cases h

theorem Dict.Fits.fmt_located (h : data.Fits) {x : List Nat × Meta} (hx : x ∈ data.located)
    (hl : x.2.d.isLeaf = true) :
    data.fmt x.2.uid = some (if x.2.listed then x.2.fmtEntry else .zero) := by
  have huid : x.2.uid ≠ 0 := by
    rw [(h.numbered x hx).uid,if_pos hl]
    exact Nat.succ_ne_zero _
  have hmem : ∀ f ∈ data.fmtList, f.uid = x.2.uid → x.2.listed = true ∧ f = x.2.fmtEntry := by
    intro f hf hu
    rcases List.mem_cons.mp hf with rfl | hf
    · exact absurd hu.symm huid
    · have hf' : f ∈ data.fmtList.tail := hf
      rw [data.fmtList_tail] at hf'
      obtain ⟨y,hy,rfl⟩ := List.mem_map.mp hf'
      obtain ⟨hy,hlisted⟩ := List.mem_filter.mp hy
      obtain rfl := h.leaf_eq hy hx (Meta.listed_leaf hlisted) hl hu
      exact ⟨hlisted,rfl⟩
  rcases fmtLookup_spec h.fmtList_pairwise x.2.uid with ⟨f,hf,hu,hres⟩ | ⟨hnone,hres⟩
  · obtain ⟨hlisted,rfl⟩ := hmem f hf hu
    rw [if_pos hlisted]
    exact hres
  · rw [if_neg]
    · exact hres
    · intro hlisted
      refine hnone x.2.fmtEntry ?_ rfl
      refine List.mem_of_mem_tail ?_
      rw [data.fmtList_tail]
      exact List.mem_map.mpr ⟨x,List.mem_filter.mpr ⟨hx,hlisted⟩,rfl⟩

theorem Dict.Fits.fmt_leaf (h : data.Fits) {pos : List Nat} {x : Meta}
    (hx : (pos,x) ∈ data.located) {p : Props} (hp : x.d = .leaf p) :
    ∃ f, data.fmt x.uid = some f ∧
      if p.fmt = some .none then f = .zero
      else f.uid = x.uid ∧ f.typeId = x.typeId ∧ f.ds = p.ds.getD dsAux ∧ f.rsv5 = 0#3 ∧
        f.fmt = (p.fmt.getD (defaultFmt x.typeId (unitsId x))).code.setWidth 6 ∧
        f.seq = p.seq.getD (defaultSeq (unitsId x)) := by
  have hleaf : x.d.isLeaf = true := by rw [hp]; rfl
  have hd : x.d.d = p := by rw [hp]; rfl
  refine ⟨_,h.fmt_located hx hleaf,?_⟩
  rw [Meta.listed,hleaf,hd]
  by_cases hnone : p.fmt = some .none
  · rw [if_pos hnone,if_neg (by simp [hnone])]
  · rw [if_neg hnone,if_pos (by simp [hnone]),Meta.fmtEntry,hd]
    exact ⟨rfl,rfl,rfl,rfl,rfl,rfl⟩

theorem chain_ne_nil {files : String → Option (List Data)} {root e : Data} {above : List Data}
    {pos : List Nat} (habove : above ≠ [])
    (hchain : root.chain files pos = some (above ++ [e])) : pos ≠ [] := by
  rintro rfl
  have hlen := congrArg List.length (Option.some.inj hchain)
  have hne := List.length_pos_iff.mpr habove
  rw [List.length_append,List.length_singleton,List.length_singleton] at hlen
  omega

/-- From the files to the search: the digits of the identifier of a leaf that is not reserved are
the indices by which it is reached, and `fmt` returns what is nearest to it on the way down, or the
zero element if the nearest format is `none`. -/
theorem fmt_of_source {files : String → Option (List Data)} {depth : Nat} {root : Data}
    (hparse : parse files depth root = .ok m) (hdict : m.dict = some data) (h : data.Fits) :
    ∃ inheritance, inheritanceOf root.d = .ok inheritance ∧
      ∀ (pos : List Nat) (above : List Data) (d : Attrs), above ≠ [] →
        root.chain files pos = some (above ++ [.leaf d]) →
        (∀ q, q <+: pos → 2 ≤ q.length → ∀ l, root.chain files q = some l →
          resolved inheritance (l.map Data.d) "reserved" = none) →
        ∃ p x f, propsOf (resolved inheritance (above.map Data.d ++ [d])) = some p ∧
          (pos,x) ∈ data.located ∧ x.d = .leaf p ∧
          x.uid = MixedRadix.value data.uidBits pos+1 ∧ data.fmt x.uid = some f ∧
          if p.fmt = some .none then f = .zero
          else f.uid = x.uid ∧ f.typeId = x.typeId ∧ f.ds = p.ds.getD dsAux ∧ f.rsv5 = 0#3 ∧
            f.fmt = (p.fmt.getD (defaultFmt x.typeId (unitsId x))).code.setWidth 6 ∧
            f.seq = p.seq.getD (defaultSeq (unitsId x)) := by
  obtain ⟨inheritance,hroot,hm,-⟩ := parse_eq_ok.mp hparse
  have hheads : Heads inheritance [] none := rfl
  have hat := construct_at hheads hm
  refine ⟨inheritance,hroot,fun pos above d habove hchain hr => ?_⟩
  have hx := hat pos
  rw [hchain,Option.map_some,Option.map_eq_some_iff] at hx
  obtain ⟨x,hx,hxd⟩ := hx
  rw [List.getLast?_append,List.getLast?_singleton,List.nil_append,List.map_append,
    Prod.mk.injEq] at hxd
  obtain ⟨x',hx',hent⟩ := dict_at hdict (chain_ne_nil habove hchain) hx fun q hq hlen y hy => by
    have hyq := hat q
    rw [hy,Option.map_some,eq_comm,Option.map_eq_some_iff] at hyq
    obtain ⟨l,hl,hyd⟩ := hyq
    rw [Prod.mk.injEq] at hyd
    rw [← hyd.1]
    exact hr q hq hlen l hl
  obtain ⟨x0,rfl⟩ : ∃ x0, x = .leaf x0 := by
    cases x with
    | leaf x0 => exact ⟨x0,rfl⟩
    | group x0 content => cases hxd.2
  obtain ⟨p,hprops,rfl⟩ := Option.map_eq_some_iff.mp hent
  rw [show x0.get = _ from hxd.1] at hprops
  obtain ⟨y,hy,hyd⟩ := Dict.mem_located.mpr hx'
  have huid := (h.numbered _ hy).uid
  rw [if_pos (show y.d.isLeaf = true by rw [hyd]; rfl)] at huid
  obtain ⟨f,hf,hthen⟩ := h.fmt_leaf hy hyd
  exact ⟨p,y,f,hprops,hy,hyd,huid,hf,hthen⟩

def smallDict : Dict where
  uidBase := 0
  uidBits := [1,2]
  content := [.group ⟨"sns",false,.byte,.none,none,none,none⟩
    [.leaf ⟨"x",false,.real,.one "rad/s",none,some seqSkip,none⟩,
      .leaf ⟨"mode",false,.real,.options ["off","on"],none,none,none⟩]]

theorem fmt_of_source_small : ∃ m, parse smallFiles 3 smallRoot = .ok m ∧
    m.dict = some smallDict ∧
    ∃ inheritance, inheritanceOf smallRoot.d = .ok inheritance ∧
      ∀ (pos : List Nat) (above : List Data) (d : Attrs), above ≠ [] →
        smallRoot.chain smallFiles pos = some (above ++ [.leaf d]) →
        (∀ q, q <+: pos → 2 ≤ q.length → ∀ l, smallRoot.chain smallFiles q = some l →
          resolved inheritance (l.map Data.d) "reserved" = none) →
        ∃ p x f, propsOf (resolved inheritance (above.map Data.d ++ [d])) = some p ∧
          (pos,x) ∈ smallDict.located ∧ x.d = .leaf p ∧
          x.uid = MixedRadix.value smallDict.uidBits pos+1 ∧ smallDict.fmt x.uid = some f ∧
          if p.fmt = some .none then f = .zero
          else f.uid = x.uid ∧ f.typeId = x.typeId ∧ f.ds = p.ds.getD dsAux ∧ f.rsv5 = 0#3 ∧
            f.fmt = (p.fmt.getD (defaultFmt x.typeId (unitsId x))).code.setWidth 6 ∧
            f.seq = p.seq.getD (defaultSeq (unitsId x)) := by
  obtain ⟨m,hm⟩ : ∃ m, parse smallFiles 3 smallRoot = .ok m ∧ m.dict = some smallDict :=
    ⟨_,rfl,rfl⟩
  have hcontent : ∀ e ∈ smallDict.content, e.Fits [2] := by decide
  exact ⟨m,hm.1,hm.2,fmt_of_source hm.1 hm.2 ⟨rfl,Nat.le_succ 1,hcontent⟩⟩

end

end ApxBus.Mandala
