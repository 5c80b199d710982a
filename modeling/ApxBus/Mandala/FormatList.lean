import ApxBus.Mandala.Numbering
import Mathlib.Data.List.Nodup
set_option autoImplicit false

/-!
`fmt_list` of `MandalaPack.h.j2`, with the default formats and the binary search of
`MandalaPackBase.h`.
-/

namespace ApxBus.Mandala

/-- `units_e`, which has an element for every label of the dictionary. -/
inductive UnitsE where
  | none | bit | opt
  | label (units : String)
  deriving DecidableEq, Repr

/-- The formats that `default_fmt` returns for a label; those of the others come from the type. -/
def labelFmt : List (String × Fmt) :=
  [("A",.f16),("Ah",.u8),("bar",.u8_01),("C",.s8),("kg",.f16),("rad",.s16_rad),("radps",.s8_001),
    ("radps_sq",.s8_001),("K",.f16),("kgpm_cb",.f16),("kPa",.f16),("LpD",.f16),("m",.f16),
    ("mbar",.f16),("mps",.f16),("mps_sq",.s8),("N",.f16),("Nm",.u8),("Pa",.f16),("percent",.u8),
    ("percentph",.u8),("rad_sq",.u8_01),("rpm",.u16_10),("rpmps",.f16),("su",.s8_u),("u",.u8_u),
    ("V",.f16),("gps",.a32)]

def typeFmt : TypeId → Fmt
  | .byte => .u8
  | .word => .u16
  | .dword => .u32
  | .real => .f16

def defaultFmt (type : TypeId) : UnitsE → Fmt
  | .none => typeFmt type
  | .bit => .bit
  | .opt => .u4
  | .label units => (labelFmt.lookup units).getD (typeFmt type)

def defaultSeq (units : UnitsE) : BitVec 2 := if units = .label "C" then seqRare else seqAlways

/-- `fmt_s`. -/
structure FmtEntry extends FmtS where
  uid : Nat
  typeId : TypeId
  rsv5 : BitVec 3
  deriving DecidableEq, Repr

def FmtEntry.zero : FmtEntry := ⟨⟨0#3,0#6,0#2⟩,0,.byte,0#3⟩

def unitsId (m : Meta) : UnitsE :=
  match m.unitsLabel with
  | some units => .label units
  | none =>
    match m.d.d.units with
    | .options units => if units = [] then .none else if units.length = 2 then .bit else .opt
    | _ => .none

def Meta.listed (m : Meta) : Bool := m.d.isLeaf && m.d.d.fmt ≠ some .none

def Meta.fmtEntry (m : Meta) : FmtEntry where
  uid := m.uid
  typeId := m.typeId
  ds := m.d.d.ds.getD dsAux
  rsv5 := 0#3
  fmt := (m.d.d.fmt.getD (defaultFmt m.typeId (unitsId m))).code.setWidth 6
  seq := m.d.d.seq.getD (defaultSeq (unitsId m))

def Dict.fmtList (data : Dict) : List FmtEntry :=
  .zero :: (data.meta.filter Meta.listed).map Meta.fmtEntry

/-- `list[m]`; outside the array there is no result. -/
def elemAt (list : List FmtEntry) (m : Int) : Option FmtEntry :=
  if 0 ≤ m then list[m.toNat]? else none

/-- The loop of `fmt_lookup`; there is no result when it does not end. -/
def lookupLoop (uid : Nat) (list : List FmtEntry) : Nat → Int → Int → Option FmtEntry
  | 0, _, _ => none
  | fuel+1, l, r =>
    if l ≤ r then do
      let m := l+(r-l)/2
      let fmt ← elemAt list m
      if fmt.uid = uid then some fmt
      else if fmt.uid < uid then lookupLoop uid list fuel (m+1) r
      else lookupLoop uid list fuel l (m-1)
    else elemAt list 0

def fmtLookup (uid : Nat) (list : List FmtEntry) (size : Int) : Option FmtEntry :=
  lookupLoop uid list (size.toNat+1) 0 (size-1)

def Dict.fmt (data : Dict) (uid : Nat) : Option FmtEntry :=
  fmtLookup uid data.fmtList data.fmtList.length

variable {list : List FmtEntry} {uid : Nat}

theorem elemAt_nat (list : List FmtEntry) (i : Nat) : elemAt list i = list[i]? := by
  rw [elemAt,if_pos (Int.natCast_nonneg i),Int.toNat_natCast]

/-- In a sorted list the search ends, with the element of this identifier, which is between the
bounds, or with the first element. -/
theorem lookupLoop_spec (hs : list.Pairwise fun f f' => f.uid < f'.uid) {fuel : Nat} {l r : Int}
    (hl : 0 ≤ l) (hr : r < list.length) (hlr : l ≤ r+1) (hfuel : r-l+1 < fuel)
    (hin : ∀ (i : Nat) (f : FmtEntry), list[i]? = some f → f.uid = uid → l ≤ i ∧ i ≤ r) :
    (∃ f ∈ list, f.uid = uid ∧ lookupLoop uid list fuel l r = some f) ∨
      (∀ f ∈ list, f.uid ≠ uid) ∧ lookupLoop uid list fuel l r = list[0]? := by
  induction fuel generalizing l r with
  | zero => omega
  | succ fuel ih =>
    rw [lookupLoop]
    by_cases hle : l ≤ r
    · rw [if_pos hle]
      obtain ⟨m,hm⟩ : ∃ m : Nat, l+(r-l)/2 = m := Int.eq_ofNat_of_zero_le (by omega)
      dsimp only
      rw [hm,elemAt_nat]
      have hmlt : m < list.length := by omega
      rw [List.getElem?_eq_getElem hmlt,Option.bind_eq_bind,Option.bind_some]
      have hord : ∀ (i j : Nat) (f f' : FmtEntry), i < j → list[i]? = some f →
          list[j]? = some f' → f.uid < f'.uid := by
        intro i j f f' hij hf hf'
        obtain ⟨hi,rfl⟩ := List.getElem?_eq_some_iff.mp hf
        obtain ⟨hj,rfl⟩ := List.getElem?_eq_some_iff.mp hf'
        exact List.pairwise_iff_getElem.mp hs i j hi hj hij
      have hget := List.getElem?_eq_getElem hmlt
      by_cases heq : list[m].uid = uid
      · rw [if_pos heq]
        exact Or.inl ⟨_,List.getElem_mem hmlt,heq,rfl⟩
      rw [if_neg heq]
      by_cases hlt : list[m].uid < uid
      · rw [if_pos hlt]
        refine ih (by omega) hr (by omega) (by omega) fun i f hf huid => ?_
        obtain ⟨-,hir⟩ := hin i f hf huid
        refine ⟨?_,hir⟩
        by_contra him
        rcases Nat.lt_or_ge i m with h | h
        · have := hord i m f _ h hf hget
          omega
        · obtain rfl : i = m := by omega
          exact heq (Option.some.inj (hget.symm.trans hf) ▸ huid)
      · rw [if_neg hlt]
        refine ih hl (by omega) (by omega) (by omega) fun i f hf huid => ?_
        obtain ⟨hil,-⟩ := hin i f hf huid
        refine ⟨hil,?_⟩
        by_contra him
        rcases Nat.lt_or_ge m i with h | h
        · have := hord m i _ f h hget hf
          omega
        · obtain rfl : i = m := by omega
          exact heq (Option.some.inj (hget.symm.trans hf) ▸ huid)
    · rw [if_neg hle]
      refine Or.inr ⟨fun f hf huid => ?_,elemAt_nat list 0⟩
      obtain ⟨i,hi,rfl⟩ := List.mem_iff_getElem.mp hf
      have := hin i _ (List.getElem?_eq_getElem hi) huid
      omega

theorem fmtLookup_spec (hs : list.Pairwise fun f f' => f.uid < f'.uid) (uid : Nat) :
    (∃ f ∈ list, f.uid = uid ∧ fmtLookup uid list list.length = some f) ∨
      (∀ f ∈ list, f.uid ≠ uid) ∧ fmtLookup uid list list.length = list[0]? := by
  refine lookupLoop_spec hs le_rfl (by omega) (by omega) (by omega) fun i f hf _ => ?_
  obtain ⟨hi,-⟩ := List.getElem?_eq_some_iff.mp hf
  omega

section
variable {data : Dict} {m : Meta}

theorem Meta.listed_leaf (h : m.listed = true) : m.d.isLeaf = true :=
  (Bool.and_eq_true_iff.mp h).1

theorem Dict.Fits.leaf_pairwise (h : data.Fits) :
    (data.located.filter fun x => x.2.d.isLeaf).Pairwise fun x y => x.2.uid < y.2.uid := by
  rw [List.pairwise_filter]
  refine data.located_pairwise.imp_of_mem fun {x y} hx hy hlt hl hl' => ?_
  exact (h.numbered x hx).uid_lt (h.numbered y hy) hl hl' hlt

theorem Dict.Fits.leaf_eq (h : data.Fits) {x y : List Nat × Meta} (hx : x ∈ data.located)
    (hy : y ∈ data.located) (hl : x.2.d.isLeaf = true) (hl' : y.2.d.isLeaf = true)
    (huid : x.2.uid = y.2.uid) : x = y := by
  have hnodup : ((data.located.filter fun x => x.2.d.isLeaf).map fun x => x.2.uid).Nodup :=
    List.pairwise_map.mpr (h.leaf_pairwise.imp fun hlt => hlt.ne)
  exact List.inj_on_of_nodup_map hnodup (List.mem_filter.mpr ⟨hx,hl⟩)
    (List.mem_filter.mpr ⟨hy,hl'⟩) huid

theorem Dict.fmtList_tail (data : Dict) : data.fmtList.tail =
    (data.located.filter fun x => x.2.listed).map fun x => x.2.fmtEntry := by
  rw [fmtList,List.tail_cons,← data.located_meta,List.filter_map,List.map_map]
  rfl

theorem Dict.Fits.tail_pairwise (h : data.Fits) :
    data.fmtList.tail.Pairwise fun f f' => f.uid < f'.uid := by
  rw [data.fmtList_tail,List.pairwise_map]
  have hsub : (data.located.filter fun x => x.2.listed).Sublist
      (data.located.filter fun x => x.2.d.isLeaf) :=
    List.monotone_filter_right _ fun x hx => Meta.listed_leaf hx
  exact h.leaf_pairwise.sublist hsub

theorem Dict.Fits.fmtList_pairwise (h : data.Fits) :
    data.fmtList.Pairwise fun f f' => f.uid < f'.uid := by
  have htail := h.tail_pairwise
  rw [data.fmtList_tail] at htail
  rw [show data.fmtList = .zero :: data.fmtList.tail from rfl,data.fmtList_tail,
    List.pairwise_cons]
  refine ⟨fun f hf => ?_,htail⟩
  obtain ⟨x,hx,rfl⟩ := List.mem_map.mp hf
  obtain ⟨hx,hlisted⟩ := List.mem_filter.mp hx
  have hl := Meta.listed_leaf hlisted
  show 0 < x.2.uid
  rw [(h.numbered x hx).uid,if_pos hl]
  exact Nat.succ_pos _

end

/-- The list of formats is sorted, and `fmt` returns the element of the one leaf with this
identifier if its format is not `none`, else the zero element. -/
theorem fmt_spec (data : Dict) (h : data.Fits) :
    data.fmtList[0]? = some .zero ∧
    data.fmtList.tail.Pairwise (fun f f' => f.uid < f'.uid) ∧
    ∀ uid : Nat,
      (∃ x ∈ data.located, x.2.listed = true ∧ x.2.uid = uid ∧
        (∀ y ∈ data.located, y.2.d.isLeaf = true → y.2.uid = uid → y = x) ∧
        ∃ f, data.fmt uid = some f ∧ f.uid = uid ∧ f.typeId = x.2.typeId ∧
          f.ds = x.2.d.d.ds.getD dsAux ∧ f.rsv5 = 0#3 ∧
          f.fmt = (x.2.d.d.fmt.getD (defaultFmt x.2.typeId (unitsId x.2))).code.setWidth 6 ∧
          f.seq = x.2.d.d.seq.getD (defaultSeq (unitsId x.2))) ∨
      (∀ x ∈ data.located, x.2.listed = true → x.2.uid ≠ uid) ∧
        data.fmt uid = some .zero := by
  refine ⟨rfl,h.tail_pairwise,fun uid => ?_⟩
  have hmem : ∀ f ∈ data.fmtList, f = .zero ∨
      ∃ x ∈ data.located, x.2.listed = true ∧ x.2.fmtEntry = f := by
    intro f hf
    refine (List.mem_cons.mp hf).imp_right fun hf => ?_
    have hf' : f ∈ data.fmtList.tail := hf
    rw [data.fmtList_tail] at hf'
    obtain ⟨x,hx,rfl⟩ := List.mem_map.mp hf'
    obtain ⟨hx,hl⟩ := List.mem_filter.mp hx
    exact ⟨x,hx,hl,rfl⟩
  have hlist : ∀ x ∈ data.located, x.2.listed = true → x.2.fmtEntry ∈ data.fmtList := by
    intro x hx hl
    refine List.mem_of_mem_tail ?_
    rw [data.fmtList_tail]
    exact List.mem_map.mpr ⟨x,List.mem_filter.mpr ⟨hx,hl⟩,rfl⟩
  rcases fmtLookup_spec h.fmtList_pairwise uid with ⟨f,hf,huid,hres⟩ | ⟨hnone,hres⟩
  · rcases hmem f hf with rfl | ⟨x,hx,hl,rfl⟩
    · refine Or.inr ⟨fun x hx hl hu => ?_,hres⟩
      rw [(h.numbered x hx).uid,if_pos (Meta.listed_leaf hl),← huid] at hu
      exact absurd hu (Nat.succ_ne_zero _)
    · exact Or.inl ⟨x,hx,hl,huid,fun y hy hyl hyu =>
        h.leaf_eq hy hx hyl (Meta.listed_leaf hl) (hyu.trans huid.symm),
        _,hres,huid,rfl,rfl,rfl,rfl,rfl⟩
  · exact Or.inr ⟨fun x hx hl => hnone _ (hlist x hx hl),hres⟩

theorem fmt_spec_small :
    (small.fmt 1).map FmtEntry.uid = some 1 ∧ small.fmt 3 = some .zero ∧
    small.fmtList.tail.Pairwise (fun f f' => f.uid < f'.uid) :=
  ⟨by decide,by decide,(fmt_spec small small_fits).2.1⟩

end ApxBus.Mandala
