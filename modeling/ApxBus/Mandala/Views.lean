import ApxBus.Mandala.Numbering
set_option autoImplicit false

/-!
The trees of `MandalaMetaTree.h.j2` and `MandalaUid.hpp.j2`, and that they agree with
`mandala::meta`. Each macro is the list of the structs, namespaces and enumerators that it writes,
in the order of the text; the names of those around it come with each.
-/

namespace ApxBus.Mandala

/-- A struct of the tree; `type_t` of a group is `void`. -/
structure TreeStruct where
  path : List String
  d : Entry
  typeT : Option TypeId
  metaId : Nat

def typeT : Entry → Option TypeId
  | .group _ _ => none
  | .leaf d =>
    match d.units with
    | .none | .one _ => some d.type
    | .options units => if units = [] then some d.type else some .byte

def constantsExpand (path : List String) (metaId : Nat) (d : Entry) : TreeStruct where
  path := path
  d := d
  typeT := typeT d
  metaId := metaId

mutual

/-- `mandala_expand` and `ns.meta_id` behind it. -/
def mandalaExpand (path : List String) (metaId : Nat) : Entry → List TreeStruct × Nat
  | .leaf d => ([constantsExpand (path++[d.name]) metaId (.leaf d)],metaId+1)
  | .group d content =>
    let (structs,next) := expandStructs (path++[d.name]) (metaId+1) content
    (constantsExpand (path++[d.name]) metaId (.group d content) :: structs,next)

def expandStructs (path : List String) (metaId : Nat) : List Entry → List TreeStruct × Nat
  | [] => ([],metaId)
  | i :: content =>
    let (structs,next) := if i.d.reserved then ([],metaId) else mandalaExpand path metaId i
    let (rest,last) := expandStructs path next content
    (structs++rest,last)

end

def treeRoot (metaId : Nat) : List Entry → List TreeStruct
  | [] => []
  | i :: content =>
    let (structs,next) := mandalaExpand [] metaId i
    structs++treeRoot next content

def Dict.metaTree (data : Dict) : List TreeStruct := treeRoot 0 data.content

/-- A namespace with its `bundle`, or the enumerator of a leaf. -/
inductive UidItem where
  | space (path : List String) (bundle : Option Nat)
  | enum (path : List String) (value : Nat)
  deriving DecidableEq, Repr

mutual

def mandalaUidExpand (data : Dict) (path : List String) (level uid : Nat) :
    Entry → List UidItem
  | .leaf d => [.enum (path++[d.name]) (uid+1)]
  | .group d content =>
    -- a reserved entry without content counts as well
    let hasLeaf := content.any Entry.isLeaf
    .space (path++[d.name]) (if hasLeaf then some uid else none) ::
      expandUids data (path++[d.name]) level uid 0 content

def expandUids (data : Dict) (path : List String) (level uid index0 : Nat) :
    List Entry → List UidItem
  | [] => []
  | i :: content =>
    (if i.d.reserved then []
      else mandalaUidExpand data path (level+1) (uid+index0*2^(data.uidBits.drop (level+2)).sum) i)
      ++ expandUids data path level uid (index0+1) content

end

def uidRoot (data : Dict) (index0 : Nat) : List Entry → List UidItem
  | [] => []
  | i :: content =>
    mandalaUidExpand data [] 0 (data.uidBase+index0*2^(data.uidBits.drop 1).sum) i ++
      uidRoot data (index0+1) content

def Dict.uidTree (data : Dict) : List UidItem := uidRoot data 0 data.content

section
variable (data : Dict)

/-- The struct for an entry of `mandala::meta`. -/
def structOf (x : Meta × Nat) : TreeStruct := constantsExpand x.1.path x.2 x.1.d

mutual

theorem mandalaExpand_eq (path : List String) (metaId level uid : Nat) : ∀ e : Entry,
    mandalaExpand path metaId e =
      (((metaExpand data path level uid e).zipIdx metaId).map structOf,
        metaId+(metaExpand data path level uid e).length)
  | .leaf d => rfl
  | .group d content => by
    rw [mandalaExpand,metaExpand,expandStructs_eq (path++[d.name]) (metaId+1) level uid 0 content,
      List.zipIdx_cons,List.map_cons,List.length_cons,Nat.add_right_comm]
    rfl

theorem expandStructs_eq (path : List String) (metaId level uid index0 : Nat) :
    ∀ content : List Entry, expandStructs path metaId content =
      (((expandContent data path level uid index0 content).zipIdx metaId).map structOf,
        metaId+(expandContent data path level uid index0 content).length)
  | [] => rfl
  | i :: content => by
    rw [expandStructs,expandContent,List.zipIdx_append,List.map_append,List.length_append]
    split_ifs with hr
    · dsimp only
      rw [expandStructs_eq path metaId level uid (index0+1) content,List.zipIdx_nil,List.map_nil,
        List.length_nil,Nat.add_zero,Nat.zero_add]
      rfl
    · rw [mandalaExpand_eq path metaId (level+1)
        (uid+index0*2^(data.uidBits.drop (level+2)).sum) i]
      dsimp only
      rw [expandStructs_eq path _ level uid (index0+1) content,Nat.add_assoc]

end

theorem Dict.metaTree_eq : data.metaTree = data.meta.zipIdx.map structOf := by
  have hroot : ∀ (content : List Entry) (index0 metaId : Nat),
      treeRoot metaId content = ((metaRoot data index0 content).zipIdx metaId).map structOf := by
    intro content
    induction content with
    | nil => exact fun _ _ => rfl
    | cons i content ih =>
      intro index0 metaId
      rw [treeRoot,metaRoot,List.zipIdx_append,List.map_append,
        mandalaExpand_eq data [] metaId 0 (data.uidBase+index0*2^(data.uidBits.drop 1).sum) i]
      dsimp only
      rw [ih (index0+1)]
  exact hroot data.content 0 0

end

def Entry.Uniform : Nat → Entry → Prop
  | 0, leaf _ => True
  | n+1, group _ content => ∀ e ∈ content, e.d.reserved = false → e.Uniform n
  | _, _ => False

/-- The leaves are on the last level of `uid_bits`. -/
def Dict.Uniform (data : Dict) : Prop := ∀ e ∈ data.content, e.Uniform (data.uidBits.length-1)

theorem Entry.Fits.uniform {bs : List Nat} {e : Entry} (h : e.Fits bs) : e.Uniform bs.length := by
  induction bs generalizing e with
  | nil =>
    cases e with
    | leaf d => trivial
    | group d content => exact h.elim
  | cons b bs ih =>
    cases e with
    | leaf d => exact h.elim
    | group d content => exact fun e he hr => ih (h.2 e he hr)

theorem Dict.Fits.uniform {data : Dict} (h : data.Fits) : data.Uniform := by
  obtain ⟨-,hbits⟩ := h
  intro e he
  cases hb : data.uidBits with
  | nil =>
    rw [hb] at hbits
    rw [hbits] at he
    cases he
  | cons b bs =>
    rw [hb] at hbits
    exact (hbits.2 e he).uniform

/-- What the second view has for an entry of `mandala::meta`. -/
def itemOf (m : Meta) : UidItem :=
  match m.d with
  | .leaf _ => .enum m.path m.uid
  | .group _ content => .space m.path (if content.any Entry.isLeaf then some m.uid else none)

section
variable {data : Dict}

theorem mandalaUidExpand_eq {n : Nat} {e : Entry} (h : e.Uniform n) (path : List String)
    (level uid : Nat) (hl : level+n = data.uidBits.length-1) :
    mandalaUidExpand data path level uid e = (metaExpand data path level uid e).map itemOf := by
  induction n generalizing e path level uid with
  | zero =>
    cases e with
    | group d content => exact h.elim
    | leaf d =>
      have hgroup : ¬ level < data.uidBits.length-1 := by omega
      simp [mandalaUidExpand,metaExpand,itemOf,metaOf,hgroup]
  | succ n ih =>
    cases e with
    | leaf d => exact h.elim
    | group d content =>
      have hgroup : level < data.uidBits.length-1 := by omega
      have hloop : ∀ (content : List Entry) (index0 : Nat),
          (∀ e ∈ content, e.d.reserved = false → e.Uniform n) →
          expandUids data (path++[d.name]) level uid index0 content =
            (expandContent data (path++[d.name]) level uid index0 content).map itemOf := by
        intro content
        induction content with
        | nil => exact fun _ _ => rfl
        | cons i content ihc =>
          intro index0 hc
          rw [expandUids,expandContent,List.map_append,
            ihc (index0+1) fun e he => hc e (List.mem_cons_of_mem _ he)]
          split_ifs with hr
          · rfl
          · rw [ih (hc i List.mem_cons_self (Bool.eq_false_of_not_eq_true hr)) _ _ _ (by omega)]
      rw [mandalaUidExpand,metaExpand,List.map_cons,hloop content 0 h]
      simp [itemOf,metaOf,hgroup]

theorem Dict.Uniform.uidTree_eq (h : data.Uniform) : data.uidTree = data.meta.map itemOf := by
  have hroot : ∀ (content : List Entry) (index0 : Nat),
      (∀ e ∈ content, e.Uniform (data.uidBits.length-1)) →
      uidRoot data index0 content = (metaRoot data index0 content).map itemOf := by
    intro content
    induction content with
    | nil => exact fun _ _ => rfl
    | cons i content ih =>
      intro index0 hc
      rw [uidRoot,metaRoot,List.map_append,
        mandalaUidExpand_eq (hc i List.mem_cons_self) [] 0 _ (Nat.zero_add _),
        ih (index0+1) fun e he => hc e (List.mem_cons_of_mem _ he)]
  exact hroot data.content 0 h

end

def Entry.names : Entry → List Nat → List String
  | group d content, i :: is =>
    d.name :: match content[i]? with
      | some e => e.names is
      | none => []
  | e, _ => [e.d.name]

def Dict.names (data : Dict) : List Nat → List String
  | [] => []
  | i :: is =>
    match data.content[i]? with
    | some e => e.names is
    | none => []

section
variable {data : Dict} {m : Meta}

theorem path_locate {q : List Nat} {e : Entry} {pos : List Nat} {path : List String}
    {level uid : Nat} (h : (pos++q,m) ∈ locate data pos path level uid e) :
    m.path = path++e.names q := by
  induction q generalizing e pos path level uid with
  | nil =>
    rw [List.append_nil] at h
    rw [mem_locate_self h]
    cases e <;> rfl
  | cons i q ih =>
    have hne : pos++i :: q ≠ pos := fun h => List.cons_ne_nil i q (List.append_right_eq_self.mp h)
    cases e with
    | leaf d =>
      rw [locate,List.mem_singleton,Prod.mk.injEq] at h
      exact absurd h.1 hne
    | group d content =>
      rw [locate,List.mem_cons,Prod.mk.injEq] at h
      obtain ⟨j,e,-,he,-,h⟩ := mem_locateContent.mp (h.resolve_left fun h => hne h.1)
      have hp := pos_locate _ _ _ _ e _ h
      rw [List.prefix_append_right_inj,List.cons_prefix_cons] at hp
      obtain rfl := hp.1
      rw [List.append_cons pos j q] at h
      rw [Nat.sub_zero] at he
      rw [ih h,Entry.names,he,List.append_assoc,List.singleton_append]

theorem Dict.path_located {pos : List Nat} (h : (pos,m) ∈ data.located) :
    m.path = data.names pos := by
  obtain ⟨j,e,-,he,hm⟩ := mem_locateRoot.mp h
  obtain ⟨q,rfl⟩ := pos_locate _ _ _ _ e _ hm
  rw [path_locate hm,List.nil_append,List.singleton_append,Dict.names]
  rw [Nat.sub_zero] at he
  rw [he]

/-- Each struct refers to the entry of its own path, and for each entry of the dictionary the three
views are in the same place: the struct, the enumerator of a leaf and the `bundle` of a group with
leaves have its identifier. -/
theorem views_agree (data : Dict) (h : data.Uniform) :
    (∀ s ∈ data.metaTree, data.meta[s.metaId]?.map Meta.path = some s.path) ∧
    ∀ pos e, data.at pos = some e →
      ∃ (k : Nat) (m : Meta), data.located[k]? = some (pos,m) ∧ data.meta[k]? = some m ∧ m.d = e ∧
        m.path = data.names pos ∧ data.metaTree[k]? = some ⟨m.path,e,typeT e,k⟩ ∧
        (e.isLeaf = true → data.uidTree[k]? = some (.enum m.path m.uid)) ∧
        ∀ d content, e = .group d content → (∃ i ∈ content, i.isLeaf = true) →
          data.uidTree[k]? = some (.space m.path (some m.uid)) := by
  refine ⟨fun s hs => ?_,fun pos e hat => ?_⟩
  · rw [data.metaTree_eq] at hs
    obtain ⟨x,hx,rfl⟩ := List.mem_map.mp hs
    obtain ⟨i,hi,hget⟩ := List.mem_iff_getElem.mp hx
    rw [List.getElem_zipIdx,Nat.zero_add] at hget
    rw [List.length_zipIdx] at hi
    subst hget
    exact congrArg (Option.map Meta.path) (List.getElem?_eq_getElem hi)
  · obtain ⟨m,hm,rfl⟩ := Dict.mem_located.mpr hat
    obtain ⟨k,hk⟩ := List.mem_iff_getElem?.mp hm
    have hmeta : data.meta[k]? = some m := by
      rw [← data.located_meta,List.getElem?_map,hk]
      rfl
    refine ⟨k,m,hk,hmeta,rfl,Dict.path_located hm,?_,fun hl => ?_,fun d content he hleaf => ?_⟩
    · rw [data.metaTree_eq,List.getElem?_map,List.getElem?_zipIdx,hmeta,Nat.zero_add]
      rfl
    · rw [h.uidTree_eq,List.getElem?_map,hmeta,Option.map_some,itemOf]
      cases hd : m.d with
      | leaf d => rfl
      | group d content =>
        rw [hd] at hl
        cases hl
    · rw [h.uidTree_eq,List.getElem?_map,hmeta,Option.map_some,itemOf,he]
      dsimp only
      rw [if_pos (List.any_eq_true.mpr hleaf)]

/-- The leaf behind the reserved one. -/
theorem views_agree_small :
    small.metaTree.map TreeStruct.metaId = [0,1,2,3,4] ∧
    ∃ (k : Nat) (m : Meta), small.located[k]? = some ([0,2],m) ∧ m.path = ["a","y"] ∧
      m.uid = 3 ∧ small.uidTree[k]? = some (.enum m.path m.uid) := by
  refine ⟨by decide,?_⟩
  obtain ⟨k,m,hk,-,-,hpath,-,hleaf,-⟩ := (views_agree small small_fits.uniform).2 [0,2] _ rfl
  have huid : ∀ x ∈ small.located, x.1 = [0,2] → x.2.uid = 3 := by decide
  exact ⟨k,m,hk,hpath,huid _ (List.mem_of_getElem? hk) rfl,hleaf rfl⟩

end

end ApxBus.Mandala
