import ApxBus.Mandala.Dictionary
import ApxBus.MixedRadix
set_option autoImplicit false

/-!
The identifiers of a dictionary: an entry is reached by the indices of the loops, and these are the
digits of its identifier.
-/

namespace ApxBus.Mandala
open MixedRadix

/-- A list of the given depth does not have more entries than identifiers; on the last level one
identifier is not used. -/
def Entry.SizeFits (b : Nat) (bs : List Nat) (content : List Entry) : Prop :=
  content.length ≤ if bs = [] then 2^b-1 else 2^b

/-- Below the entry all leaves are on the last level, and the lists fit; these are the bits of the
levels below. -/
def Entry.Fits : List Nat → Entry → Prop
  | [], leaf _ => True
  | b :: bs, group _ content =>
    SizeFits b bs content ∧ ∀ e ∈ content, e.d.reserved = false → e.Fits bs
  | _, _ => False

def Dict.Fits (data : Dict) : Prop :=
  data.uidBase = 0 ∧
  match data.uidBits with
  | [] => data.content = []
  | b :: bs => Entry.SizeFits b bs data.content ∧ ∀ e ∈ data.content, e.Fits bs

instance : ∀ (bs : List Nat) (e : Entry), Decidable (e.Fits bs)
  | [], .leaf _ => inferInstanceAs (Decidable True)
  | [], .group _ _ => inferInstanceAs (Decidable False)
  | _ :: _, .leaf _ => inferInstanceAs (Decidable False)
  | b :: bs, .group _ content =>
    have : ∀ e : Entry, Decidable (e.Fits bs) := fun e => instDecidableFits bs e
    inferInstanceAs (Decidable (content.length ≤ (if bs = [] then 2^b-1 else 2^b) ∧
      ∀ e ∈ content, e.d.reserved = false → e.Fits bs))

mutual

/-- `metaExpand`, with the indices by which each entry is reached. -/
def locate (data : Dict) (pos : List Nat) (path : List String) (level uid : Nat) :
    Entry → List (List Nat × Meta)
  | .leaf d => [(pos,metaOf data (.leaf d) (path++[d.name]) level uid)]
  | .group d content =>
    (pos,metaOf data (.group d content) (path++[d.name]) level uid) ::
      locateContent data pos (path++[d.name]) level uid 0 content

def locateContent (data : Dict) (pos : List Nat) (path : List String) (level uid index0 : Nat) :
    List Entry → List (List Nat × Meta)
  | [] => []
  | i :: content =>
    (if i.d.reserved then []
      else locate data (pos++[index0]) path (level+1)
        (uid+index0*2^(data.uidBits.drop (level+2)).sum) i) ++
      locateContent data pos path level uid (index0+1) content

end

def locateRoot (data : Dict) (index0 : Nat) : List Entry → List (List Nat × Meta)
  | [] => []
  | i :: content =>
    locate data [index0] [] 0 (data.uidBase+index0*2^(data.uidBits.drop 1).sum) i ++
      locateRoot data (index0+1) content

/-- All entries that `mandala_meta` expands, in its order. -/
def Dict.located (data : Dict) : List (List Nat × Meta) := locateRoot data 0 data.content

mutual

theorem locate_meta (data : Dict) (pos : List Nat) (path : List String) (level uid : Nat) :
    ∀ e : Entry,
      (locate data pos path level uid e).map Prod.snd = metaExpand data path level uid e
  | .leaf d => rfl
  | .group d content => by
    rw [locate,metaExpand,List.map_cons,locateContent_meta]

theorem locateContent_meta (data : Dict) (pos : List Nat) (path : List String)
    (level uid index0 : Nat) : ∀ content : List Entry,
      (locateContent data pos path level uid index0 content).map Prod.snd =
        expandContent data path level uid index0 content
  | [] => rfl
  | i :: content => by
    rw [locateContent,expandContent,List.map_append,locateContent_meta]
    split_ifs
    · rfl
    · rw [locate_meta]

end

theorem Dict.located_meta (data : Dict) : data.located.map Prod.snd = data.meta := by
  have hroot : ∀ (content : List Entry) (index0 : Nat),
      (locateRoot data index0 content).map Prod.snd = metaRoot data index0 content := by
    intro content
    induction content with
    | nil => exact fun _ => rfl
    | cons i content ih =>
      intro index0
      rw [locateRoot,metaRoot,List.map_append,locate_meta,ih]
  exact hroot data.content 0

theorem getElem?_cons_sub {α : Type} {x : α} {l : List α} {i k : Nat} (h : k+1 ≤ i) :
    (x :: l)[i-k]? = l[i-(k+1)]? := by
  rw [show i-k = i-(k+1)+1 by omega]
  rfl

theorem mem_locateContent {data : Dict} {pos : List Nat} {path : List String}
    {level uid index0 : Nat} {content : List Entry} {x : List Nat × Meta} :
    x ∈ locateContent data pos path level uid index0 content ↔
      ∃ i e, index0 ≤ i ∧ content[i-index0]? = some e ∧ e.d.reserved = false ∧
        x ∈ locate data (pos++[i]) path (level+1)
          (uid+i*2^(data.uidBits.drop (level+2)).sum) e := by
  induction content generalizing index0 with
  | nil => simp [locateContent]
  | cons e content ih =>
    rw [locateContent,List.mem_append,ih]
    constructor
    · rintro (h | ⟨i,e',hi,he',h⟩)
      · split_ifs at h with hr
        · cases h
        · exact ⟨index0,e,le_rfl,by rw [Nat.sub_self]; rfl,Bool.eq_false_of_not_eq_true hr,h⟩
      · exact ⟨i,e',Nat.le_of_succ_le hi,(getElem?_cons_sub hi).trans he',h⟩
    · rintro ⟨i,e',hi,he',hr,h⟩
      rcases Nat.eq_or_lt_of_le hi with rfl | hlt
      · rw [Nat.sub_self,List.getElem?_cons_zero,Option.some.injEq] at he'
        rw [he',if_neg (Bool.eq_false_iff.mp hr)]
        exact Or.inl h
      · exact Or.inr ⟨i,e',hlt,(getElem?_cons_sub hlt).symm.trans he',hr,h⟩

theorem mem_locateRoot {data : Dict} {index0 : Nat} {content : List Entry} {x : List Nat × Meta} :
    x ∈ locateRoot data index0 content ↔
      ∃ i e, index0 ≤ i ∧ content[i-index0]? = some e ∧
        x ∈ locate data [i] [] 0 (data.uidBase+i*2^(data.uidBits.drop 1).sum) e := by
  induction content generalizing index0 with
  | nil => simp [locateRoot]
  | cons e content ih =>
    rw [locateRoot,List.mem_append,ih]
    constructor
    · rintro (h | ⟨i,e',hi,he',h⟩)
      · exact ⟨index0,e,le_rfl,by rw [Nat.sub_self]; rfl,h⟩
      · exact ⟨i,e',Nat.le_of_succ_le hi,(getElem?_cons_sub hi).trans he',h⟩
    · rintro ⟨i,e',hi,he',h⟩
      rcases Nat.eq_or_lt_of_le hi with rfl | hlt
      · rw [Nat.sub_self,List.getElem?_cons_zero,Option.some.injEq] at he'
        exact Or.inl (he' ▸ h)
      · exact Or.inr ⟨i,e',hlt,(getElem?_cons_sub hlt).symm.trans he',h⟩

/-- The indices are the digits of the identifier; a leaf adds one, which the last digit can
take. -/
structure Numbered (data : Dict) (pos : List Nat) (m : Meta) : Prop where
  fits : MixedRadix.Fits data.uidBits pos
  uid : m.uid = value data.uidBits pos+if m.d.isLeaf then 1 else 0
  mask : m.mask = 2^data.uidBits.sum-2^(data.uidBits.drop pos.length).sum
  group : m.group = !m.d.isLeaf
  leaf : m.d.isLeaf = true →
    ∃ q i, pos = q++[i] ∧ q.length+1 = data.uidBits.length ∧
      MixedRadix.Fits data.uidBits (q++[i+1])
  inner : m.d.isLeaf = false → pos.length < data.uidBits.length

/-- What stands for an entry in a dictionary that fits: its last index is one of a list that
fits. -/
structure Placed (data : Dict) (b : Nat) (bs q : List Nat) (i : Nat) (e : Entry) : Prop where
  drop : data.uidBits.drop q.length = b :: bs
  fits : MixedRadix.Fits data.uidBits q
  index : i < if bs = [] then 2^b-1 else 2^b
  entry : e.Fits bs

section
variable {data : Dict} {b i uid : Nat} {bs q : List Nat} {e : Entry}

theorem Placed.drop_succ (h : Placed data b bs q i e) : data.uidBits.drop (q.length+1) = bs := by
  rw [← List.tail_drop,h.drop,List.tail_cons]

theorem Placed.getElem (h : Placed data b bs q i e) : data.uidBits[q.length]? = some b := by
  rw [← List.head?_drop,h.drop,List.head?_cons]

theorem Placed.length (h : Placed data b bs q i e) :
    q.length+1+bs.length = data.uidBits.length := by
  have hlen := congrArg List.length h.drop
  rw [List.length_drop,List.length_cons] at hlen
  omega

theorem Placed.fits_concat (h : Placed data b bs q i e) :
    MixedRadix.Fits data.uidBits (q++[i]) := by
  have hi := h.index
  refine (MixedRadix.fits_concat h.getElem).mpr ⟨h.fits,?_⟩
  split_ifs at hi <;> omega

theorem Placed.meta_numbered (hbase : data.uidBase = 0) (h : Placed data b bs q i e)
    (path : List String) (huid : uid = value data.uidBits (q++[i])) :
    Numbered data (q++[i]) (metaOf data e path q.length uid) := by
  have hlen := h.length
  have hmask : 2^data.uidBits.sum-1-(2^(data.uidBits.drop (q.length+1)).sum-1)+data.uidBase =
      2^data.uidBits.sum-2^(data.uidBits.drop (q++[i]).length).sum := by
    have hpos := Nat.two_pow_pos (data.uidBits.drop (q.length+1)).sum
    rw [hbase,List.length_append,List.length_singleton]
    omega
  have hent := h.entry
  cases e with
  | leaf d =>
    cases bs with
    | cons b' bs => exact hent.elim
    | nil =>
      rw [List.length_nil] at hlen
      have hgroup : ¬ q.length < data.uidBits.length-1 := by omega
      have hi := h.index
      rw [if_pos rfl] at hi
      refine ⟨h.fits_concat,?_,hmask,?_,fun _ => ⟨q,i,rfl,hlen,?_⟩,fun hl => ?_⟩
      · simp [metaOf,hgroup,huid,Entry.isLeaf]
      · simp [metaOf,hgroup,Entry.isLeaf]
      · exact (MixedRadix.fits_concat h.getElem).mpr ⟨h.fits,by omega⟩
      · cases hl
  | group d content =>
    cases bs with
    | nil => exact hent.elim
    | cons b' bs =>
      rw [List.length_cons] at hlen
      have hgroup : q.length < data.uidBits.length-1 := by omega
      refine ⟨h.fits_concat,?_,hmask,?_,fun hl => ?_,fun _ => ?_⟩
      · simp [metaOf,hgroup,huid,Entry.isLeaf]
      · simp [metaOf,hgroup,Entry.isLeaf]
      · cases hl
      · rw [List.length_append,List.length_singleton]
        omega

theorem Placed.numbered (hbase : data.uidBase = 0) (h : Placed data b bs q i e)
    (path : List String) (huid : uid = value data.uidBits (q++[i])) :
    ∀ x ∈ locate data (q++[i]) path q.length uid e, Numbered data x.1 x.2 := by
  induction bs generalizing b q i e path uid with
  | nil =>
    cases e with
    | group d content => exact h.entry.elim
    | leaf d =>
      intro x hx
      rw [locate,List.mem_singleton] at hx
      rw [hx]
      exact h.meta_numbered hbase _ huid
  | cons b' bs ih =>
    cases e with
    | leaf d => exact h.entry.elim
    | group d content =>
      intro x hx
      rw [locate,List.mem_cons] at hx
      rcases hx with rfl | hx
      · exact h.meta_numbered hbase _ huid
      · obtain ⟨j,e,-,he,hr,hx⟩ := mem_locateContent.mp hx
        obtain ⟨hsize,hcontent⟩ := h.entry
        obtain ⟨hj,-⟩ := List.getElem?_eq_some_iff.mp he
        have hdrop := h.drop_succ
        have hlen : (q++[i]).length = q.length+1 := by simp
        have hchild : Placed data b' bs (q++[i]) j e :=
          ⟨by rw [hlen,hdrop],h.fits_concat,Nat.lt_of_lt_of_le hj hsize,
            hcontent e (List.mem_of_getElem? he) hr⟩
        rw [← hlen] at hx
        refine ih hchild _ ?_ x hx
        have hl := hchild.length
        rw [value_concat _ _ _ (by omega),hlen,huid]

theorem Dict.Fits.numbered (h : data.Fits) : ∀ x ∈ data.located, Numbered data x.1 x.2 := by
  obtain ⟨hbase,hbits⟩ := h
  intro x hx
  obtain ⟨j,e,-,he,hx⟩ := mem_locateRoot.mp hx
  obtain ⟨hj,-⟩ := List.getElem?_eq_some_iff.mp he
  cases hb : data.uidBits with
  | nil =>
    rw [hb] at hbits
    rw [hbits] at hj
    exact absurd hj (Nat.not_lt_zero _)
  | cons b bs =>
    rw [hb] at hbits
    have hroot : Placed data b bs [] j e :=
      ⟨hb,fits_nil _,Nat.lt_of_lt_of_le hj hbits.1,hbits.2 e (List.mem_of_getElem? he)⟩
    refine hroot.numbered hbase [] ?_ x hx
    have hl := hroot.length
    rw [value_concat _ _ _ (by rw [List.length_nil] at hl ⊢; omega),hbase,value_nil]
    rfl

end

theorem lt_append_cons (pos : List Nat) {i : Nat} {l : List Nat} (h : pos++[i] <+: l) :
    pos < l := by
  obtain ⟨t,rfl⟩ := h
  have hlt := @List.append_left_lt _ _ pos _ _ (List.nil_lt_cons i t)
  simpa using hlt

theorem append_lt_append {pos : List Nat} {i j : Nat} {l l' : List Nat} (hij : i < j)
    (h : pos++[i] <+: l) (h' : pos++[j] <+: l') : l < l' := by
  obtain ⟨t,rfl⟩ := h
  obtain ⟨t',rfl⟩ := h'
  rw [List.append_assoc,List.append_assoc]
  exact List.append_left_lt (List.cons_lt_cons_iff.mpr (Or.inl hij))

section
variable {data : Dict} {x : List Nat × Meta}

mutual

theorem pos_locate (pos : List Nat) (path : List String) (level uid : Nat) :
    ∀ e : Entry, ∀ x ∈ locate data pos path level uid e, pos <+: x.1
  | .leaf d, x, hx => by
    rw [locate,List.mem_singleton] at hx
    subst hx
    exact List.prefix_rfl
  | .group d content, x, hx => by
    rw [locate,List.mem_cons] at hx
    rcases hx with rfl | hx
    · exact List.prefix_rfl
    · obtain ⟨i,-,hi⟩ := pos_locateContent pos _ level uid 0 content x hx
      exact (List.prefix_append pos [i]).trans hi

theorem pos_locateContent (pos : List Nat) (path : List String) (level uid index0 : Nat) :
    ∀ content : List Entry, ∀ x ∈ locateContent data pos path level uid index0 content,
      ∃ i, index0 ≤ i ∧ pos++[i] <+: x.1
  | [], _, hx => nomatch hx
  | e :: content, x, hx => by
    rw [locateContent,List.mem_append] at hx
    rcases hx with hx | hx
    · split_ifs at hx
      · cases hx
      · exact ⟨index0,le_rfl,pos_locate _ _ _ _ e x hx⟩
    · obtain ⟨i,hi,hp⟩ := pos_locateContent pos path level uid (index0+1) content x hx
      exact ⟨i,by omega,hp⟩

end

mutual

theorem locate_pairwise (pos : List Nat) (path : List String) (level uid : Nat) :
    ∀ e : Entry, (locate data pos path level uid e).Pairwise fun x y => x.1 < y.1
  | .leaf d => List.pairwise_singleton _ _
  | .group d content => by
    rw [locate,List.pairwise_cons]
    refine ⟨fun x hx => ?_,locateContent_pairwise pos _ level uid 0 content⟩
    obtain ⟨i,-,hp⟩ := pos_locateContent pos _ level uid 0 content x hx
    exact lt_append_cons pos hp

theorem locateContent_pairwise (pos : List Nat) (path : List String) (level uid index0 : Nat) :
    ∀ content : List Entry,
      (locateContent data pos path level uid index0 content).Pairwise fun x y => x.1 < y.1
  | [] => List.Pairwise.nil
  | e :: content => by
    rw [locateContent,List.pairwise_append]
    refine ⟨?_,locateContent_pairwise pos path level uid (index0+1) content,fun x hx y hy => ?_⟩
    · split_ifs
      · exact List.Pairwise.nil
      · exact locate_pairwise _ _ _ _ e
    · obtain ⟨j,hj,hp⟩ := pos_locateContent pos path level uid (index0+1) content y hy
      split_ifs at hx
      · cases hx
      · exact append_lt_append hj (pos_locate _ _ _ _ e x hx) hp

end

def Entry.at : Entry → List Nat → Option Entry
  | e, [] => some e
  | leaf _, _ :: _ => none
  | group _ content, i :: is =>
    content[i]?.bind fun e => if e.d.reserved then none else e.at is

def Dict.at (data : Dict) : List Nat → Option Entry
  | [] => none
  | i :: is => data.content[i]?.bind fun e => e.at is

theorem mem_locate_self {e : Entry} {pos : List Nat} {path : List String} {level uid : Nat}
    {m : Meta} (h : (pos,m) ∈ locate data pos path level uid e) :
    m = metaOf data e (path++[e.d.name]) level uid := by
  cases e with
  | leaf d =>
    rw [locate,List.mem_singleton,Prod.mk.injEq] at h
    exact h.2
  | group d content =>
    rw [locate,List.mem_cons,Prod.mk.injEq] at h
    rcases h with ⟨-,h⟩ | h
    · exact h
    · obtain ⟨i,-,hp⟩ := pos_locateContent pos _ level uid 0 content _ h
      have hlen := hp.length_le
      rw [List.length_append] at hlen
      exact absurd hlen (Nat.not_succ_le_self _)

theorem mem_locate {q : List Nat} {e e' : Entry} (pos : List Nat) (path : List String)
    (level uid : Nat) :
    (∃ m, (pos++q,m) ∈ locate data pos path level uid e ∧ m.d = e') ↔ e.at q = some e' := by
  induction q generalizing e pos path level uid with
  | nil =>
    rw [List.append_nil,Entry.at,Option.some.injEq]
    constructor
    · rintro ⟨m,hm,rfl⟩
      exact (congrArg Meta.d (mem_locate_self hm)).symm
    · rintro rfl
      cases e with
      | leaf d => exact ⟨_,List.mem_singleton_self _,rfl⟩
      | group d content => exact ⟨_,List.mem_cons_self,rfl⟩
  | cons i q ih =>
    have hne : pos++i :: q ≠ pos := fun h => List.cons_ne_nil i q (List.append_right_eq_self.mp h)
    cases e with
    | leaf d =>
      rw [Entry.at]
      refine iff_of_false (fun ⟨m,hm,_⟩ => ?_) nofun
      rw [locate,List.mem_singleton,Prod.mk.injEq] at hm
      exact hne hm.1
    | group d content =>
      rw [Entry.at,Option.bind_eq_some_iff]
      constructor
      · rintro ⟨m,hm,hd⟩
        rw [locate,List.mem_cons,Prod.mk.injEq] at hm
        obtain ⟨j,e,-,he,hr,hm⟩ := mem_locateContent.mp (hm.resolve_left fun h => hne h.1)
        have hp := pos_locate _ _ _ _ e _ hm
        rw [List.prefix_append_right_inj,List.cons_prefix_cons] at hp
        obtain rfl := hp.1
        refine ⟨e,he,?_⟩
        rw [hr,if_neg Bool.false_ne_true]
        exact (ih _ _ _ _).mp ⟨m,by rwa [List.append_assoc],hd⟩
      · rintro ⟨e,he,hat⟩
        split_ifs at hat with hr
        obtain ⟨m,hm,hd⟩ := (ih (pos++[i]) (path++[d.name]) (level+1)
          (uid+i*2^(data.uidBits.drop (level+2)).sum)).mpr hat
        rw [List.append_assoc] at hm
        exact ⟨m,List.mem_cons_of_mem _ (mem_locateContent.mpr
          ⟨i,e,Nat.zero_le i,he,Bool.eq_false_of_not_eq_true hr,hm⟩),hd⟩

theorem Dict.mem_located {e : Entry} {pos : List Nat} :
    (∃ m, (pos,m) ∈ data.located ∧ m.d = e) ↔ data.at pos = some e := by
  cases pos with
  | nil =>
    refine iff_of_false (fun ⟨m,hm,_⟩ => ?_) nofun
    obtain ⟨j,e',-,-,hm⟩ := mem_locateRoot.mp hm
    have hp := pos_locate _ _ _ _ e' _ hm
    exact absurd hp.length_le (Nat.not_succ_le_zero _)
  | cons i q =>
    rw [Dict.at,Option.bind_eq_some_iff]
    constructor
    · rintro ⟨m,hm,hd⟩
      obtain ⟨j,e',-,he,hm⟩ := mem_locateRoot.mp hm
      have hp := pos_locate _ _ _ _ e' _ hm
      obtain rfl := (List.cons_prefix_cons.mp hp).1
      exact ⟨e',he,(mem_locate [j] _ _ _).mp ⟨m,hm,hd⟩⟩
    · rintro ⟨e',he,hat⟩
      obtain ⟨m,hm,hd⟩ := (mem_locate [i] [] 0
        (data.uidBase+i*2^(data.uidBits.drop 1).sum)).mpr hat
      exact ⟨m,mem_locateRoot.mpr ⟨i,e',Nat.zero_le i,he,hm⟩,hd⟩

theorem Dict.located_pairwise (data : Dict) :
    data.located.Pairwise fun x y => x.1 < y.1 := by
  have hroot : ∀ (content : List Entry) (index0 : Nat),
      (locateRoot data index0 content).Pairwise fun x y => x.1 < y.1 := by
    intro content
    induction content with
    | nil => exact fun _ => List.Pairwise.nil
    | cons e content ih =>
      intro index0
      rw [locateRoot,List.pairwise_append]
      refine ⟨locate_pairwise _ _ _ _ e,ih (index0+1),fun x hx y hy => ?_⟩
      obtain ⟨j,e',hj,-,hy⟩ := mem_locateRoot.mp hy
      exact @append_lt_append [] _ _ _ _ hj (pos_locate _ _ _ _ e x hx)
        (pos_locate _ _ _ _ e' y hy)
  exact hroot data.content 0

end

section
variable {data : Dict} {pos pos' : List Nat} {m m' : Meta}

theorem Numbered.length_leaf (h : Numbered data pos m) (hl : m.d.isLeaf = true) :
    pos.length = data.uidBits.length := by
  obtain ⟨q,i,rfl,hlen,-⟩ := h.leaf hl
  rw [List.length_append,List.length_singleton,hlen]

theorem Numbered.uid_lt (h : Numbered data pos m) (h' : Numbered data pos' m')
    (hl : m.d.isLeaf = true) (hl' : m'.d.isLeaf = true) (hlt : pos < pos') : m.uid < m'.uid := by
  have hlen : pos.length = pos'.length := (h.length_leaf hl).trans (h'.length_leaf hl').symm
  rw [h.uid,h'.uid,if_pos hl,if_pos hl']
  exact Nat.add_lt_add_right (value_lt_of_lt h.fits h'.fits hlen hlt) 1

theorem Numbered.uid_leaf (h : Numbered data pos m) (hl : m.d.isLeaf = true) :
    ∃ q i, pos = q++[i] ∧ q.length+1 = data.uidBits.length ∧
      MixedRadix.Fits data.uidBits (q++[i+1]) ∧ m.uid = value data.uidBits (q++[i+1]) := by
  obtain ⟨q,i,rfl,hlen,hfits⟩ := h.leaf hl
  refine ⟨q,i,rfl,hlen,hfits,?_⟩
  rw [h.uid,if_pos hl,value_concat _ _ _ (by omega),value_concat _ _ _ (by omega),
    List.drop_of_length_le hlen.ge,List.sum_nil,Nat.pow_zero]
  omega

theorem Numbered.not_isBundle (h : Numbered data pos m) (hl : m.d.isLeaf = true) :
    data.isBundle m.uid = false := by
  obtain ⟨q,i,-,hlen,hfits,huid⟩ := h.uid_leaf hl
  obtain ⟨bs,b,hb⟩ := (List.eq_nil_or_concat' data.uidBits).resolve_left fun h0 => by
    rw [h0] at hlen
    cases hlen
  rw [hb,List.length_append,List.length_singleton] at hlen
  rw [hb] at huid hfits
  have hi : i+1 < 2^b :=
    ((MixedRadix.fits_concat (b := b) (by simp [← Nat.succ.inj hlen])).mp hfits).2
  unfold Dict.isBundle
  rw [hb,List.getLastD_concat,Nat.one_shiftLeft,Nat.and_two_pow_sub_one_eq_mod,huid,
    value_concat_mod (Nat.succ.inj hlen).symm b (i+1) hi]
  rfl

theorem Numbered.treeMatch_iff (h : Numbered data pos m) (h' : Numbered data pos' m')
    (hl : m.d.isLeaf = false) (hl' : m'.d.isLeaf = true) :
    m.treeMatch m'.uid = true ↔ pos <+: pos' := by
  obtain ⟨q,i,rfl,hlen,hfits,huid⟩ := h'.uid_leaf hl'
  have hlt := h.inner hl
  have hle : pos.length ≤ q.length := by omega
  have hlast : ∀ j, pos <+: q++[j] ↔ pos <+: q := by
    intro j
    rw [List.prefix_concat_iff]
    refine or_iff_right fun heq => ?_
    rw [heq,List.length_append,List.length_singleton] at hle
    omega
  have hg : m.uid = value data.uidBits pos := by
    rw [h.uid,hl]
    rfl
  unfold Meta.treeMatch
  rw [decide_eq_true_iff,hg,h.mask,huid,
    and_high_eq_iff h.fits hfits (by rw [List.length_append]; omega),hlast,hlast]

end

/-- The identifiers of the leaves are distinct, not zero, below `2^sum` and no bundles, and a group
matches those of its own leaves. -/
theorem uid_numbering (data : Dict) (h : data.Fits) :
    (data.meta.filter fun m => m.d.isLeaf).Pairwise (fun m m' => m.uid ≠ m'.uid) ∧
    (∀ m ∈ data.meta, m.d.isLeaf = true →
      m.uid ≠ 0 ∧ m.uid < 2^data.uidBits.sum ∧ data.isBundle m.uid = false) ∧
    ∀ g ∈ data.located, ∀ f ∈ data.located, g.2.d.isLeaf = false → f.2.d.isLeaf = true →
      (g.2.treeMatch f.2.uid = true ↔ g.1 <+: f.1) := by
  refine ⟨?_,?_,fun g hg f hf hl hl' => (h.numbered g hg).treeMatch_iff (h.numbered f hf) hl hl'⟩
  · rw [← data.located_meta,List.pairwise_filter,List.pairwise_map]
    refine data.located_pairwise.imp_of_mem fun {x y} hx hy hlt hl hl' => ?_
    exact ((h.numbered x hx).uid_lt (h.numbered y hy) hl hl' hlt).ne
  · intro m hm hl
    rw [← data.located_meta] at hm
    obtain ⟨x,hx,rfl⟩ := List.mem_map.mp hm
    have hn := h.numbered x hx
    obtain ⟨q,i,-,-,hfits,huid⟩ := hn.uid_leaf hl
    refine ⟨?_,huid ▸ hfits.value_lt,hn.not_isBundle hl⟩
    rw [hn.uid,if_pos hl]
    exact Nat.succ_ne_zero _

def small : Dict where
  uidBase := 0
  uidBits := [1,2]
  content :=
    [.group ⟨"a",false,.real,.none,none,none,none⟩
        [.leaf ⟨"x",false,.real,.one "m",none,none,none⟩,
          .leaf ⟨"",true,.real,.none,none,none,none⟩,
          .leaf ⟨"y",false,.real,.none,some .none,none,none⟩],
      .group ⟨"b",false,.real,.none,none,none,none⟩
        [.leaf ⟨"z",false,.byte,.none,some .u8,none,none⟩]]

theorem small_fits : small.Fits := by
  have hcontent : ∀ e ∈ small.content, e.Fits [2] := by decide
  exact ⟨rfl,le_rfl,hcontent⟩

theorem uid_numbering_small :
    small.meta.map Meta.uid = [0,1,3,4,5] ∧
    ∀ g ∈ small.located, ∀ f ∈ small.located, g.2.d.isLeaf = false → f.2.d.isLeaf = true →
      (g.2.treeMatch f.2.uid = true ↔ g.1 <+: f.1) :=
  ⟨by decide,(uid_numbering small small_fits).2.2⟩

end ApxBus.Mandala
