import ApxBus.OrderedMap
import Mathlib.Data.List.Forall2
set_option autoImplicit false

/-!
The dictionary as its files give it, and `mandala/parse_mandala_dict.py`, which puts the files
together and hands properties down. The files are taken as they are loaded.
-/

namespace ApxBus.Mandala
open OrderedMap

/-- A value of an entry, `content` apart. -/
inductive Value where
  | str (s : String)
  | int (n : Nat)
  | strs (l : List String)
  | ints (l : List Nat)
  deriving DecidableEq, Repr

abbrev Attrs := OrderedMap String Value

/-- `data`: an entry may have its content in another file. -/
inductive Data where
  | leaf (d : Attrs)
  | file (d : Attrs) (content : String)
  | group (d : Attrs) (content : List Data)

/-- An object of the class `Mandala`. -/
inductive Parsed where
  | leaf (d : Attrs)
  | group (d : Attrs) (content : List Parsed)

/-- What ends the program; `recursion` when the calls go too deep, `circular` when what is to be
printed contains itself. -/
inductive ParseError where
  | recursion
  | circular
  | fileNotFound (config : String)
  | keyError (key : String)
  | typeError
  deriving DecidableEq, Repr

def Data.d : Data → Attrs
  | leaf d => d
  | file d _ => d
  | group d _ => d

def Parsed.d : Parsed → Attrs
  | leaf d => d
  | group d _ => d

def Parsed.isLeaf : Parsed → Bool
  | leaf _ => true
  | group _ _ => false

def Data.isLeaf : Data → Bool
  | leaf _ => true
  | _ => false

def isSpace (c : Char) : Bool :=
  c.toNat ∈ [9,10,11,12,13,28,29,30,31,32,0x85,0xA0,0x1680,0x2000,0x2001,0x2002,0x2003,0x2004,
    0x2005,0x2006,0x2007,0x2008,0x2009,0x200A,0x2028,0x2029,0x202F,0x205F,0x3000]

def strip (s : String) : String :=
  String.ofList ((s.toList.dropWhile isSpace).reverse.dropWhile isSpace).reverse

def getStr (d : Attrs) (key : String) : Except ParseError String :=
  match d.get key with
  | none => .error (.keyError key)
  | some (.str s) => .ok s
  | some _ => .error .typeError

/-- `data`, with the title that is made of that of the parent. -/
def titled (parent data : Attrs) : Except ParseError Attrs :=
  if (data.get "title").isNone ∧ (data.get "suffix").isSome then do
    let title ← getStr parent "title"
    let suffix ← getStr data "suffix"
    return data.put "title" (.str (strip (title ++ " " ++ suffix)))
  else return data

/-- `key in inheritance`: the names of a list, or the parts of a text. -/
def Value.inherits : Value → String → Bool
  | str s, key => s.toList.tails.any fun t => key.toList.isPrefixOf t
  | strs l, key => key ∈ l
  | _, _ => false

def Value.isNumber : Value → Bool
  | int _ => true
  | _ => false

/-- The properties of `self`. A parent has its content among its keys, so there is always one that
is looked for in `inheritance`. -/
def properties (inheritance : Value) (parent : Option Attrs) (data : Attrs) :
    Except ParseError Attrs :=
  match parent with
  | none => return empty.update data
  | some parent =>
    if inheritance.isNumber then .error .typeError
    else do
      let data ← titled parent data
      return (parent.restrict inheritance.inherits).update data

def configExt : String := ".yml"

/-- The content of an entry, that of a file by `read_config`. -/
def Data.content (files : String → Option (List Data)) :
    Data → Except ParseError (Option (List Data))
  | leaf _ => .ok none
  | group _ content => .ok (some content)
  | file _ content =>
    match files (content ++ configExt) with
    | none => .error (.fileNotFound (content ++ configExt))
    | some content => .ok (some content)

/-- `Mandala.__init__`, as deep as the calls may go. -/
def construct (files : String → Option (List Data)) (inheritance : Value) :
    Nat → Option Attrs → Data → Except ParseError Parsed
  | 0, _, _ => .error .recursion
  | depth+1, parent, data => do
    let self ← properties inheritance parent data.d
    match ← data.content files with
    | none => return .leaf self
    | some content =>
      return .group self (← content.mapM (construct files inheritance depth (some self)))

def inheritanceOf (d : Attrs) : Except ParseError Value :=
  match d.get "inheritance" with
  | none => .error (.keyError "inheritance")
  | some v => .ok v

mutual

def Parsed.hasLeaf : Parsed → Bool
  | leaf _ => true
  | group _ content => hasLeafList content

def Parsed.hasLeafList : List Parsed → Bool
  | [] => false
  | e :: content => e.hasLeaf || hasLeafList content

end

/-- A field that inherits `content` has the list of its parent, in which it is itself. -/
def Parsed.circular (inheritance : Value) (m : Parsed) : Bool :=
  inheritance.inherits "content" && (!m.isLeaf && m.hasLeaf)

def parse (files : String → Option (List Data)) (depth : Nat) (root : Data) :
    Except ParseError Parsed := do
  let inheritance ← inheritanceOf root.d
  let m ← construct files inheritance depth none root
  if m.circular inheritance then .error .circular else return m

/-- The entries from a first one down to one that is reached by these indices. -/
def Data.chain (files : String → Option (List Data)) : Data → List Nat → Option (List Data)
  | data, [] => some [data]
  | data, i :: is =>
    match data.content files with
    | .ok (some content) => content[i]?.bind fun e => (e.chain files is).map (data :: ·)
    | _ => none

def Parsed.at : Parsed → List Nat → Option Parsed
  | e, [] => some e
  | leaf _, _ :: _ => none
  | group _ content, i :: is => content[i]?.bind fun e => e.at is

def composed : Option Value → Option Value → Option Value
  | some (.str title), some (.str suffix) => some (.str (strip (title ++ " " ++ suffix)))
  | _, _ => none

def titleOf (inheritance : Value) : List Attrs → Option Value
  | [] => none
  | d :: above =>
    if (d.get "title").isSome then d.get "title"
    else if (d.get "suffix").isSome then composed (titleOf inheritance above) (d.get "suffix")
    else if inheritance.inherits "title" then titleOf inheritance above else none

/-- What the last of these entries stands for: of the inherited properties it has those that are
given nearest to it. -/
def resolved (inheritance : Value) (path : List Attrs) (key : String) : Option Value :=
  if key = "title" then titleOf inheritance path.reverse
  else if inheritance.inherits key then nearest key path
  else path.getLast?.bind (·.get key)

mutual

def Parsed.data : Parsed → Data
  | leaf d => .leaf d
  | group d content => .group d (dataList content)

def Parsed.dataList : List Parsed → List Data
  | [] => []
  | e :: content => e.data :: dataList content

end

theorem bind_eq_ok {α β ε : Type} {x : Except ε α} {f : α → Except ε β} {y : β} :
    x >>= f = .ok y ↔ ∃ a, x = .ok a ∧ f a = .ok y := by
  cases x <;> simp [bind,Except.bind]

theorem mapM_eq_ok {α β ε : Type} {f : α → Except ε β} {l : List α} {l' : List β} :
    l.mapM f = .ok l' ↔ List.Forall₂ (fun x y => f x = .ok y) l l' := by
  induction l generalizing l' with
  | nil =>
    rw [List.mapM_nil,List.forall₂_nil_left_iff]
    constructor
    · intro h
      cases h
      rfl
    · rintro rfl
      rfl
  | cons x l ih =>
    rw [List.mapM_cons,List.forall₂_cons_left_iff,bind_eq_ok]
    refine exists_congr fun y => ?_
    constructor
    · rintro ⟨hx,h⟩
      obtain ⟨u,hu,h⟩ := bind_eq_ok.mp h
      cases h
      exact ⟨u,hx,ih.mp hu,rfl⟩
    · rintro ⟨u,hx,hu,rfl⟩
      exact ⟨hx,bind_eq_ok.mpr ⟨u,ih.mpr hu,rfl⟩⟩

section
variable {files : String → Option (List Data)} {inheritance : Value} {depth : Nat}
  {parent : Option Attrs} {data : Data} {m : Parsed}

theorem construct_eq_ok : construct files inheritance (depth+1) parent data = .ok m ↔
    ∃ self, properties inheritance parent data.d = .ok self ∧
      (data.content files = .ok none ∧ m = .leaf self ∨
        ∃ content content', data.content files = .ok (some content) ∧
          List.Forall₂ (fun x y => construct files inheritance depth (some self) x = .ok y)
            content content' ∧ m = .group self content') := by
  rw [construct,bind_eq_ok]
  refine exists_congr fun self => and_congr_right fun _ => ?_
  rw [bind_eq_ok]
  constructor
  · rintro ⟨_ | content,hcontent,h⟩
    · cases h
      exact Or.inl ⟨hcontent,rfl⟩
    · obtain ⟨content',hall,h⟩ := bind_eq_ok.mp h
      cases h
      exact Or.inr ⟨content,content',hcontent,mapM_eq_ok.mp hall,rfl⟩
  · rintro (⟨hcontent,rfl⟩ | ⟨content,content',hcontent,hall,rfl⟩)
    · exact ⟨none,hcontent,rfl⟩
    · exact ⟨some content,hcontent,bind_eq_ok.mpr ⟨content',mapM_eq_ok.mpr hall,rfl⟩⟩

theorem content_none : data.content files = .ok none ↔ data.isLeaf = true := by
  cases data with
  | leaf d => simp [Data.content,Data.isLeaf]
  | group d content => simp [Data.content,Data.isLeaf]
  | file d content =>
    rw [Data.content]
    cases files (content ++ configExt) <;> simp [Data.isLeaf]

theorem construct_head {depth : Nat}
    (h : construct files inheritance depth parent data = .ok m) :
    properties inheritance parent data.d = .ok m.d ∧ m.isLeaf = data.isLeaf := by
  cases depth with
  | zero => cases h
  | succ depth =>
    obtain ⟨self,hprop,⟨hcontent,rfl⟩ | ⟨content,content',hcontent,-,rfl⟩⟩ := construct_eq_ok.mp h
    · exact ⟨hprop,(content_none.mp hcontent).symm⟩
    · refine ⟨hprop,?_⟩
      cases hleaf : data.isLeaf with
      | false => rfl
      | true =>
        rw [content_none.mpr hleaf] at hcontent
        cases hcontent

theorem getStr_eq_ok {d : Attrs} {key s : String} :
    getStr d key = .ok s ↔ d.get key = some (.str s) := by
  unfold getStr
  split <;> simp_all

theorem composed_eq_some {title suffix : Option Value} {v : Value} :
    composed title suffix = some v ↔ ∃ t s, title = some (.str t) ∧ suffix = some (.str s) ∧
      v = .str (strip (t ++ " " ++ s)) := by
  constructor
  · intro h
    unfold composed at h
    split at h
    · exact ⟨_,_,rfl,rfl,(Option.some.inj h).symm⟩
    · cases h
  · rintro ⟨t,s,rfl,rfl,rfl⟩
    rfl

def Untitled (d : Attrs) : Prop := (d.get "title").isNone ∧ (d.get "suffix").isSome

instance (d : Attrs) : Decidable (Untitled d) := inferInstanceAs (Decidable (_ ∧ _))

theorem titleOf_untitled {d : Attrs} (h : Untitled d) (above : List Attrs) :
    titleOf inheritance (d :: above) =
      composed (titleOf inheritance above) (d.get "suffix") := by
  have htitle : ¬ (d.get "title").isSome := by simpa using h.1
  rw [titleOf,if_neg htitle,if_pos h.2]

theorem titleOf_given {d : Attrs} (h : ¬ Untitled d) (above : List Attrs) :
    titleOf inheritance (d :: above) =
      (d.get "title").or
        (if inheritance.inherits "title" then titleOf inheritance above else none) := by
  rw [titleOf]
  cases htitle : d.get "title" with
  | some title => rfl
  | none =>
    have hsuffix : ¬ (d.get "suffix").isSome := fun hs => h ⟨by simp [htitle],hs⟩
    rw [if_neg (by simp),if_neg hsuffix,Option.none_or]

theorem titled_eq_ok {parent data data' : Attrs} : titled parent data = .ok data' ↔
    if Untitled data then
      ∃ v, composed (parent.get "title") (data.get "suffix") = some v ∧ data' = data.put "title" v
    else data' = data := by
  change (if Untitled data then _ else _) = _ ↔ _
  split_ifs with h
  · simp only [bind_eq_ok,getStr_eq_ok,composed_eq_some]
    constructor
    · rintro ⟨t,ht,s,hs,h⟩
      cases h
      exact ⟨_,⟨t,s,ht,hs,rfl⟩,rfl⟩
    · rintro ⟨_,⟨t,s,ht,hs,rfl⟩,rfl⟩
      exact ⟨t,ht,s,hs,rfl⟩
  · exact ⟨fun h => (Except.ok.inj h).symm,fun h => h ▸ rfl⟩

theorem resolved_concat (path : List Attrs) (d : Attrs) (k : String) :
    resolved inheritance (path ++ [d]) k =
      if k = "title" then titleOf inheritance (d :: path.reverse)
      else (d.get k).or (if inheritance.inherits k then resolved inheritance path k else none) := by
  unfold resolved
  rw [List.reverse_append,List.reverse_singleton,List.singleton_append,nearest_concat,
    List.getLast?_append,List.getLast?_singleton,Option.some_or,Option.bind_some]
  split_ifs <;> simp

theorem resolved_title (path : List Attrs) : resolved inheritance path "title" =
    titleOf inheritance path.reverse := rfl

theorem properties_eq_ok {parent d self : Attrs} :
    properties inheritance (some parent) d = .ok self ↔ inheritance.isNumber = false ∧
      ∃ data, titled parent d = .ok data ∧
        self = (parent.restrict inheritance.inherits).update data := by
  rw [properties]
  cases inheritance.isNumber with
  | true => exact iff_of_false (fun h => by cases h) fun h => by cases h.1
  | false =>
    rw [if_neg Bool.false_ne_true,bind_eq_ok]
    simp only [pure,Except.pure,Except.ok.injEq,@eq_comm _ self,true_and]

theorem properties_get {parent d self : Attrs} {path : List Attrs}
    (hparent : parent.get = resolved inheritance path)
    (h : properties inheritance (some parent) d = .ok self) :
    self.get = resolved inheritance (path ++ [d]) := by
  obtain ⟨-,data,hdata,rfl⟩ := properties_eq_ok.mp h
  funext k
  have hinherited : (parent.restrict inheritance.inherits).get k =
      if inheritance.inherits k then resolved inheritance path k else none := by
    rw [get_restrict,hparent]
  rw [get_update,hinherited,resolved_concat]
  have htitled := titled_eq_ok.mp hdata
  by_cases hk : k = "title"
  · rw [if_pos hk,hk,resolved_title]
    split_ifs at htitled with hun
    · obtain ⟨v,hv,rfl⟩ := htitled
      rw [hparent,resolved_title] at hv
      rw [titleOf_untitled hun,hv,get_put,if_pos rfl,Option.some_or]
    · rw [htitled,titleOf_given hun]
  · rw [if_neg hk]
    split_ifs at htitled with hun
    · obtain ⟨v,-,rfl⟩ := htitled
      rw [get_put,if_neg hk]
    · rw [htitled]

theorem resolved_singleton (d : Attrs) : resolved inheritance [d] = d.get := by
  funext k
  have h := @resolved_concat inheritance [] d k
  rw [List.nil_append] at h
  have hnone : ∀ k, resolved inheritance [] k = none := by
    intro k
    unfold resolved
    split_ifs <;> rfl
  rw [h]
  split_ifs with hk
  · rw [hk]
    by_cases hun : Untitled d
    · rw [titleOf_untitled hun,Option.isNone_iff_eq_none.mp hun.1]
      rfl
    · rw [titleOf_given hun]
      simp [titleOf]
  · rw [hnone]
    simp
  · simp

def Heads (inheritance : Value) (path : List Attrs) : Option Attrs → Prop
  | none => path = []
  | some p => path ≠ [] ∧ p.get = resolved inheritance path

theorem Heads.properties {path : List Attrs} {d self : Attrs} (hp : Heads inheritance path parent)
    (h : properties inheritance parent d = .ok self) :
    Heads inheritance (path ++ [d]) (some self) := by
  refine ⟨by simp,?_⟩
  cases parent with
  | none =>
    obtain rfl : path = [] := hp
    obtain rfl := Except.ok.inj h
    rw [empty_update,List.nil_append,resolved_singleton]
  | some p => exact properties_get hp.2 h

theorem forall₂_getElem? {α β : Type} {R : α → β → Prop} {l : List α} {l' : List β}
    (h : List.Forall₂ R l l') (i : Nat) : Option.Rel R l[i]? l'[i]? := by
  induction h generalizing i with
  | nil => exact .none
  | cons hxy _ ih =>
    cases i with
    | zero => exact .some hxy
    | succ i => exact ih i

theorem chain_cons {pos : List Nat} {l : List Data} (h : data.chain files pos = some l) :
    ∃ t, l = data :: t := by
  cases pos with
  | nil => exact ⟨[],(Option.some.inj h).symm⟩
  | cons i pos =>
    rw [Data.chain] at h
    split at h
    · obtain ⟨e,-,h⟩ := Option.bind_eq_some_iff.mp h
      obtain ⟨t,-,h⟩ := Option.map_eq_some_iff.mp h
      exact ⟨t,h.symm⟩
    · cases h

theorem construct_at {path : List Attrs} (hparent : Heads inheritance path parent)
    (h : construct files inheritance depth parent data = .ok m) (pos : List Nat) :
    (m.at pos).map (fun e => (e.d.get,e.isLeaf)) = (data.chain files pos).map fun l =>
      (resolved inheritance (path ++ l.map Data.d),(l.getLast?.map Data.isLeaf).getD false) := by
  induction depth generalizing parent data m path pos with
  | zero => cases h
  | succ depth ih =>
    cases pos with
    | nil =>
      obtain ⟨hprop,hleaf⟩ := construct_head h
      simp [Parsed.at,Data.chain,hleaf,(hparent.properties hprop).2]
    | cons i pos =>
      obtain ⟨self,hprop,hcases⟩ := construct_eq_ok.mp h
      have hself := hparent.properties hprop
      rcases hcases with ⟨hcontent,rfl⟩ | ⟨content,content',hcontent,hall,rfl⟩
      · simp [Parsed.at,Data.chain,hcontent]
      · rw [Parsed.at,Data.chain,hcontent]
        dsimp only
        have hrel := forall₂_getElem? hall i
        generalize content[i]? = x at hrel ⊢
        generalize content'[i]? = y at hrel ⊢
        cases hrel with
        | none => rfl
        | @some x y hxy =>
          have hnext := ih hself hxy pos
          rw [Option.bind_some,Option.bind_some,hnext,Option.map_map]
          cases hchain : x.chain files pos with
          | none => rfl
          | some l =>
            obtain ⟨t,rfl⟩ := chain_cons hchain
            simp

def Named (inheritance : Value) (above : List Attrs) (d : Attrs) : Prop :=
  above ≠ [] → inheritance.isNumber = false ∧
    (Untitled d → (resolved inheritance (above ++ [d]) "title").isSome)

theorem properties_ok_iff {path : List Attrs} {d : Attrs}
    (hparent : Heads inheritance path parent) :
    (∃ self, properties inheritance parent d = .ok self) ↔ Named inheritance path d := by
  unfold Named
  cases parent with
  | none => exact iff_of_true ⟨_,rfl⟩ (absurd hparent)
  | some p =>
    obtain ⟨hpath,hp⟩ := hparent
    rw [forall_prop_of_true hpath,resolved_concat,if_pos rfl]
    simp only [properties_eq_ok,titled_eq_ok,exists_and_left]
    refine and_congr_right fun _ => ?_
    by_cases hun : Untitled d
    · rw [forall_prop_of_true hun,titleOf_untitled hun,← resolved_title,← hp]
      simp only [if_pos hun,Option.isSome_iff_exists]
      constructor
      · rintro ⟨_,_,⟨v,hv,-⟩,-⟩
        exact ⟨v,hv⟩
      · rintro ⟨v,hv⟩
        exact ⟨_,_,⟨v,hv,rfl⟩,rfl⟩
    · simp only [if_neg hun]
      exact iff_of_true ⟨_,_,rfl,rfl⟩ fun h => absurd h hun

theorem exists_forall₂ {α β : Type} {R : α → β → Prop} {l : List α} :
    (∃ l', List.Forall₂ R l l') ↔ ∀ x ∈ l, ∃ y, R x y := by
  induction l with
  | nil => exact iff_of_true ⟨[],.nil⟩ (by simp)
  | cons x l ih =>
    rw [List.forall_mem_cons,← ih]
    constructor
    · rintro ⟨_,h⟩
      cases h with
      | cons hx hl => exact ⟨⟨_,hx⟩,⟨_,hl⟩⟩
    · rintro ⟨⟨y,hy⟩,⟨l',hl⟩⟩
      exact ⟨y :: l',.cons hy hl⟩

/-- What every entry of the files has to have for the program to come to its end. -/
def Sound (files : String → Option (List Data)) (inheritance : Value) (depth : Nat)
    (path : List Attrs) (data : Data) : Prop :=
  ∀ (pos : List Nat) (above : List Data) (e : Data),
    data.chain files pos = some (above ++ [e]) →
      above.length < depth ∧ (∃ content, e.content files = .ok content) ∧
        Named inheritance (path ++ above.map Data.d) e.d

theorem sound_iff {path : List Attrs} : Sound files inheritance (depth+1) path data ↔
    (∃ content, data.content files = .ok content ∧
      ∀ l, content = some l → ∀ e ∈ l, Sound files inheritance depth (path ++ [data.d]) e) ∧
    Named inheritance path data.d := by
  constructor
  · intro h
    obtain ⟨-,⟨content,hcontent⟩,hnamed⟩ := h [] [] data rfl
    rw [List.map_nil,List.append_nil] at hnamed
    refine ⟨⟨content,hcontent,?_⟩,hnamed⟩
    rintro l rfl e he pos above e' hchain
    obtain ⟨i,hi⟩ := List.mem_iff_getElem?.mp he
    have hnext := h (i :: pos) (data :: above) e' (by
      rw [Data.chain,hcontent]
      dsimp only
      rw [hi,Option.bind_some,hchain]
      rfl)
    rw [List.map_cons,List.append_cons] at hnext
    exact ⟨Nat.lt_of_succ_lt_succ hnext.1,hnext.2⟩
  · rintro ⟨⟨content,hcontent,hall⟩,hnamed⟩ pos above e hchain
    cases pos with
    | nil =>
      rw [Data.chain,Option.some.injEq] at hchain
      cases above with
      | nil =>
        cases hchain
        exact ⟨Nat.succ_pos _,⟨content,hcontent⟩,by simpa using hnamed⟩
      | cons x above => simp at hchain
    | cons i pos =>
      rw [Data.chain,hcontent] at hchain
      cases content with
      | none => cases hchain
      | some l =>
        obtain ⟨x,hx,hchain⟩ := Option.bind_eq_some_iff.mp hchain
        obtain ⟨t,ht,hchain⟩ := Option.map_eq_some_iff.mp hchain
        cases above with
        | nil =>
          obtain ⟨t',rfl⟩ := chain_cons ht
          cases hchain
        | cons y above =>
          obtain ⟨rfl,rfl⟩ := List.cons.inj hchain
          have hnext := hall l rfl x (List.mem_of_getElem? hx) pos above e ht
          rw [List.append_assoc,List.singleton_append] at hnext
          exact ⟨Nat.succ_lt_succ hnext.1,hnext.2⟩

theorem construct_ok_iff {path : List Attrs}
    (hparent : Heads inheritance path parent) :
    (∃ m, construct files inheritance depth parent data = .ok m) ↔
      Sound files inheritance depth path data := by
  induction depth generalizing parent path data with
  | zero =>
    refine iff_of_false (fun ⟨m,h⟩ => ?_) fun h => ?_
    · cases h
    · exact Nat.not_lt_zero _ (h [] [] data rfl).1
  | succ depth ih =>
    have hchild : ∀ self, properties inheritance parent data.d = .ok self → ∀ e,
        (∃ m, construct files inheritance depth (some self) e = .ok m) ↔
          Sound files inheritance depth (path ++ [data.d]) e := by
      intro self hself e
      exact ih (hparent.properties hself)
    rw [sound_iff,← properties_ok_iff hparent]
    constructor
    · rintro ⟨m,h⟩
      obtain ⟨self,hself,hcases⟩ := construct_eq_ok.mp h
      refine ⟨?_,self,hself⟩
      rcases hcases with ⟨hcontent,rfl⟩ | ⟨content,content',hcontent,hall,rfl⟩
      · exact ⟨none,hcontent,by simp⟩
      · refine ⟨some content,hcontent,?_⟩
        rintro l hl e he
        obtain rfl := Option.some.inj hl
        exact (hchild self hself e).mp (exists_forall₂.mp ⟨_,hall⟩ e he)
    · rintro ⟨⟨content,hcontent,hall⟩,self,hself⟩
      cases content with
      | none => exact ⟨_,construct_eq_ok.mpr ⟨self,hself,Or.inl ⟨hcontent,rfl⟩⟩⟩
      | some l =>
        obtain ⟨content',hl⟩ := exists_forall₂.mpr fun e he =>
          (hchild self hself e).mpr (hall l rfl e he)
        exact ⟨_,construct_eq_ok.mpr ⟨self,hself,Or.inr ⟨l,content',hcontent,hl,rfl⟩⟩⟩

theorem parse_eq_ok {root : Data} : parse files depth root = .ok m ↔
    ∃ inheritance, inheritanceOf root.d = .ok inheritance ∧
      construct files inheritance depth none root = .ok m ∧ m.circular inheritance = false := by
  rw [parse,bind_eq_ok]
  refine exists_congr fun inheritance => and_congr_right fun _ => ?_
  rw [bind_eq_ok]
  constructor
  · rintro ⟨m',hm,h⟩
    split_ifs at h with hc
    cases h
    exact ⟨hm,eq_false_of_ne_true hc⟩
  · rintro ⟨hm,hc⟩
    exact ⟨m,hm,by rw [if_neg (by rw [hc]; exact Bool.false_ne_true)]; rfl⟩

/-- The result has the entries of the files, each in its place and with the properties that the
entries down to it stand for. -/
theorem parse_resolves {root : Data} (h : parse files depth root = .ok m) :
    ∃ inheritance, inheritanceOf root.d = .ok inheritance ∧
      ∀ pos, (m.at pos).map (fun e => (e.d.get,e.isLeaf)) =
        (root.chain files pos).map fun l =>
          (resolved inheritance (l.map Data.d),(l.getLast?.map Data.isLeaf).getD false) := by
  obtain ⟨inheritance,hroot,h,-⟩ := parse_eq_ok.mp h
  have hheads : Heads inheritance [] none := rfl
  exact ⟨inheritance,hroot,construct_at hheads h⟩

def smallRoot : Data := .group
  ⟨[("name",.str "mandala"),("inheritance",.strs ["type","units","fmt","seq","ds"]),
    ("uid_base",.int 0),("uid_bits",.ints [1,2]),("type",.str "real")],by decide⟩
  [.file ⟨[("name",.str "sns"),("title",.str "Rate"),("units",.str "rad/s")],by decide⟩ "sns"]

def smallFiles (config : String) : Option (List Data) :=
  if config = "sns.yml" then some
    [.leaf ⟨[("name",.str "x"),("suffix",.str "X"),("seq",.str "skip")],by decide⟩,
      .leaf ⟨[("name",.str "mode"),("title",.str "Mode"),("units",.strs ["off","on"])],by decide⟩]
  else none

theorem parse_resolves_small : ∃ m, parse smallFiles 3 smallRoot = .ok m ∧
    ∃ inheritance, inheritanceOf smallRoot.d = .ok inheritance ∧
      ∀ pos, (m.at pos).map (fun e => (e.d.get,e.isLeaf)) =
        (smallRoot.chain smallFiles pos).map fun l =>
          (resolved inheritance (l.map Data.d),(l.getLast?.map Data.isLeaf).getD false) := by
  obtain ⟨m,hm⟩ : ∃ m, parse smallFiles 3 smallRoot = .ok m := ⟨_,rfl⟩
  exact ⟨m,hm,parse_resolves hm⟩

example : resolved (.strs ["units","seq"])
    [⟨[("title",.str "Rate"),("units",.str "rad/s")],by decide⟩,
      ⟨[("suffix",.str "X"),("seq",.str "skip")],by decide⟩] "title" =
    some (.str "Rate X") := by decide

mutual

theorem hasLeaf_iff : ∀ m : Parsed,
    m.hasLeaf = true ↔ ∃ pos e, m.at pos = some e ∧ e.isLeaf = true
  | .leaf d => iff_of_true rfl ⟨[],.leaf d,rfl,rfl⟩
  | .group d content => by
    rw [Parsed.hasLeaf,hasLeafList_iff content]
    constructor
    · rintro ⟨i,y,pos,e,hy,he,hleaf⟩
      refine ⟨i :: pos,e,?_,hleaf⟩
      rw [Parsed.at,hy]
      exact he
    · rintro ⟨pos,e,he,hleaf⟩
      cases pos with
      | nil =>
        cases he
        cases hleaf
      | cons i pos =>
        obtain ⟨y,hy,he⟩ := Option.bind_eq_some_iff.mp he
        exact ⟨i,y,pos,e,hy,he,hleaf⟩

theorem hasLeafList_iff : ∀ content : List Parsed, Parsed.hasLeafList content = true ↔
    ∃ (i : Nat) (y : Parsed) (pos : List Nat) (e : Parsed),
      content[i]? = some y ∧ y.at pos = some e ∧ e.isLeaf = true
  | [] => iff_of_false Bool.false_ne_true fun ⟨i,y,pos,e,hy,_⟩ => by cases hy
  | x :: content => by
    rw [Parsed.hasLeafList,Bool.or_eq_true,hasLeaf_iff x,hasLeafList_iff content]
    constructor
    · rintro (⟨pos,e,h⟩ | ⟨i,y,pos,e,hy,h⟩)
      · exact ⟨0,x,pos,e,rfl,h⟩
      · exact ⟨i+1,y,pos,e,hy,h⟩
    · rintro ⟨i,y,pos,e,hy,h⟩
      cases i with
      | zero =>
        cases hy
        exact Or.inl ⟨pos,e,h⟩
      | succ i => exact Or.inr ⟨i,y,pos,e,hy,h⟩

end

def HasField (files : String → Option (List Data)) (root : Data) : Prop :=
  ∃ (pos : List Nat) (above : List Data) (e : Data), pos ≠ [] ∧
    root.chain files pos = some (above ++ [e]) ∧ e.isLeaf = true

theorem hasField_iff {root : Data}
    (h : construct files inheritance depth none root = .ok m) :
    HasField files root ↔ m.isLeaf = false ∧ m.hasLeaf = true := by
  have hheads : Heads inheritance [] none := rfl
  have hat := construct_at hheads h
  rw [hasLeaf_iff]
  constructor
  · rintro ⟨pos,above,e,hpos,hchain,hleaf⟩
    have hx := hat pos
    rw [hchain,Option.map_some,Option.map_eq_some_iff] at hx
    obtain ⟨x,hx,hxd⟩ := hx
    rw [List.getLast?_append,List.getLast?_singleton,Prod.mk.injEq] at hxd
    refine ⟨?_,pos,x,hx,hxd.2.trans hleaf⟩
    cases m with
    | leaf d =>
      cases pos with
      | nil => exact absurd rfl hpos
      | cons i pos => cases hx
    | group d content => rfl
  · rintro ⟨hroot,pos,x,hx,hleaf⟩
    have hl := hat pos
    rw [hx,Option.map_some,eq_comm,Option.map_eq_some_iff] at hl
    obtain ⟨l,hchain,hl⟩ := hl
    rw [Prod.mk.injEq,hleaf] at hl
    obtain ⟨above,e,rfl⟩ : ∃ above e, l = above ++ [e] := by
      rcases List.eq_nil_or_concat l with rfl | ⟨above,e,rfl⟩
      · cases hl.2
      · exact ⟨above,e,List.concat_eq_append⟩
    rw [List.getLast?_append,List.getLast?_singleton] at hl
    refine ⟨pos,above,e,fun hpos => ?_,hchain,hl.2⟩
    rw [hpos] at hx
    have hm : m = x := by
      cases m <;> exact Option.some.inj hx
    rw [hm,hleaf] at hroot
    cases hroot

/-- The program comes to its end if the root has its inherited properties, which are no number
where there is an entry below it and do not have the content where there is a field, and every
entry is within the depth of the calls, has its file, and can be given a title where one has to be
made. -/
theorem parse_ok_iff (files : String → Option (List Data)) (depth : Nat) (root : Data) :
    (∃ m, parse files depth root = .ok m) ↔
      ∃ inheritance, root.d.get "inheritance" = some inheritance ∧
        Sound files inheritance depth [] root ∧
        (inheritance.inherits "content" = true → ¬ HasField files root) := by
  have hheads : ∀ inheritance, Heads inheritance [] none := fun _ => rfl
  have hroot : ∀ inheritance, inheritanceOf root.d = .ok inheritance ↔
      root.d.get "inheritance" = some inheritance := by
    intro inheritance
    unfold inheritanceOf
    cases root.d.get "inheritance" <;> simp
  have hcircular : ∀ {inheritance m}, construct files inheritance depth none root = .ok m →
      (m.circular inheritance = false ↔
        (inheritance.inherits "content" = true → ¬ HasField files root)) := by
    intro inheritance m h
    rw [hasField_iff h,Parsed.circular]
    cases inheritance.inherits "content" <;> cases m.isLeaf <;> simp
  simp only [← construct_ok_iff (hheads _),parse_eq_ok,hroot]
  constructor
  · rintro ⟨m,inheritance,hget,h,hc⟩
    exact ⟨inheritance,hget,⟨m,h⟩,(hcircular h).mp hc⟩
  · rintro ⟨inheritance,hget,⟨m,h⟩,hc⟩
    exact ⟨m,inheritance,hget,h,(hcircular h).mpr hc⟩

theorem not_untitled_of_properties {d self : Attrs} {p : Attrs}
    (hs : inheritance.inherits "suffix" = false)
    (h : properties inheritance (some p) d = .ok self) : ¬ Untitled self := by
  obtain ⟨-,data,hdata,rfl⟩ := properties_eq_ok.mp h
  have htitled := titled_eq_ok.mp hdata
  rintro ⟨hnone,hsome⟩
  rw [get_update,Option.isNone_iff_eq_none,Option.or_eq_none_iff] at hnone
  rw [get_update,get_restrict,if_neg (by rw [hs]; exact Bool.false_ne_true),Option.or_none] at hsome
  split_ifs at htitled with hun
  · obtain ⟨v,-,rfl⟩ := htitled
    simp at hnone
  · rw [htitled] at hnone hsome
    exact hun ⟨by simp [hnone.1],hsome⟩

theorem properties_again {d self : Attrs} (hs : inheritance.inherits "suffix" = false)
    (h : properties inheritance parent d = .ok self) :
    properties inheritance parent self = .ok self := by
  cases parent with
  | none => exact congrArg Except.ok (empty_update self)
  | some p =>
    have hun := not_untitled_of_properties hs h
    obtain ⟨hnumber,data,-,rfl⟩ := properties_eq_ok.mp h
    refine properties_eq_ok.mpr ⟨hnumber,_,titled_eq_ok.mpr (by rw [if_neg hun]),?_⟩
    exact (update_absorb (keys_update _ _)).symm

theorem dataList_eq (content : List Parsed) :
    Parsed.dataList content = content.map Parsed.data := by
  induction content with
  | nil => rfl
  | cons e content ih => rw [Parsed.dataList,ih,List.map_cons]

theorem construct_again (files' : String → Option (List Data))
    (hs : inheritance.inherits "suffix" = false)
    (h : construct files inheritance depth parent data = .ok m) :
    construct files' inheritance depth parent m.data = .ok m := by
  induction depth generalizing parent data m with
  | zero => cases h
  | succ depth ih =>
    obtain ⟨self,hself,⟨-,rfl⟩ | ⟨content,content',-,hall,rfl⟩⟩ := construct_eq_ok.mp h
    · exact construct_eq_ok.mpr ⟨self,properties_again hs hself,Or.inl ⟨rfl,rfl⟩⟩
    · refine construct_eq_ok.mpr ⟨self,properties_again hs hself,
        Or.inr ⟨_,content',rfl,?_,rfl⟩⟩
      rw [dataList_eq]
      clear h
      induction hall with
      | nil => exact .nil
      | cons hx _ ihl => exact .cons (ih hx) ihl

theorem construct_none_d {depth : Nat} (h : construct files inheritance depth none data = .ok m) :
    m.data.d = data.d := by
  have hd : m.d = data.d := by
    rw [← Except.ok.inj (construct_head h).1,empty_update]
  rw [← hd]
  cases m <;> rfl

/-- Nothing is left to be handed down: what is printed and loaded again gives the same, whatever
the files. -/
theorem parse_again {root : Data} (files' : String → Option (List Data))
    (hinheritance : inheritanceOf root.d = .ok inheritance)
    (hs : inheritance.inherits "suffix" = false)
    (h : parse files depth root = .ok m) : parse files' depth m.data = .ok m := by
  obtain ⟨inheritance',hroot,h,hc⟩ := parse_eq_ok.mp h
  obtain rfl := Except.ok.inj (hinheritance.symm.trans hroot)
  refine parse_eq_ok.mpr ⟨inheritance,?_,construct_again files' hs h,hc⟩
  rw [construct_none_d h,hroot]

theorem parse_again_small : ∃ m, parse smallFiles 3 smallRoot = .ok m ∧
    parse (fun _ => none) 3 m.data = .ok m := by
  obtain ⟨m,hm⟩ : ∃ m, parse smallFiles 3 smallRoot = .ok m := ⟨_,rfl⟩
  have hroot : inheritanceOf smallRoot.d = .ok (.strs ["type","units","fmt","seq","ds"]) := rfl
  exact ⟨m,hm,parse_again _ hroot (by decide) hm⟩

end

end ApxBus.Mandala
