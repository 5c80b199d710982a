import Mathlib.Data.List.Nodup
set_option autoImplicit false

/-! Maps that keep the order in which their keys came, and what is handed down along a path. -/

namespace ApxBus

/-- The entries, of which no two have the same key. -/
structure OrderedMap (κ α : Type) where
  entries : List (κ × α)
  nodup : (entries.map Prod.fst).Nodup

namespace OrderedMap

section
variable {κ α : Type}

def keys (d : OrderedMap κ α) : List κ := d.entries.map Prod.fst

@[ext]
theorem ext {d e : OrderedMap κ α} (h : d.entries = e.entries) : d = e := by
  cases d
  cases e
  cases h
  rfl

end

section
variable {κ α : Type} [DecidableEq κ]

instance [DecidableEq α] : DecidableEq (OrderedMap κ α) := fun d e =>
  decidable_of_iff (d.entries = e.entries) ⟨ext,fun h => h ▸ rfl⟩

def empty : OrderedMap κ α := ⟨[],List.nodup_nil⟩

def get (d : OrderedMap κ α) (k : κ) : Option α := d.entries.lookup k

def putEntries (k : κ) (v : α) : List (κ × α) → List (κ × α)
  | [] => [(k,v)]
  | x :: l => if x.1 = k then (k,v) :: l else x :: putEntries k v l

theorem keys_putEntries (k : κ) (v : α) (l : List (κ × α)) :
    (putEntries k v l).map Prod.fst =
      if k ∈ l.map Prod.fst then l.map Prod.fst else l.map Prod.fst ++ [k] := by
  induction l with
  | nil => rfl
  | cons x l ih =>
    rw [putEntries]
    by_cases hx : x.1 = k
    · simp [hx]
    · rw [if_neg hx,List.map_cons,ih]
      have hk : ¬ k = x.1 := fun h => hx h.symm
      by_cases hl : k ∈ l.map Prod.fst
      · simp [hl]
      · simp [hl,hk]

theorem nodup_putEntries {k : κ} {l : List (κ × α)} (v : α) (h : (l.map Prod.fst).Nodup) :
    ((putEntries k v l).map Prod.fst).Nodup := by
  rw [keys_putEntries]
  split_ifs with hk
  · exact h
  · exact List.nodup_append.mpr ⟨h,List.nodup_singleton k,fun a ha b hb => by
      rintro rfl
      exact hk (List.mem_singleton.mp hb ▸ ha)⟩

def put (d : OrderedMap κ α) (k : κ) (v : α) : OrderedMap κ α :=
  ⟨putEntries k v d.entries,nodup_putEntries v d.nodup⟩

def restrict (p : κ → Bool) (d : OrderedMap κ α) : OrderedMap κ α :=
  ⟨d.entries.filter fun x => p x.1,d.nodup.sublist (List.filter_sublist.map _)⟩

/-- The entries of the second are put into the first, one after another. -/
def update (d e : OrderedMap κ α) : OrderedMap κ α :=
  e.entries.foldl (fun d x => d.put x.1 x.2) d

variable {d e : OrderedMap κ α}

theorem lookup_putEntries (k j : κ) (v : α) (l : List (κ × α)) :
    (putEntries k v l).lookup j = if j = k then some v else l.lookup j := by
  induction l with
  | nil =>
    rw [putEntries,List.lookup_cons]
    by_cases hj : j = k
    · simp [hj]
    · simp [hj,beq_false_of_ne hj]
  | cons x l ih =>
    rw [putEntries]
    by_cases hx : x.1 = k
    · rw [if_pos hx,List.lookup_cons,List.lookup_cons,hx]
      by_cases hj : j = k
      · simp [hj]
      · simp [hj,beq_false_of_ne hj]
    · rw [if_neg hx,List.lookup_cons,List.lookup_cons,ih]
      by_cases hj : j = x.1
      · simp [hj,hx]
      · simp [beq_false_of_ne hj]

@[simp]
theorem get_put (d : OrderedMap κ α) (k j : κ) (v : α) :
    (d.put k v).get j = if j = k then some v else d.get j :=
  lookup_putEntries k j v d.entries

@[simp]
theorem get_empty (k : κ) : (empty : OrderedMap κ α).get k = none := rfl

@[simp]
theorem get_restrict (p : κ → Bool) (d : OrderedMap κ α) (k : κ) :
    (d.restrict p).get k = if p k then d.get k else none := by
  unfold get restrict
  dsimp only
  induction d.entries with
  | nil => simp
  | cons x l ih =>
    rw [List.filter_cons]
    by_cases hx : p x.1
    · rw [if_pos hx,List.lookup_cons,List.lookup_cons,ih]
      by_cases hk : k = x.1
      · simp [hk,hx]
      · simp [beq_false_of_ne hk]
    · rw [if_neg hx,ih,List.lookup_cons]
      by_cases hk : k = x.1
      · simp [hk,hx]
      · simp [beq_false_of_ne hk]

theorem get_foldl_put (d : OrderedMap κ α) {l : List (κ × α)} (h : (l.map Prod.fst).Nodup) (k : κ) :
    (l.foldl (fun d x => d.put x.1 x.2) d).get k = (l.lookup k).or (d.get k) := by
  induction l generalizing d with
  | nil => rfl
  | cons x l ih =>
    obtain ⟨hx,hl⟩ := List.nodup_cons.mp h
    rw [List.foldl_cons,ih (d.put x.1 x.2) hl,get_put,List.lookup_cons]
    by_cases hk : k = x.1
    · have hnone : l.lookup k = none := by
        rw [List.lookup_eq_none_iff]
        intro y hy
        rw [bne_iff_ne]
        rintro rfl
        exact hx (hk ▸ List.mem_map_of_mem hy)
      rw [hnone]
      simp [hk]
    · simp [hk,beq_false_of_ne hk]

@[simp]
theorem get_update (d e : OrderedMap κ α) (k : κ) : (d.update e).get k = (e.get k).or (d.get k) :=
  get_foldl_put d e.nodup k

theorem keys_foldl_put (d : OrderedMap κ α) (l : List (κ × α)) :
    d.keys <+: (l.foldl (fun d x => d.put x.1 x.2) d).keys := by
  induction l generalizing d with
  | nil => exact List.prefix_rfl
  | cons x l ih =>
    refine List.IsPrefix.trans ?_ (ih (d.put x.1 x.2))
    unfold keys put
    rw [keys_putEntries]
    split_ifs
    · exact List.prefix_rfl
    · exact List.prefix_append _ _

theorem keys_update (d e : OrderedMap κ α) : d.keys <+: (d.update e).keys :=
  keys_foldl_put d e.entries

theorem putEntries_same {k : κ} {v : α} {l l' : List (κ × α)} (h : ∀ x ∈ l, x.1 ≠ k) (w : α) :
    putEntries k v (l ++ (k,w) :: l') = l ++ (k,v) :: l' := by
  induction l with
  | nil => simp [putEntries]
  | cons x l ih =>
    obtain ⟨hx,hl⟩ := List.forall_mem_cons.mp h
    rw [List.cons_append,putEntries,if_neg hx,ih hl,List.cons_append]

theorem putEntries_new {k : κ} {v : α} {l : List (κ × α)} (h : ∀ x ∈ l, x.1 ≠ k) :
    putEntries k v l = l ++ [(k,v)] := by
  induction l with
  | nil => rfl
  | cons x l ih =>
    obtain ⟨hx,hl⟩ := List.forall_mem_cons.mp h
    rw [putEntries,if_neg hx,ih hl,List.cons_append]

theorem foldl_put_prefix (done l rest : List (κ × α)) (d : OrderedMap κ α)
    (hd : d.entries = done ++ rest) (hk : rest.map Prod.fst <+: l.map Prod.fst)
    (hn : ((done ++ l).map Prod.fst).Nodup) :
    (l.foldl (fun d x => d.put x.1 x.2) d).entries = done ++ l := by
  induction l generalizing done rest d with
  | nil =>
    have hrest := List.map_eq_nil_iff.mp (List.prefix_nil.mp hk)
    rw [List.foldl_nil,hd,hrest]
  | cons x l ih =>
    have hfresh : ∀ y ∈ done, y.1 ≠ x.1 := by
      intro y hy heq
      rw [List.map_append,List.map_cons,List.nodup_append] at hn
      exact hn.2.2 y.1 (List.mem_map_of_mem hy) x.1 List.mem_cons_self heq
    have happ : done ++ x :: l = (done ++ [x]) ++ l := by rw [List.append_assoc]; rfl
    rw [List.foldl_cons,happ]
    cases rest with
    | nil =>
      refine ih (done ++ [x]) [] _ ?_ (List.nil_prefix) (happ ▸ hn)
      change putEntries x.1 x.2 d.entries = _
      rw [hd,List.append_nil,List.append_nil,putEntries_new hfresh]
    | cons y rest =>
      rw [List.map_cons,List.map_cons,List.cons_prefix_cons] at hk
      refine ih (done ++ [x]) rest _ ?_ hk.2 (happ ▸ hn)
      change putEntries x.1 x.2 d.entries = _
      have hy : y = (x.1,y.2) := Prod.ext hk.1 rfl
      rw [hd,hy,putEntries_same hfresh,List.append_assoc]
      rfl

theorem update_absorb (h : d.keys <+: e.keys) : d.update e = e := by
  ext1
  exact foldl_put_prefix [] e.entries d.entries d rfl h e.nodup

theorem empty_update (d : OrderedMap κ α) : empty.update d = d := update_absorb List.nil_prefix

/-- The value of the last map of the path that has one for this key. -/
def nearest (k : κ) : List (OrderedMap κ α) → Option α
  | [] => none
  | d :: path => (nearest k path).or (d.get k)

theorem nearest_concat (k : κ) (path : List (OrderedMap κ α)) (d : OrderedMap κ α) :
    nearest k (path ++ [d]) = (d.get k).or (nearest k path) := by
  induction path with
  | nil => simp [nearest]
  | cons e path ih => rw [List.cons_append,nearest,ih,nearest,Option.or_assoc]

end

end OrderedMap

end ApxBus
