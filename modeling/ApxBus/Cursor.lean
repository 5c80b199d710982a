import Mathlib.Data.List.Basic
set_option autoImplicit false

/-!
A place in a row of lists that are gone through one after the other, while the row may still
grow at its end.
-/

namespace ApxBus

/-- How far a row of lists has been gone through: the lists behind, and the place in the next. -/
structure Cursor where
  done : Nat
  part : Nat

namespace Cursor
variable {α : Type} {c : Cursor} {ls : List (List α)}

def start : Cursor := ⟨0,0⟩

def left (c : Cursor) (ls : List (List α)) : List α := ((ls.drop c.done).flatten).drop c.part

/-- It stands inside a list, or behind the last one. -/
def At (c : Cursor) (ls : List (List α)) : Prop :=
  (∃ x, ls[c.done]? = some x ∧ c.part < x.length) ∨ c.done = ls.length ∧ c.part = 0

/-- What has been gone through of the list in place `p`. -/
def behind (c : Cursor) (p : Nat) (len : Nat) : Nat :=
  if p < c.done then len else if p = c.done then c.part else 0

def next (c : Cursor) (len : Nat) : Cursor :=
  if c.part+1 = len then ⟨c.done+1,0⟩ else ⟨c.done,c.part+1⟩

theorem behind_start (p len : Nat) : start.behind p len = 0 := by
  unfold behind
  split_ifs with h
  · exact absurd h (Nat.not_lt_zero p)
  · rfl
  · rfl

theorem at_append {x : List α} (hx : x ≠ []) (h : c.At ls) : c.At (ls ++ [x]) := by
  rcases h with ⟨y,hy,hp⟩ | ⟨hd,hp⟩
  · have hlt := (List.getElem?_eq_some_iff.mp hy).1
    exact Or.inl ⟨y,by rw [List.getElem?_append_left hlt,hy],hp⟩
  · exact Or.inl ⟨x,by simp [hd],by rw [hp]; exact List.length_pos_of_ne_nil hx⟩

theorem left_append {x : List α} (h : c.At ls) : c.left (ls ++ [x]) = c.left ls ++ x := by
  rcases h with ⟨y,hy,hp⟩ | ⟨hd,hp⟩
  · obtain ⟨hlt,rfl⟩ := List.getElem?_eq_some_iff.mp hy
    rw [left,left,List.drop_append_of_le_length (by omega),List.flatten_append,
      List.drop_append_of_le_length]
    · simp
    · rw [List.drop_eq_getElem_cons hlt,List.flatten_cons,List.length_append]
      omega
  · simp [left,hd,hp]

theorem left_cons {m : α} {rest : List α} (hne : ∀ x ∈ ls, x ≠ []) (h : c.At ls)
    (hl : c.left ls = m :: rest) :
    ∃ x, ls[c.done]? = some x ∧ x[c.part]? = some m ∧ (c.next x.length).At ls ∧
      (c.next x.length).left ls = rest := by
  rcases h with ⟨x,hx,hp⟩ | ⟨hd,hp⟩
  · obtain ⟨hlt,rfl⟩ := List.getElem?_eq_some_iff.mp hx
    rw [left,List.drop_eq_getElem_cons hlt,List.flatten_cons,
      List.drop_append_of_le_length (by omega),List.drop_eq_getElem_cons hp] at hl
    obtain ⟨rfl,hrest⟩ := List.cons.inj hl
    refine ⟨_,hx,List.getElem?_eq_getElem hp,?_⟩
    unfold next
    split_ifs with hlast
    · refine ⟨?_,?_⟩
      · by_cases hd : c.done+1 < ls.length
        · exact Or.inl ⟨ls[c.done+1],List.getElem?_eq_getElem hd,
            List.length_pos_of_ne_nil (hne _ (List.getElem_mem hd))⟩
        · exact Or.inr ⟨by dsimp only; omega,rfl⟩
      · rw [hlast,List.drop_length] at hrest
        exact hrest
    · refine ⟨Or.inl ⟨_,hx,by dsimp only; omega⟩,?_⟩
      rw [left,List.drop_eq_getElem_cons hlt,List.flatten_cons,
        List.drop_append_of_le_length (by dsimp only; omega)]
      exact hrest
  · simp [left,hd,hp] at hl

theorem done_of_left_nil (h : c.At ls) (hl : c.left ls = []) : c.done = ls.length := by
  rcases h with ⟨x,hx,hp⟩ | ⟨hd,-⟩
  · obtain ⟨hlt,rfl⟩ := List.getElem?_eq_some_iff.mp hx
    rw [left,List.drop_eq_getElem_cons hlt,List.flatten_cons,
      List.drop_append_of_le_length (by omega),List.append_eq_nil_iff,List.drop_eq_nil_iff] at hl
    omega
  · exact hd

theorem behind_next (len p n : Nat) (hn : p = c.done → n = len) :
    (c.next len).behind p n = if p = c.done then c.part+1 else c.behind p n := by
  unfold next behind
  by_cases hd : p = c.done
  · have hnl := hn hd
    split_ifs <;> simp_all
  · split_ifs <;> simp_all <;> omega

end Cursor

end ApxBus
