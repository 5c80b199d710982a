import Mathlib.Logic.Function.Basic
set_option autoImplicit false

/-!
Values that are sent only when they changed. A sender goes through its items in order, up to
the place where a frame is full, and sends those that are due or differ from what it sent last;
the item where it stopped is due the next time. Nothing here depends on how a frame is written.
-/

namespace ApxBus.DeltaFeed

/-- What was sent last of each item, and which items are to be sent in any case. -/
structure Sender (V : Type*) where
  last : Nat → V
  due : Nat → Prop

namespace Sender
variable {V R : Type*}

def Wanted (s : Sender V) (new : Nat → V) (i : Nat) : Prop := s.due i ∨ new i ≠ s.last i

/-- The sender after a frame that ended before item `j`. -/
structure Step (s : Sender V) (n : Nat) (new : Nat → V) (j : Nat) (s' : Sender V) : Prop where
  le : j ≤ n
  sent : ∀ i, i < j → s'.last i = new i ∧ ¬ s'.due i
  stop : j < n → s.Wanted new j ∧ s'.due j
  last : ∀ i, j ≤ i → i < n → s'.last i = s.last i
  due : ∀ i, j < i → i < n → (s'.due i ↔ s.due i)

structure Heard (s : Sender V) (new : Nat → V) (dec : Nat → V → R) (j : Nat) (r r' : Nat → R) :
    Prop where
  wanted : ∀ i, i < j → s.Wanted new i → r' i = dec i (new i)
  other : ∀ i, ¬ (i < j ∧ s.Wanted new i) → r' i = r i

def Synced (s : Sender V) (n : Nat) (dec : Nat → V → R) (r : Nat → R) : Prop :=
  ∀ i, i < n → ¬ s.due i → r i = dec i (s.last i)

variable {s s' : Sender V} {n j : Nat} {new : Nat → V} {dec : Nat → V → R} {r r' : Nat → R}

theorem Synced.current (h : s.Synced n dec r) (hs : s.Step n new j s')
    (hr : s.Heard new dec j r r') {i : Nat} (hi : i < j) : r' i = dec i (new i) := by
  by_cases hw : s.Wanted new i
  · exact hr.wanted i hi hw
  · rw [hr.other i fun hn => hw hn.2]
    rw [Wanted,not_or,not_ne_iff] at hw
    rw [hw.2]
    exact h i (Nat.lt_of_lt_of_le hi hs.le) hw.1

theorem Synced.step (h : s.Synced n dec r) (hs : s.Step n new j s')
    (hr : s.Heard new dec j r r') : s'.Synced n dec r' := by
  intro i hi hd
  rcases Nat.lt_trichotomy i j with hij | rfl | hji
  · rw [(hs.sent i hij).1]
    exact h.current hs hr hij
  · exact absurd (hs.stop hi).2 hd
  · rw [hr.other i fun hn => Nat.lt_asymm hji hn.1,hs.last i (Nat.le_of_lt hji) hi]
    exact h i hi fun hn => hd ((hs.due i hji hi).mpr hn)

theorem Synced.mono (h : s.Synced n dec r) (hl : ∀ i, s'.last i = s.last i)
    (hd : ∀ i, s.due i → s'.due i) : s'.Synced n dec r := by
  intro i hi hn
  rw [hl]
  exact h i hi fun hs => hn (hd i hs)

/-- The first `f` items need not be sent. -/
def Clear (s : Sender V) (new : Nat → V) (f : Nat) : Prop := ∀ i, i < f → ¬ s.Wanted new i

theorem Clear.step {f : Nat} (h : s.Clear new f) (hs : s.Step n new j s')
    (hone : j < n → ∃ i, i < j ∧ s.Wanted new i) : s'.Clear new (min (f+1) n) := by
  intro i hi hw
  have hif : i < f+1 := by omega
  have hin : i < n := by omega
  have hij : i < j := by
    by_contra hji
    obtain ⟨k,hk,hkw⟩ := hone (by omega)
    have hkf : ¬ k < f := fun hn => h k hn hkw
    omega
  rcases hw with hw | hw
  · exact (hs.sent i hij).2 hw
  · exact hw (hs.sent i hij).1.symm

end Sender

end ApxBus.DeltaFeed
