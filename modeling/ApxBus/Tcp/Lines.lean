import ApxBus.Crc32
import Mathlib.Data.List.TakeWhile
import Mathlib.Data.List.Infix
set_option autoImplicit false

/-! Lines that are received byte by byte, `tcp_client::readline`, and the functions of C strings
that are used on them. -/

namespace ApxBus.Tcp

def ascii (s : String) : List Byte := s.toList.map fun c => BitVec.ofNat 8 c.toNat

def cr : Byte := 13#8

def lf : Byte := 10#8

def cstr (line : List Byte) : List Byte := line.takeWhile (· ≠ 0#8)

def strstr (needle : List Byte) : List Byte → Option (List Byte)
  | [] => if needle.isPrefixOf [] then some [] else none
  | b :: s => if needle.isPrefixOf (b :: s) then some (b :: s) else strstr needle s

/-- `rcnt` more bytes may be received; `line` has those that are stored. What can be received is a
list that ends with the connection, or with the time to wait. -/
def readLoop : Nat → List Byte → List Byte → Option (List Byte) × List Byte
  | 0, _, s => (none,s)
  | _+1, _, [] => (none,[])
  | rcnt+1, line, b :: s =>
    if b = cr then readLoop rcnt line s
    else if b = lf then (some line,s)
    else readLoop rcnt (line ++ [b]) s

def readline (maxSize : Nat) (s : List Byte) : Option (List Byte) × List Byte :=
  readLoop (maxSize-1) [] s

def stored (raw : List Byte) : List Byte := raw.filter (· ≠ cr)

theorem stored_clean {raw : List Byte} (h : cr ∉ raw) : stored raw = raw := by
  refine List.filter_eq_self.mpr fun b hb => decide_eq_true fun he => h ?_
  rwa [← he]

theorem stored_append (a b : List Byte) : stored (a ++ b) = stored a ++ stored b :=
  List.filter_append a b

theorem cstr_clean {line : List Byte} (h : 0#8 ∉ line) : cstr line = line := by
  refine List.takeWhile_eq_self_iff.mpr fun b hb => decide_eq_true fun he => h ?_
  rwa [← he]

def text (raw : List Byte) : List Byte := cstr (stored raw)

/-- A line that is read in one go, without its end. -/
structure Short (raw : List Byte) : Prop where
  noEnd : lf ∉ raw
  fits : raw.length < 255

instance (raw : List Byte) : Decidable (Short raw) :=
  decidable_of_iff (lf ∉ raw ∧ raw.length < 255) ⟨fun h => ⟨h.1,h.2⟩,fun h => ⟨h.noEnd,h.fits⟩⟩

section
variable {raw line rest s : List Byte} {n : Nat}

theorem readLoop_line (hn : lf ∉ raw) (hlt : raw.length < n) :
    readLoop n line (raw ++ lf :: rest) = (some (line ++ stored raw),rest) := by
  induction raw generalizing n line with
  | nil =>
    obtain ⟨m,rfl⟩ := Nat.exists_eq_add_of_lt hlt
    rw [List.nil_append,readLoop,if_neg (by decide),if_pos rfl]
    simp [stored]
  | cons b raw ih =>
    rw [List.length_cons] at hlt
    obtain ⟨m,rfl⟩ : ∃ m, n = m+1 := ⟨n-1,by omega⟩
    have hb : b ≠ lf := fun h => hn (h ▸ List.mem_cons_self)
    have hn' : lf ∉ raw := fun h => hn (List.mem_cons_of_mem b h)
    rw [List.cons_append,readLoop]
    by_cases hcr : b = cr
    · rw [if_pos hcr,ih hn' (by omega)]
      simp [stored,hcr]
    · rw [if_neg hcr,if_neg hb,ih hn' (by omega)]
      simp [stored,hcr]

theorem readLoop_none (h : ∀ raw rest, s = raw ++ lf :: rest → lf ∉ raw → n ≤ raw.length) :
    (readLoop n line s).1 = none := by
  induction s generalizing n line with
  | nil => cases n <;> rfl
  | cons b s ih =>
    cases n with
    | zero => rfl
    | succ n =>
      have hb : b ≠ lf := fun hb => by
        have h0 := h [] s (by rw [hb]; rfl) List.not_mem_nil
        simp at h0
      have hs : ∀ raw rest, s = raw ++ lf :: rest → lf ∉ raw → n ≤ raw.length := by
        intro raw rest he hn
        have h1 := h (b :: raw) rest (by rw [he]; rfl) (by simp [hn,Ne.symm hb])
        simpa using h1
      rw [readLoop]
      split_ifs
      · exact ih hs
      · exact ih hs

theorem readline_iff : readline 256 s = (some line,rest) ↔
    ∃ raw, Short raw ∧ s = raw ++ lf :: rest ∧ line = stored raw := by
  constructor
  · intro h
    by_cases hex : ∃ raw t, s = raw ++ lf :: t ∧ lf ∉ raw ∧ raw.length < 255
    · obtain ⟨raw,t,rfl,hn,hlt⟩ := hex
      rw [readline,readLoop_line hn hlt] at h
      obtain ⟨hl,rfl⟩ := Prod.mk.inj h
      exact ⟨raw,⟨hn,hlt⟩,rfl,(Option.some.inj hl).symm⟩
    · have hnone : (readLoop 255 [] s).1 = none := readLoop_none fun raw t he hn => by
        by_contra hlt
        exact hex ⟨raw,t,he,hn,by omega⟩
      rw [show readLoop 255 [] s = _ from h] at hnone
      cases hnone
  · rintro ⟨raw,hs,rfl,rfl⟩
    exact readLoop_line hs.noEnd hs.fits

theorem readline_short (h : Short raw) :
    readline 256 (raw ++ lf :: rest) = (some (stored raw),rest) :=
  readline_iff.mpr ⟨raw,h,rfl,rfl⟩

theorem readline_cases (s : List Byte) : (readline 256 s).1 = none ∨
    ∃ raw rest, Short raw ∧ s = raw ++ lf :: rest ∧ readline 256 s = (some (stored raw),rest) := by
  cases h : readline 256 s with
  | mk line rest =>
    cases line with
    | none => exact Or.inl rfl
    | some line =>
      obtain ⟨raw,hs,he,rfl⟩ := readline_iff.mp h
      exact Or.inr ⟨raw,rest,hs,he,rfl⟩

end

section
variable {needle s : List Byte}

theorem strstr_isSome_iff : (strstr needle s).isSome ↔ needle <:+: s := by
  induction s with
  | nil =>
    rw [strstr,List.infix_nil]
    split_ifs with h
    · exact iff_of_true rfl (List.prefix_nil.mp (List.isPrefixOf_iff_prefix.mp h))
    · exact iff_of_false (by simp) fun he => h (by rw [he]; rfl)
  | cons b s ih =>
    rw [strstr,List.infix_cons_iff]
    split_ifs with h
    · exact iff_of_true rfl (Or.inl (List.isPrefixOf_iff_prefix.mp h))
    · rw [ih,or_iff_right fun hp => h (List.isPrefixOf_iff_prefix.mpr hp)]

theorem strstr_skip {b : Byte} {a : List Byte} (h : b ∉ a) :
    strstr (b :: needle) (a ++ s) = strstr (b :: needle) s := by
  induction a with
  | nil => rfl
  | cons c a ih =>
    have hne : b ≠ c := fun he => h (he ▸ List.mem_cons_self)
    rw [List.cons_append,strstr,if_neg,ih fun hm => h (List.mem_cons_of_mem c hm)]
    simp [List.isPrefixOf,hne]

end

end ApxBus.Tcp
