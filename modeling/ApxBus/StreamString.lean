import ApxBus.Stream
set_option autoImplicit false

/-! Strings in the streams, `write_string` of `xbus/XbusStreamWriter.h` and `read_string` of
`xbus/XbusStreamReader.h`. -/

namespace ApxBus

/-- `strnlen` of the memory from a pointer on. -/
def strnlen (s : List Byte) (n : Nat) : Nat := ((s.take n).takeWhile (· ≠ 0#8)).length

/-- The return value and the writer; `s` is the memory from the pointer on. -/
def Writer.writeString (w : Writer) (s : List Byte) : Nat × Writer :=
  let sz := strnlen s w.available+1
  if sz ≤ 0 ∨ sz ≥ w.available then (0,w)
  else (sz,⟨overwrite w.buf w.pos (s.take sz),w.pos+sz⟩)

/-- The value of a `char`, which is signed or not. -/
def charValue (signed : Bool) (c : Byte) : Int := if signed then c.toInt else c.toNat

/-- The loop of `read_string`: what it leaves in `max_size` and `len`. There is no result where
it reads at or past the end of the stream. -/
def Reader.readStringLoop (signed : Bool) (r : Reader) : Nat → Nat → Option (Nat × Nat)
  | 0, len => some (0,len)
  | maxSize+1, len => do
    let v := charValue signed (← r.buf[r.pos+len]?)
    if v = 0 then some (maxSize+1,len)
    else if v = 10 then r.readStringLoop signed maxSize (len+1)
    else if v = 13 then r.readStringLoop signed maxSize (len+1)
    else if v = 9 then r.readStringLoop signed maxSize (len+1)
    else if v ≥ 32 ∧ v < 127 then r.readStringLoop signed maxSize (len+1)
    else some (0,len+1)

/-- The string, its characters up to the terminator, or none for `nullptr`. -/
def Reader.readString (signed : Bool) (r : Reader) (maxSize : Nat) :
    Option (Option (List Byte) × Reader) :=
  let tail := r.available
  if tail = 0 then some (none,r)
  else do
    let (maxSize,len) ← r.readStringLoop signed (if maxSize > tail then tail else maxSize) 0
    if maxSize = 0 then some (none,r.reset (r.pos+tail))
    else some (some (r.rest.take len),r.reset (r.pos+len+1))

def Accepted (c : Byte) : Prop :=
  32 ≤ c.toNat ∧ c.toNat ≤ 126 ∨ c = 9#8 ∨ c = 13#8 ∨ c = 10#8

instance (c : Byte) : Decidable (Accepted c) := inferInstanceAs (Decidable (_ ∨ _))

def stringAt : List Byte → Option (List Byte)
  | [] => none
  | c :: l => if c = 0#8 then some [] else if Accepted c then (stringAt l).map (c :: ·) else none

theorem stringAt_eq_some_iff {l s : List Byte} :
    stringAt l = some s ↔ (∀ c ∈ s, Accepted c) ∧ ∃ tail, l = s ++ 0#8 :: tail := by
  induction l generalizing s with
  | nil => simp [stringAt]
  | cons c l ih =>
    rw [stringAt]
    by_cases h0 : c = 0#8
    · subst h0
      rw [if_pos rfl]
      constructor
      · rintro ⟨⟩
        exact ⟨by simp,l,rfl⟩
      · rintro ⟨hs,tail,hl⟩
        cases s with
        | nil => rfl
        | cons d s =>
          have hd := hs d List.mem_cons_self
          rw [List.cons_append,List.cons.injEq] at hl
          rw [← hl.1] at hd
          exact absurd hd (by decide)
    · rw [if_neg h0]
      by_cases hc : Accepted c
      · rw [if_pos hc,Option.map_eq_some_iff]
        constructor
        · rintro ⟨s,hs,rfl⟩
          obtain ⟨ha,tail,rfl⟩ := ih.mp hs
          exact ⟨List.forall_mem_cons.mpr ⟨hc,ha⟩,tail,rfl⟩
        · rintro ⟨ha,tail,hl⟩
          cases s with
          | nil => exact absurd (List.cons.inj hl).1 h0
          | cons d s =>
            obtain ⟨rfl,htail⟩ := List.cons.inj hl
            exact ⟨s,ih.mpr ⟨fun c hc => ha c (List.mem_cons_of_mem _ hc),tail,htail⟩,rfl⟩
      · rw [if_neg hc]
        refine iff_of_false (fun h => by cases h) ?_
        rintro ⟨ha,tail,hl⟩
        cases s with
        | nil => exact h0 (List.cons.inj hl).1
        | cons d s =>
          rw [(List.cons.inj hl).1] at hc
          exact hc (ha d List.mem_cons_self)

theorem charValue_accepted (signed : Bool) (c : Byte) : (charValue signed c = 0 ↔ c = 0#8) ∧
    (c ≠ 0#8 → (Accepted c ↔ charValue signed c = 10 ∨ charValue signed c = 13 ∨
      charValue signed c = 9 ∨ charValue signed c ≥ 32 ∧ charValue signed c < 127)) := by
  revert signed c
  decide

namespace Reader

variable {signed : Bool} {r : Reader}

theorem readStringLoop_succ {maxSize len : Nat} {c : Byte} (hc : r.buf[r.pos+len]? = some c) :
    r.readStringLoop signed (maxSize+1) len =
      if c = 0#8 then some (maxSize+1,len)
      else if Accepted c then r.readStringLoop signed maxSize (len+1) else some (0,len+1) := by
  obtain ⟨h0,ha⟩ := charValue_accepted signed c
  rw [readStringLoop,hc]
  simp only [Option.bind_eq_bind,Option.bind_some]
  by_cases hz : c = 0#8
  · rw [if_pos hz,if_pos (h0.mpr hz)]
  · rw [if_neg hz,if_neg fun h => hz (h0.mp h)]
    by_cases hacc : Accepted c
    · rw [if_pos hacc]
      have hv := (ha hz).mp hacc
      split_ifs <;> first | rfl | omega
    · rw [if_neg hacc]
      have hv := mt (ha hz).mpr hacc
      split_ifs <;> first | rfl | omega

/-- The loop over `maxSize` bytes of the stream: the budget that is left stands for a terminator
that was found, and zero for none. -/
theorem readStringLoop_spec {maxSize len : Nat} (h : r.pos+len+maxSize ≤ r.size) :
    ∃ len', r.readStringLoop signed maxSize len =
      match stringAt ((r.rest.drop len).take maxSize) with
      | some s => some (maxSize-s.length,len+s.length)
      | none => some (0,len') := by
  induction maxSize generalizing len with
  | zero => exact ⟨len,rfl⟩
  | succ maxSize ih =>
    have hlt : r.pos+len < r.buf.length := by unfold size at h; omega
    have hget := List.getElem?_eq_getElem hlt
    have hcons : (r.rest.drop len).take (maxSize+1) =
        r.buf[r.pos+len] :: (r.rest.drop (len+1)).take maxSize := by
      rw [rest,List.drop_drop,List.drop_drop,List.drop_eq_getElem_cons hlt,List.take_succ_cons]
      rfl
    rw [readStringLoop_succ hget,hcons,stringAt]
    generalize r.buf[r.pos+len] = c
    by_cases hz : c = 0#8
    · exact ⟨0,by rw [if_pos hz,if_pos hz]; rfl⟩
    · obtain ⟨len',hloop⟩ := ih (show r.pos+(len+1)+maxSize ≤ r.size by omega)
      rw [if_neg hz,if_neg hz]
      by_cases hacc : Accepted c
      · rw [if_pos hacc,if_pos hacc,hloop]
        refine ⟨len',?_⟩
        cases hs : stringAt ((r.rest.drop (len+1)).take maxSize) with
        | none => rfl
        | some s =>
          simp only [Option.map_some,List.length_cons]
          congr 2
          · omega
          · omega
      · exact ⟨len+1,by rw [if_neg hacc,if_neg hacc]⟩

/-- `read_string`, by the string that stands in the bytes it looks at. -/
theorem readString_eq (signed : Bool) (r : Reader) (maxSize : Nat) :
    r.readString signed maxSize =
      match stringAt (r.rest.take (min maxSize r.available)) with
      | some s => some (some s,{r with pos := r.pos+s.length+1})
      | none => some (none,{r with pos := if 0 < r.available then r.size else r.pos}) := by
  rw [readString]
  by_cases h0 : r.available = 0
  · rw [if_pos h0,h0,Nat.min_zero]
    rfl
  · have hav : r.pos < r.size := by unfold available at h0; omega
    have hmin : (if maxSize > r.available then r.available else maxSize) =
        min maxSize r.available := by split_ifs <;> omega
    have hle : min maxSize r.available ≤ r.size-r.pos := Nat.min_le_right _ _
    obtain ⟨len',hloop⟩ := @readStringLoop_spec signed r (min maxSize r.available) 0 (by omega)
    rw [if_neg h0,hmin,hloop,List.drop_zero,if_pos (Nat.pos_of_ne_zero h0)]
    cases hs : stringAt (r.rest.take (min maxSize r.available)) with
    | none =>
      have hend : r.reset (r.pos+r.available) = {r with pos := r.size} := by
        unfold reset available
        split_ifs
        · rfl
        · rw [Nat.add_sub_cancel' hav.le]
      simp only [Option.bind_eq_bind,Option.bind_some,if_true,hend]
    | some s =>
      obtain ⟨-,tail,htail⟩ := stringAt_eq_some_iff.mp hs
      have hlen := congrArg List.length htail
      rw [List.length_take_of_le (by rw [rest_length]; exact Nat.min_le_right _ _),
        List.length_append,List.length_cons] at hlen
      have htake : r.rest.take s.length = s := by
        have hpre := congrArg (List.take s.length) htail
        rwa [List.take_take,Nat.min_eq_left (by omega),List.take_left] at hpre
      have hreset : r.reset (r.pos+(0+s.length)+1) = {r with pos := r.pos+s.length+1} := by
        rw [reset,if_neg (by omega),Nat.zero_add]
      simp only [Option.bind_eq_bind,Option.bind_some]
      rw [if_neg (by omega),hreset,Nat.zero_add,htake]

theorem readString_append {s l : List Byte} (hs : ∀ c ∈ s, Accepted c)
    (hr : r.rest = s ++ 0#8 :: l) {maxSize : Nat} (hm : s.length < maxSize) :
    r.readString signed maxSize = some (some s,{r with pos := r.pos+s.length+1}) := by
  have hlen := r.rest_length
  rw [hr,List.length_append,List.length_cons] at hlen
  have hwin : ∃ tail, r.rest.take (min maxSize r.available) = s ++ 0#8 :: tail := by
    refine ⟨l.take (min maxSize r.available-s.length-1),?_⟩
    rw [hr,List.take_append,List.take_of_length_le (by omega),
      show min maxSize r.available-s.length = min maxSize r.available-s.length-1+1 by omega,
      List.take_succ_cons]
    rfl
  rw [readString_eq,stringAt_eq_some_iff.mpr ⟨hs,hwin⟩]

/-- `read_string` takes exactly the strings of accepted characters whose terminator is among the
bytes it may look at, and it looks at no other bytes. -/
theorem readString_accepts (signed : Bool) (r : Reader) (maxSize : Nat) :
    ∃ res r', r.readString signed maxSize = some (res,r') ∧
      (∀ s, res = some s ↔ (∀ c ∈ s, Accepted c) ∧
        ∃ tail, r.rest.take (min maxSize r.available) = s ++ 0#8 :: tail) ∧
      (∀ s, res = some s → r' = {r with pos := r.pos+s.length+1}) ∧
      (res = none → r' = {r with pos := if 0 < r.available then r.size else r.pos}) := by
  rw [readString_eq]
  cases hs : stringAt (r.rest.take (min maxSize r.available)) with
  | none =>
    refine ⟨none,_,rfl,fun s => ?_,fun s h => ?_,fun _ => rfl⟩
    · rw [← stringAt_eq_some_iff,hs]
    · cases h
  | some s =>
    refine ⟨some s,_,rfl,fun s' => ?_,fun s' h => ?_,fun h => ?_⟩
    · rw [← stringAt_eq_some_iff,hs]
    · rw [Option.some.inj h]
    · cases h

end Reader

theorem strnlen_terminated {s : List Byte} (hs : ∀ c ∈ s, c ≠ 0#8) (after : List Byte) (n : Nat) :
    strnlen (s ++ 0#8 :: after) n = min s.length n := by
  have hall : ∀ c ∈ s, decide (c ≠ 0#8) = true := fun c hc => decide_eq_true (hs c hc)
  rw [strnlen,List.take_append]
  by_cases hn : n ≤ s.length
  · rw [Nat.sub_eq_zero_of_le hn,List.take_zero,
      List.takeWhile_append_of_pos fun c hc => hall c (List.mem_of_mem_take hc),List.takeWhile_nil,
      List.append_nil,List.length_take,Nat.min_comm]
  · rw [List.take_of_length_le (by omega),List.takeWhile_append_of_pos hall,
      show n-s.length = n-s.length-1+1 by omega,List.take_succ_cons,
      List.takeWhile_cons_of_neg (by simp),List.append_nil,Nat.min_eq_left (by omega)]

namespace Writer

theorem writeString_terminated {s : List Byte} (hs : ∀ c ∈ s, c ≠ 0#8) (after : List Byte)
    (w : Writer) : w.writeString (s ++ 0#8 :: after) =
      if s.length+1 < w.available then
        (s.length+1,⟨overwrite w.buf w.pos (s ++ [0#8]),w.pos+(s.length+1)⟩)
      else (0,w) := by
  have htake : (s ++ 0#8 :: after).take (s.length+1) = s ++ [0#8] := by
    rw [List.take_append,Nat.add_sub_cancel_left,List.take_of_length_le (by omega)]
    rfl
  rw [writeString,strnlen_terminated hs]
  by_cases hfit : s.length+1 < w.available
  · rw [if_pos hfit,Nat.min_eq_left (by omega),if_neg (by omega),htake]
  · rw [if_neg hfit,if_pos (by omega)]

/-- What sending a string from a writer to a reader of its buffer should do: `write_string`
succeeds exactly when there is room, the string is read back, and a failure changes nothing. -/
def SendsString (w : Writer) (signed : Bool) (s after : List Byte) (maxSize : Nat) : Prop :=
  let (sz,w') := w.writeString (s ++ 0#8 :: after)
  (0 < sz ↔ s.length+1 ≤ w.available) ∧
  (0 < sz → sz = s.length+1 ∧ w'.pos = w.pos+(s.length+1) ∧ ∀ n, w'.pos ≤ n →
    Reader.readString signed ⟨w'.buf.take n,w.pos⟩ maxSize =
      some (some s,⟨w'.buf.take n,w.pos+(s.length+1)⟩)) ∧
  (sz = 0 → w' = w)

theorem sendsString_iff (w : Writer) (signed : Bool) {s : List Byte} (hs : ∀ c ∈ s, Accepted c)
    (after : List Byte) {maxSize : Nat} (hm : s.length < maxSize) :
    w.SendsString signed s after maxSize ↔ s.length+1 ≠ w.available := by
  have hz : ∀ c ∈ s, c ≠ 0#8 := fun c hc h => absurd (hs c hc) (by rw [h]; decide)
  rw [SendsString,writeString_terminated hz]
  by_cases hfit : s.length+1 < w.available
  · rw [if_pos hfit]
    refine iff_of_true ⟨⟨fun _ => hfit.le,fun _ => Nat.succ_pos _⟩,fun _ => ⟨rfl,rfl,?_⟩,?_⟩ hfit.ne
    · intro n hn
      have hn : w.pos+(s.length+1) ≤ n := hn
      refine Reader.readString_append (l := ?_) hs ?_ hm
      · exact (w.buf.drop (w.pos+(s ++ [0#8]).length)).take (n-w.pos-(s.length+1))
      · have hpos : w.pos ≤ w.buf.length := by unfold available size at hfit; omega
        have hpre : (w.buf.take w.pos).length = w.pos := List.length_take_of_le hpos
        rw [Reader.rest,List.drop_take,overwrite,List.append_assoc,List.drop_left' hpre,
          List.take_append,List.take_of_length_le (by simp; omega),List.length_append,
          List.length_singleton,List.append_assoc]
        rfl
    · intro h
      exact absurd h (Nat.succ_ne_zero _)
  · rw [if_neg hfit]
    constructor
    · rintro ⟨hiff,-⟩ heq
      exact absurd (hiff.mpr heq.le) (Nat.lt_irrefl 0)
    · intro hne
      refine ⟨iff_of_false (Nat.lt_irrefl 0) (by omega),fun h => absurd h (Nat.lt_irrefl 0),
        fun _ => rfl⟩

theorem sendsString_iff_two :
    Writer.SendsString ⟨[7#8,0#8,0#8,0#8,0#8],1⟩ true [65#8,66#8] [] 5 ↔ 2+1 ≠ 4 :=
  sendsString_iff ⟨[7#8,0#8,0#8,0#8,0#8],1⟩ true (by decide) [] (by decide)

/-- Three free bytes and a string of two characters. -/
theorem just_fits_refused : Writer.available ⟨[7#8,0#8,0#8,0#8],1⟩ = 2+1 ∧
    Writer.writeString ⟨[7#8,0#8,0#8,0#8],1⟩ [65#8,66#8,0#8] = (0,⟨[7#8,0#8,0#8,0#8],1⟩) ∧
    ¬ Writer.SendsString ⟨[7#8,0#8,0#8,0#8],1⟩ true [65#8,66#8] [] 3 := by
  have hw : Writer.writeString ⟨[7#8,0#8,0#8,0#8],1⟩ [65#8,66#8,0#8] =
      (0,⟨[7#8,0#8,0#8,0#8],1⟩) := by decide
  refine ⟨by decide,hw,?_⟩
  intro h
  have hsz := h.1.mpr (by decide)
  exact absurd hsz (by decide)

end Writer

end ApxBus
