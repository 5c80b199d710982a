import ApxBus.BitCodes
import ApxBus.Telemetry.Format
import Mathlib.Data.List.TakeWhile
set_option autoImplicit false

/-! The values of a frame on the wire: which slots have one, and the packed bytes. -/

namespace ApxBus.Telemetry

/-- A value on the wire: its bytes, or an option, which is half a byte. -/
inductive Packed where
  | bytes (b : List Byte)
  | nibble (v : Byte)
  deriving DecidableEq, Repr

/-- The values that belong to one code. Two options that follow each other share a byte, the first
one in its low half. -/
def payload : List Packed → List Byte
  | [] => []
  | .bytes b :: l => b ++ payload l
  | [.nibble v] => [v]
  | .nibble v :: .bytes b :: l => v :: (b ++ payload l)
  | .nibble v :: .nibble u :: l => (v ||| u <<< 4) :: payload l

def halfFull : List Packed → Bool
  | [] => false
  | .bytes _ :: l => halfFull l
  | [.nibble _] => true
  | .nibble _ :: .bytes _ :: l => halfFull l
  | .nibble _ :: .nibble _ :: l => halfFull l

theorem payload_snoc_bytes (l : List Packed) (b : List Byte) :
    payload (l ++ [.bytes b]) = payload l ++ b ∧ halfFull (l ++ [.bytes b]) = false := by
  fun_induction payload l with
  | case1 => simp [payload,halfFull]
  | case2 c l ih => simpa [payload,halfFull] using ih
  | case3 v => simp [payload,halfFull]
  | case4 v c l ih => simpa [payload,halfFull] using ih
  | case5 v u l ih => simpa [payload,halfFull] using ih

/-- Behind the bytes `q` an option begins a byte, or fills the last one. -/
def Fills (half half' : Bool) (q q' : List Byte) (v : Byte) : Prop :=
  half = false ∧ q' = q ++ [v] ∧ half' = true ∨
  half = true ∧ (∃ p x, q = p ++ [x] ∧ q' = p ++ [x ||| v <<< 4]) ∧ half' = false

theorem Fills.append {half half' : Bool} {q q' : List Byte} {v : Byte}
    (h : Fills half half' q q' v) (c : List Byte) : Fills half half' (c ++ q) (c ++ q') v := by
  rcases h with ⟨h1,rfl,h2⟩ | ⟨h1,⟨p,x,rfl,rfl⟩,h2⟩
  · exact Or.inl ⟨h1,(List.append_assoc _ _ _).symm,h2⟩
  · exact Or.inr ⟨h1,⟨c ++ p,x,(List.append_assoc _ _ _).symm,(List.append_assoc _ _ _).symm⟩,h2⟩

theorem payload_snoc_nibble (l : List Packed) (v : Byte) :
    Fills (halfFull l) (halfFull (l ++ [.nibble v])) (payload l)
      (payload (l ++ [.nibble v])) v := by
  fun_induction payload l with
  | case1 => exact Or.inl ⟨rfl,rfl,rfl⟩
  | case2 c l ih => exact ih.append c
  | case3 u => exact Or.inr ⟨rfl,⟨[],u,rfl,rfl⟩,rfl⟩
  | case4 u c l ih => exact ih.append (u :: c)
  | case5 u x l ih => exact ih.append [u ||| x <<< 4]

/-- The distance to a slot, in bytes with the high bit; a byte of 0x7F is not the last. -/
def offsetBytes (d : Nat) : List Byte :=
  List.replicate (d/0x7F) 0xFF#8 ++ [BitVec.ofNat 8 (d%0x7F) ||| 0x80#8]

theorem offsetBytes_small {d : Nat} (h : d < 0x7F) :
    offsetBytes d = [BitVec.ofNat 8 d ||| 0x80#8] := by
  rw [offsetBytes,Nat.div_eq_of_lt h,Nat.mod_eq_of_lt h]
  rfl

theorem offsetBytes_add (d : Nat) : offsetBytes (d+0x7F) = 0xFF#8 :: offsetBytes d := by
  rw [offsetBytes,Nat.add_div_right d (by decide),Nat.add_mod_right]
  rfl

def passing (field : Nat → Field) (pseq : Byte) (index stop : Nat) : List Nat :=
  (List.range' index (stop-index)).filter fun i => passes (field i) pseq

theorem pairwise_snoc {l : List Nat} {index : Nat} (h : l.Pairwise (· < ·))
    (hlt : ∀ j ∈ l, j < index) :
    (l ++ [index]).Pairwise (· < ·) ∧ ∀ j ∈ l ++ [index], j < index+1 := by
  refine ⟨List.pairwise_append.mpr ⟨h,List.pairwise_singleton _ _,fun j hj k hk => ?_⟩,
    fun j hj => ?_⟩
  · rw [List.mem_singleton.mp hk]
    exact hlt j hj
  · rcases List.mem_append.mp hj with hj | hj
    · exact Nat.lt_succ_of_lt (hlt j hj)
    · rw [List.mem_singleton.mp hj]
      exact Nat.lt_succ_self _

section Passing
variable {field : Nat → Field} {pseq : Byte} {index stop : Nat}

theorem passing_cons (h : index < stop) : passing field pseq index stop =
    (if passes (field index) pseq then [index] else []) ++ passing field pseq (index+1) stop := by
  unfold passing
  rw [show stop-index = stop-(index+1)+1 by omega,List.range'_succ]
  by_cases hp : passes (field index) pseq
  · rw [List.filter_cons_of_pos (by simpa using hp),if_pos hp]
    rfl
  · rw [List.filter_cons_of_neg (by simpa using hp),if_neg hp]
    rfl

theorem passing_congr {field' : Nat → Field} {pseq' : Byte}
    (h : ∀ i < stop, passes (field i) pseq ↔ passes (field' i) pseq') :
    passing field pseq index stop = passing field' pseq' index stop := by
  refine List.filter_congr fun i hi => ?_
  have hr := List.mem_range'_1.mp hi
  exact decide_eq_decide.mpr (h i (by omega))

theorem mem_passing {i : Nat} :
    i ∈ passing field pseq index stop ↔ index ≤ i ∧ i < stop ∧ passes (field i) pseq := by
  rw [passing,List.mem_filter,List.mem_range'_1,decide_eq_true_iff]
  constructor
  · rintro ⟨hr,hp⟩
    exact ⟨hr.1,by omega,hp⟩
  · rintro ⟨h1,h2,hp⟩
    exact ⟨⟨h1,by omega⟩,hp⟩

theorem passing_self (index : Nat) : passing field pseq index index = [] := by
  rw [passing,Nat.sub_self]
  rfl

theorem passing_length_le : (passing field pseq index stop).length ≤ stop-index := by
  have h := List.length_filter_le (fun i => decide (passes (field i) pseq))
    (List.range' index (stop-index))
  rwa [List.length_range'] at h

theorem passing_eq_cons {i : Nat} {l : List Nat} (h : passing field pseq index stop = i :: l) :
    index ≤ i ∧ i < stop ∧ passes (field i) pseq ∧
      (∀ k, index ≤ k → k < i → ¬ passes (field k) pseq) ∧ passing field pseq (i+1) stop = l := by
  obtain ⟨m,hm⟩ : ∃ m, stop-index = m := ⟨_,rfl⟩
  induction m generalizing index with
  | zero =>
    rw [passing,hm] at h
    cases h
  | succ m ih =>
    rw [passing_cons (by omega)] at h
    by_cases hp : passes (field index) pseq
    · rw [if_pos hp] at h
      obtain ⟨rfl,rfl⟩ := List.cons.inj h
      exact ⟨Nat.le_refl _,by omega,hp,fun k h1 h2 => by omega,rfl⟩
    · rw [if_neg hp] at h
      obtain ⟨h1,h2,h3,h4,h5⟩ := ih h (by omega)
      refine ⟨by omega,h2,h3,fun k hk1 hk2 => ?_,h5⟩
      rcases Nat.eq_or_lt_of_le hk1 with rfl | hlt
      · exact hp
      · exact h4 k hlt hk2

theorem passing_behind {i : Nat} {l1 l2 : List Nat}
    (h : passing field pseq index stop = l1 ++ i :: l2) :
    index ≤ i ∧ i < stop ∧ passing field pseq (i+1) stop = l2 := by
  induction l1 generalizing index with
  | nil =>
    obtain ⟨h1,h2,-,-,h3⟩ := passing_eq_cons h
    exact ⟨h1,h2,h3⟩
  | cons j l1 ih =>
    obtain ⟨h1,-,-,-,h3⟩ := passing_eq_cons h
    obtain ⟨h4,h5⟩ := ih h3
    exact ⟨by omega,h5⟩

end Passing

section
variable (val : Nat → Option Packed)

def presence (l : List Nat) : Byte := bitByte (l.map fun i => (val i).isSome)

/-- The wire of slots, with `val` their values: the slots in groups of seven, or those up to a value
skipped. Behind the last value is nothing. -/
inductive Wire : List Nat → List Byte → Prop
  | nil {zs : List Nat} : (∀ z ∈ zs, val z = none) → Wire zs []
  | last {l : List Nat} : l.length ≤ 7 → (∃ i ∈ l, (val i).isSome) →
      Wire l (presence val l :: payload (l.filterMap val))
  | group {l rest : List Nat} {w : List Byte} : l.length = 7 → (∃ i ∈ l, (val i).isSome) →
      Wire rest w → Wire (l ++ rest) (presence val l :: (payload (l.filterMap val) ++ w))
  | skip {z i : Nat} {zs rest : List Nat} {p : Packed} {w : List Byte} : 7 ≤ (z :: zs).length →
      z+7 ≤ i → i < z+240 → (∀ j ∈ z :: zs, val j = none) → val i = some p → Wire rest w →
      Wire (z :: zs ++ i :: rest) (offsetBytes (i-z) ++ (payload [p] ++ w))

/-- The slots `done` are on the wire `wd`, whatever comes behind them. -/
def Closed (done : List Nat) (wd : List Byte) : Prop :=
  ∀ rest w, Wire val rest w → Wire val (done ++ rest) (wd ++ w)

variable {val} {done : List Nat} {wd : List Byte}

theorem Closed.nil : Closed val [] [] := fun _ _ h => h

theorem Closed.group (h : Closed val done wd) {l : List Nat} (hl : l.length = 7)
    (hs : ∃ i ∈ l, (val i).isSome) :
    Closed val (done ++ l) (wd ++ (presence val l :: payload (l.filterMap val))) := by
  intro rest w hw
  rw [List.append_assoc,List.append_assoc]
  exact h _ _ (.group hl hs hw)

theorem Closed.skip (h : Closed val done wd) {z i : Nat} {zs : List Nat} {p : Packed}
    (hlen : 7 ≤ (z :: zs).length) (hz : z+7 ≤ i) (hi : i < z+240)
    (hn : ∀ j ∈ z :: zs, val j = none) (hp : val i = some p) :
    Closed val (done ++ (z :: zs ++ [i])) (wd ++ (offsetBytes (i-z) ++ payload [p])) := by
  intro rest w hw
  have hskip := h _ _ (.skip hlen hz hi hn hp hw)
  rw [List.append_assoc,List.append_assoc,List.append_assoc,List.append_assoc (offsetBytes (i-z))]
  exact hskip

theorem Wire.ne_nil {l : List Nat} {w : List Byte} (h : Wire val l w)
    (hs : ∃ i ∈ l, (val i).isSome) : w ≠ [] := by
  cases h with
  | nil hn =>
    obtain ⟨i,hi,hsome⟩ := hs
    rw [hn i hi] at hsome
    cases hsome
  | last => exact List.cons_ne_nil _ _
  | group => exact List.cons_ne_nil _ _
  | skip =>
    rw [offsetBytes]
    simp

theorem Wire.eq_nil {l : List Nat} {w : List Byte} (h : Wire val l w)
    (hn : ∀ i ∈ l, val i = none) : w = [] := by
  have hno : ∀ l' : List Nat, (∀ i ∈ l', i ∈ l) → ¬ ∃ i ∈ l', (val i).isSome := by
    rintro l' hl ⟨i,hi,hs⟩
    rw [hn i (hl i hi)] at hs
    cases hs
  cases h with
  | nil => rfl
  | last _ hs => exact absurd hs (hno _ fun _ hi => hi)
  | group _ hs _ => exact absurd hs (hno _ fun _ hi => List.mem_append_left _ hi)
  | @skip z i zs rest p w _ _ _ _ hp _ =>
    rw [hn i (List.mem_append_right _ List.mem_cons_self)] at hp
    cases hp

end

def nibbles : List Packed → Nat
  | [] => 0
  | .bytes _ :: ps => nibbles ps
  | .nibble _ :: ps => nibbles ps+1

theorem nibbles_of_bytes {ps : List Packed} (h : ∀ v, .nibble v ∉ ps) : nibbles ps = 0 := by
  induction ps with
  | nil => rfl
  | cons p ps ih =>
    cases p with
    | bytes b => exact ih fun v hv => h v (List.mem_cons_of_mem _ hv)
    | nibble v => exact absurd List.mem_cons_self (h v)

def Halved (ps : List Packed) : Prop := 0 < nibbles ps ∧ nibbles ps%2 = 0

instance (ps : List Packed) : Decidable (Halved ps) := inferInstanceAs (Decidable (_ ∧ _))

section
variable (val : Nat → Option Packed)

def firstCode (l : List Nat) : List Nat × List Nat :=
  if (l.take 7).filterMap val = [] then
    let l := l.dropWhile fun i => (val i).isNone
    (l.take 1,l.drop 1)
  else (l.take 7,l.drop 7)

/-- The values of the last code that has any. Each code has a slot, so there are not more of them
than slots. -/
def lastCode : Nat → List Nat → List Packed
  | 0, _ => []
  | fuel+1, l =>
    let (code,rest) := firstCode val l
    if rest.filterMap val = [] then code.filterMap val else lastCode fuel rest

variable {val} {l rest : List Nat}

theorem lastCode_nil (h : l.filterMap val = []) (fuel : Nat) : lastCode val fuel l = [] := by
  have hnone := List.filterMap_eq_nil_iff.mp h
  have hdrop : l.dropWhile (fun i => (val i).isNone) = [] :=
    List.dropWhile_eq_nil_iff.mpr fun j hj => by rw [hnone j hj]; rfl
  have htake : (l.take 7).filterMap val = [] :=
    List.filterMap_eq_nil_iff.mpr fun j hj => hnone j (List.mem_of_mem_take hj)
  cases fuel with
  | zero => rfl
  | succ fuel =>
    rw [lastCode,firstCode,if_pos htake,hdrop]
    rfl

theorem mem_lastCode {fuel : Nat} {p : Packed} (h : p ∈ lastCode val fuel l) :
    ∃ i ∈ l, val i = some p := by
  induction fuel generalizing l with
  | zero => exact absurd h List.not_mem_nil
  | succ fuel ih =>
    have hsub : (∀ i ∈ (firstCode val l).1, i ∈ l) ∧ ∀ i ∈ (firstCode val l).2, i ∈ l := by
      have hw := List.dropWhile_sublist (fun i => (val i).isNone) (l := l)
      unfold firstCode
      split_ifs
      · exact ⟨fun i hi => hw.subset (List.mem_of_mem_take hi),
          fun i hi => hw.subset (List.mem_of_mem_drop hi)⟩
      · exact ⟨fun i hi => List.mem_of_mem_take hi,fun i hi => List.mem_of_mem_drop hi⟩
    rw [lastCode] at h
    dsimp only at h
    split_ifs at h
    · obtain ⟨i,hi,hv⟩ := List.mem_filterMap.mp h
      exact ⟨i,hsub.1 i hi,hv⟩
    · obtain ⟨i,hi,hv⟩ := ih h
      exact ⟨i,hsub.2 i hi,hv⟩

theorem filterMap_ne_nil (h : ∃ i ∈ l, (val i).isSome) : l.filterMap val ≠ [] := by
  obtain ⟨i,hi,hs⟩ := h
  intro hnil
  rw [List.filterMap_eq_nil_iff.mp hnil i hi] at hs
  cases hs

theorem firstCode_group (hlen : l.length ≤ 7) (hfull : l.length = 7 ∨ rest = [])
    (hs : ∃ i ∈ l, (val i).isSome) : firstCode val (l ++ rest) = (l,rest) := by
  have htake : (l ++ rest).take 7 = l ∧ (l ++ rest).drop 7 = rest := by
    rcases hfull with h7 | rfl
    · exact ⟨List.take_left' h7,List.drop_left' h7⟩
    · rw [List.append_nil]
      exact ⟨List.take_of_length_le hlen,List.drop_of_length_le hlen⟩
  rw [firstCode,htake.1,htake.2,if_neg (filterMap_ne_nil hs)]

theorem firstCode_skip {zs : List Nat} {i : Nat} {p : Packed} (hlen : 7 ≤ zs.length)
    (hn : ∀ j ∈ zs, val j = none) (hp : val i = some p) :
    firstCode val (zs ++ i :: rest) = ([i],rest) := by
  have hdrop : (zs ++ i :: rest).dropWhile (fun j => (val j).isNone) = i :: rest := by
    rw [List.dropWhile_append_of_pos fun j hj => by rw [hn j hj]; rfl,
      List.dropWhile_cons_of_neg (by rw [hp]; exact Bool.false_ne_true)]
  rw [firstCode,List.take_append_of_le_length hlen,if_pos (List.filterMap_eq_nil_iff.mpr
    fun j hj => hn j (List.mem_of_mem_take hj)),hdrop]
  rfl

theorem Wire.cases_group {w' : List Byte} (hlen : l.length ≤ 7) (hfull : l.length = 7 ∨ rest = [])
    (hs : ∃ i ∈ l, (val i).isSome) (h : Wire val (l ++ rest) w') :
    ∃ w, Wire val rest w ∧ w' = presence val l :: (payload (l.filterMap val) ++ w) := by
  have hcode := firstCode_group hlen hfull hs
  have hs' : ∃ i ∈ l ++ rest, (val i).isSome := by
    obtain ⟨i,hi,hsome⟩ := hs
    exact ⟨i,List.mem_append_left _ hi,hsome⟩
  generalize hL : l ++ rest = L at h hcode hs'
  cases h with
  | nil hn =>
    obtain ⟨i,hi,hsome⟩ := hs'
    rw [hn i hi] at hsome
    cases hsome
  | last hlen2 hs2 =>
    have hcode2 := @firstCode_group val L [] hlen2 (Or.inr rfl) hs2
    rw [List.append_nil,hcode,Prod.mk.injEq] at hcode2
    obtain ⟨rfl,rfl⟩ := hcode2
    exact ⟨[],.nil (List.forall_mem_nil _),by rw [List.append_nil]⟩
  | group hl2 hs2 hw2 =>
    rw [firstCode_group hl2.le (Or.inl hl2) hs2,Prod.mk.injEq] at hcode
    obtain ⟨rfl,rfl⟩ := hcode
    exact ⟨_,hw2,rfl⟩
  | @skip z i zs rest2 p w2 hlen2 hz hi hn2 hp2 hw2 =>
    rw [firstCode_skip hlen2 hn2 hp2,Prod.mk.injEq] at hcode
    obtain ⟨rfl,rfl⟩ := hcode
    rw [List.singleton_append,← List.nil_append (i :: rest2)] at hL
    have hnil := List.append_cancel_right hL
    cases hnil

theorem Wire.cases_skip {z i : Nat} {zs : List Nat} {p : Packed} {w' : List Byte}
    (hlen : 7 ≤ (z :: zs).length) (hn : ∀ j ∈ z :: zs, val j = none) (hp : val i = some p)
    (h : Wire val (z :: zs ++ i :: rest) w') :
    ∃ w, Wire val rest w ∧ w' = offsetBytes (i-z) ++ (payload [p] ++ w) := by
  have hcode : firstCode val (z :: zs ++ i :: rest) = ([i],rest) := firstCode_skip hlen hn hp
  generalize hL : z :: zs ++ i :: rest = L at h hcode
  cases h with
  | nil hn2 =>
    rw [hn2 i (hL ▸ List.mem_append_right _ List.mem_cons_self)] at hp
    cases hp
  | last hlen2 hs2 =>
    rw [← hL] at hlen2
    simp only [List.length_append,List.length_cons] at hlen hlen2
    omega
  | group hl2 hs2 hw2 =>
    rw [firstCode_group hl2.le (Or.inl hl2) hs2,Prod.mk.injEq] at hcode
    rw [hcode.1] at hl2
    cases hl2
  | skip hlen2 hz hi hn2 hp2 hw2 =>
    rw [firstCode_skip hlen2 hn2 hp2,Prod.mk.injEq,List.cons.injEq] at hcode
    obtain ⟨⟨rfl,-⟩,rfl⟩ := hcode
    have hzs := List.append_cancel_right hL
    obtain ⟨rfl,rfl⟩ := List.cons.inj hzs
    rw [hp,Option.some.injEq] at hp2
    subst hp2
    exact ⟨_,hw2,rfl⟩

theorem Wire.unique {w w' : List Byte} (h : Wire val l w) (h' : Wire val l w') : w' = w := by
  induction h generalizing w' with
  | nil hn => exact h'.eq_nil hn
  | @last l hlen hs =>
    rw [← List.append_nil l] at h'
    obtain ⟨w2,hw2,rfl⟩ := Wire.cases_group hlen (Or.inr rfl) hs h'
    rw [hw2.eq_nil (List.forall_mem_nil _),List.append_nil]
  | group hl hs hw ih =>
    obtain ⟨w2,hw2,rfl⟩ := Wire.cases_group hl.le (Or.inl hl) hs h'
    rw [ih hw2]
  | skip hlen hz hi hn hp hw ih =>
    obtain ⟨w2,hw2,rfl⟩ := Wire.cases_skip hlen hn hp h'
    rw [ih hw2]

theorem Wire.congr {val' : Nat → Option Packed} {w : List Byte} (h : Wire val l w)
    (hv : ∀ i ∈ l, val' i = val i) : Wire val' l w := by
  have hgroup : ∀ l : List Nat, (∀ i ∈ l, val' i = val i) →
      presence val l = presence val' l ∧ l.filterMap val = l.filterMap val' := by
    intro l hl
    refine ⟨congrArg bitByte (List.map_congr_left fun i hi => ?_),
      List.filterMap_congr fun i hi => (hl i hi).symm⟩
    rw [hl i hi]
  induction h with
  | nil hn => exact .nil fun z hz => (hv z hz).trans (hn z hz)
  | @last l hlen hs =>
    obtain ⟨hp,hf⟩ := hgroup l hv
    rw [hp,hf]
    obtain ⟨i,hi,hsome⟩ := hs
    exact .last hlen ⟨i,hi,by rw [hv i hi]; exact hsome⟩
  | @group l rest w hl hs hw ih =>
    obtain ⟨hp,hf⟩ := hgroup l fun i hi => hv i (List.mem_append_left _ hi)
    rw [hp,hf]
    obtain ⟨i,hi,hsome⟩ := hs
    exact .group hl ⟨i,hi,by rw [hv i (List.mem_append_left _ hi)]; exact hsome⟩
      (ih fun i hi => hv i (List.mem_append_right _ hi))
  | skip hlen hz hi hn hp hw ih =>
    refine .skip hlen hz hi (fun j hj => ?_) ?_ (ih fun j hj => ?_)
    · rw [hv j (List.mem_append_left _ hj)]
      exact hn j hj
    · rw [hv _ (List.mem_append_right _ List.mem_cons_self)]
      exact hp
    · exact hv j (List.mem_append_right _ (List.mem_cons_of_mem _ hj))

end

end ApxBus.Telemetry
