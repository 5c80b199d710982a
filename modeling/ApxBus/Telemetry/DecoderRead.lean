import ApxBus.Telemetry.DecoderFrame
import ApxBus.Telemetry.Wire
set_option autoImplicit false

/-! The loops of the decoder read the values and bitfields of a frame from the wire. -/

namespace ApxBus.Telemetry
open Function Mandala

def Field.Carries (f : Field) : Packed → Prop
  | .nibble v => f.fmt = Fmt.u4.code ∧ v &&& 0x0F#8 = v
  | .bytes b => f.fmt ≠ Fmt.u4.code ∧ b.length = wireSize f.fmt ∧ b ≠ []

/-- What `unpack_value` makes of the bytes of a value, over the raw value that was there. -/
def received (f : Field) (old : BitVec 32) : Packed → BitVec 32 × TypeId
  | .nibble v => (v.setWidth 32,.byte)
  | .bytes b =>
    match unpackValue b old .real f.fmt b.length with
    | some (_,value,type) => (value,type)
    | none => (old,.real)

theorem unpackValue_bytes {f : Field} {b r : List Byte} (h : f.Carries (.bytes b))
    (old : BitVec 32) {size : Nat} (hsize : b.length ≤ size) :
    unpackValue (b ++ r) old .real f.fmt size =
      some (b.length,(received f old (.bytes b)).1,(received f old (.bytes b)).2) := by
  obtain ⟨-,hlen,hne⟩ := h
  obtain ⟨value,type,hat⟩ := unpackValue_front hlen hne old .real
  have hself := hat [] b.length (Nat.le_refl _)
  rw [List.append_nil] at hself
  rw [hat r size hsize,received,hself]

theorem unpackValue_u4 (x : Byte) (r : List Byte) (old : BitVec 32) {size : Nat}
    (hsize : 1 ≤ size) :
    unpackValue (x :: r) old .real Fmt.u4.code size =
      some (1,old.extractLsb' 8 24 ++ x,.byte) := by
  unfold unpackValue
  rw [show (Fmt.ofCode Fmt.u4.code).bind Unpacking.ofFmt = some Unpacking.raw8 from rfl]
  dsimp only [Unpacking.raw8]
  rw [if_neg (by omega),if_neg (by simp)]
  rfl

theorem nibble_bit {v : Byte} (hv : v &&& 0x0F#8 = v) {i : Nat} (hi : 4 ≤ i) :
    v.getLsbD i = false := by
  have hmask : (0x0F#8).getLsbD i = false := by
    rw [show (0x0F#8) = BitVec.setWidth 8 (0x0F#4) from rfl,BitVec.getLsbD_setWidth,
      BitVec.getLsbD_of_ge _ _ hi,Bool.and_false]
  rw [← hv,BitVec.getLsbD_and,hmask,Bool.and_false]

theorem low_nibble (old : BitVec 24) {v : Byte} (hv : v &&& 0x0F#8 = v) (u : Byte) :
    (old ++ (v ||| u <<< 4)) &&& 0x0F#32 = v.setWidth 32 := by
  have hmask : ∀ i, (0x0F#32).getLsbD i = decide (i < 4) := by
    intro i
    rw [show (0x0F#32) = BitVec.setWidth 32 (BitVec.allOnes 4) from rfl,BitVec.getLsbD_setWidth,
      BitVec.getLsbD_allOnes]
    by_cases hi : i < 4
    · simp [hi,Nat.lt_trans hi (by decide : 4 < 32)]
    · simp [hi]
  refine BitVec.eq_of_getLsbD_eq fun i hi => ?_
  rw [BitVec.getLsbD_and,BitVec.getLsbD_append,hmask,BitVec.getLsbD_setWidth]
  by_cases h4 : i < 4
  · rw [if_pos (by omega),BitVec.getLsbD_or,BitVec.getLsbD_shiftLeft]
    simp [h4,hi]
  · rw [decide_eq_false h4,Bool.and_false,nibble_bit hv (Nat.le_of_not_lt h4),Bool.and_false]

theorem high_nibble {v u : Byte} (hv : v &&& 0x0F#8 = v) (hu : u &&& 0x0F#8 = u) :
    (v ||| u <<< 4) >>> 4 = u := by
  refine BitVec.eq_of_getLsbD_eq fun i hi => ?_
  rw [BitVec.getLsbD_ushiftRight,BitVec.getLsbD_or,nibble_bit hv (Nat.le_add_right 4 i),
    BitVec.getLsbD_shiftLeft,Bool.false_or,Nat.add_sub_cancel_left]
  by_cases h4 : i < 4
  · rw [decide_eq_true (by omega : 4+i < 8),decide_eq_false (by omega : ¬ 4+i < 4)]
    rfl
  · rw [nibble_bit hu (Nat.le_of_not_lt h4),Bool.and_false]

theorem append_setWidth (old : BitVec 24) (x : Byte) : (old ++ x).setWidth 8 = x := by
  refine BitVec.eq_of_getLsbD_eq fun i hi => ?_
  rw [BitVec.getLsbD_setWidth,BitVec.getLsbD_append,if_pos hi,decide_eq_true hi,Bool.true_and]

namespace TelemetryDecoder
variable {s s' : DecodeState} {p : Packed} {ps : List Packed} {tl : List Byte}

/-- The values `ps` of the code are next in the stream, and `tl` behind them. A half byte may have
been read with the value before. -/
def Feed (ps : List Packed) (tl : List Byte) (s : DecodeState) : Prop :=
  s.nibbleN = 0 ∧ s.stream.rest = payload ps ++ tl ∨
  s.nibbleN = 1 ∧ (ps = [] ∧ s.stream.rest = tl ∨
    ∃ v ps', ps = .nibble v :: ps' ∧ s.nibbleV >>> 4 = v ∧ s.stream.rest = payload ps' ++ tl)

def Due (cut : Prop) (ps : List Packed) (tl : List Byte) (s : DecodeState) : Prop :=
  tl = [] → (cut ↔ 0 < nibbles ps ∧ (nibbles ps+s.nibbleN)%2 = 0)

structure Taken (s s' : DecodeState) (x : BitVec 32 × TypeId) : Prop where
  dec : s'.dec = s.dec.mark s.index x.1 x.2
  cnt : s'.cnt = s.cnt-1
  index : s'.index = s.index
  code : s'.code = s.code
  codeBit : s'.codeBit = s.codeBit
  upd : s'.upd = true

def Ordered (p : Packed) (ps : List Packed) : Prop :=
  ∀ v, p = .nibble v → ∀ q ∈ ps, ∃ u, q = .nibble u ∧ u &&& 0x0F#8 = u

theorem readValue_bytes {b r : List Byte} (hlt : s.index < s.dec.slotsCnt)
    (hn : s.nibbleN = 0) (hr : s.stream.rest = b ++ r)
    (hc : (s.dec.fieldAt s.index).Carries (.bytes b)) :
    ∃ s', readValue s = some (s',decide (s'.cnt = 0)) ∧ s'.nibbleN = 0 ∧ s'.stream.rest = r ∧
      Taken s s' (received (s.dec.fieldAt s.index) (s.dec.value s.index) (.bytes b)) := by
  have hlen : b.length ≠ 0 := List.length_eq_zero_iff.not.mpr hc.2.2
  have ha : b.length ≤ s.stream.available := by
    rw [← s.stream.rest_length,hr,List.length_append]
    exact Nat.le_add_right _ _
  unfold readValue
  rw [field_of_lt hlt]
  simp only [Option.bind_eq_bind,Option.bind_some]
  rw [if_pos hn,hr,unpackValue_bytes hc _ ha]
  simp only [Option.bind_some]
  rw [if_neg (by omega)]
  unfold storeValue splitNibbles
  rw [if_neg hc.1]
  dsimp only
  rw [DecodeState.setValue,if_pos hlt]
  refine ⟨_,rfl,rfl,?_,rfl,rfl,rfl,rfl,rfl,rfl⟩
  exact Reader.rest_reset_add hr

theorem readValue_low {v u : Byte} {r : List Byte} (hlt : s.index < s.dec.slotsCnt)
    (hn : s.nibbleN = 0) (hr : s.stream.rest = (v ||| u <<< 4) :: r)
    (hc : (s.dec.fieldAt s.index).Carries (.nibble v)) :
    ∃ s', readValue s = some (s',decide (s'.cnt = 0)) ∧ s'.nibbleN = 1 ∧
      s'.nibbleV = v ||| u <<< 4 ∧ s'.stream.rest = r ∧ Taken s s' (v.setWidth 32,.byte) := by
  have ha : 1 ≤ s.stream.available := by
    rw [← s.stream.rest_length,hr,List.length_cons]
    exact Nat.le_add_left 1 _
  unfold readValue
  rw [field_of_lt hlt]
  simp only [Option.bind_eq_bind,Option.bind_some]
  rw [if_pos hn,hr,hc.1,unpackValue_u4 _ _ _ ha]
  simp only [Option.bind_some]
  rw [if_neg (by omega)]
  unfold storeValue splitNibbles
  rw [if_pos hc.1,if_pos hn]
  dsimp only
  rw [DecodeState.setValue,if_pos hlt,low_nibble _ hc.2 u,append_setWidth]
  refine ⟨_,rfl,rfl,rfl,?_,rfl,rfl,rfl,rfl,rfl,rfl⟩
  exact Reader.rest_reset_add (b := [v ||| u <<< 4]) hr

theorem readValue_high {v : Byte} (hlt : s.index < s.dec.slotsCnt) (hn : s.nibbleN ≠ 0)
    (hv : s.nibbleV >>> 4 = v) (hc : (s.dec.fieldAt s.index).Carries (.nibble v)) :
    ∃ s', readValue s = some (s',decide (s'.cnt = 0)) ∧ s'.nibbleN = 0 ∧
      s'.stream.rest = s.stream.rest ∧ Taken s s' (v.setWidth 32,.byte) := by
  unfold readValue
  rw [field_of_lt hlt]
  simp only [Option.bind_eq_bind,Option.bind_some]
  rw [if_neg hn]
  unfold storeValue splitNibbles
  rw [if_pos hc.1,if_neg hn]
  dsimp only
  rw [DecodeState.setValue,if_pos hlt,hv]
  exact ⟨_,rfl,rfl,rfl,rfl,rfl,rfl,rfl,rfl,rfl⟩

/-- A value is read. -/
theorem readValue_feed (hlt : s.index < s.dec.slotsCnt) (h : Feed (p :: ps) tl s)
    (hc : (s.dec.fieldAt s.index).Carries p) (ho : Ordered p ps) :
    ∃ s', readValue s = some (s',decide (s'.cnt = 0)) ∧ Feed ps tl s' ∧
      Taken s s' (received (s.dec.fieldAt s.index) (s.dec.value s.index) p) ∧
      ∀ cut, Due cut (p :: ps) tl s → s.stream.available > 0 → Due cut ps tl s' := by
  rcases h with ⟨hn,hr⟩ | ⟨hn,⟨h0,-⟩ | ⟨v,ps',hcons,hv,hr⟩⟩
  · cases p with
    | bytes b =>
      rw [payload,List.append_assoc] at hr
      obtain ⟨s',hs,hn',hr',ht⟩ := readValue_bytes hlt hn hr hc
      refine ⟨s',hs,Or.inl ⟨hn',hr'⟩,ht,fun cut hdue _ htl => ?_⟩
      have hcut := hdue htl
      rw [nibbles,hn] at hcut
      rw [hn']
      exact hcut
    | nibble v =>
      have hall := ho v rfl
      have hdue : ∀ s' : DecodeState, s'.nibbleN = 1 → ∀ cut, Due cut (.nibble v :: ps) tl s →
          s.stream.available > 0 → Due cut ps tl s' := by
        intro s' hn' cut hdue _ htl
        rw [hdue htl,nibbles,hn,hn']
        omega
      cases ps with
      | nil =>
        have hone : s.stream.rest = (v ||| 0#8 <<< 4) :: tl := by
          rw [hr,BitVec.zero_shiftLeft,BitVec.or_zero]
          rfl
        obtain ⟨s',hs,hn',-,hr',ht⟩ := readValue_low hlt hn hone hc
        exact ⟨s',hs,Or.inr ⟨hn',Or.inl ⟨rfl,hr'⟩⟩,ht,hdue s' hn'⟩
      | cons q ps =>
        obtain ⟨u,rfl,hu⟩ := hall q List.mem_cons_self
        obtain ⟨s',hs,hn',hv',hr',ht⟩ := readValue_low hlt hn hr hc
        refine ⟨s',hs,Or.inr ⟨hn',Or.inr ⟨u,ps,rfl,?_,hr'⟩⟩,ht,hdue s' hn'⟩
        rw [hv',high_nibble hc.2 hu]
  · cases h0
  · obtain ⟨rfl,rfl⟩ := List.cons.inj hcons
    obtain ⟨s',hs,hn',hr',ht⟩ := readValue_high hlt (hn ▸ Nat.one_ne_zero) hv hc
    refine ⟨s',hs,Or.inl ⟨hn',hr'.trans hr⟩,ht,fun cut hdue ha htl => ?_⟩
    have hpos : 0 < nibbles ps := by
      cases ps with
      | nil =>
        rw [← s.stream.rest_length,hr,htl] at ha
        exact absurd ha (Nat.lt_irrefl 0)
      | cons q ps =>
        obtain ⟨u,rfl,-⟩ := ho v rfl q List.mem_cons_self
        exact Nat.succ_pos _
    rw [hdue htl,nibbles,hn,hn']
    omega

theorem payload_ne_nil (h : ps ≠ []) (hb : ∀ b, .bytes b ∈ ps → b ≠ []) : payload ps ≠ [] := by
  cases ps with
  | nil => exact absurd rfl h
  | cons p ps =>
    cases p with
    | bytes b =>
      rw [payload]
      exact List.append_ne_nil_of_left_ne_nil (hb b List.mem_cons_self) _
    | nibble v =>
      cases ps with
      | nil => exact List.cons_ne_nil _ _
      | cons q ps => cases q <;> exact List.cons_ne_nil _ _

theorem available_of_rest (h : s.stream.rest ≠ []) : s.stream.available > 0 := by
  rw [← s.stream.rest_length]
  exact List.length_pos_iff.mpr h

theorem Feed.available {cut : Prop} (h : Feed ps tl s) (hdue : Due cut ps tl s)
    (hb : ∀ b, .bytes b ∈ ps → b ≠ []) (hne : ps ≠ [] ∨ tl ≠ []) :
    s.stream.available > 0 ∨ cut ∧ s.stream.rest = [] ∧ ps.length = 1 ∧ tl = [] := by
  rcases h with ⟨-,hr⟩ | ⟨hn,⟨rfl,hr⟩ | ⟨v,ps',rfl,-,hr⟩⟩
  · refine Or.inl (available_of_rest ?_)
    rw [hr]
    rcases hne with hps | htl
    · exact List.append_ne_nil_of_left_ne_nil (payload_ne_nil hps hb) _
    · exact List.append_ne_nil_of_right_ne_nil _ htl
  · refine Or.inl (available_of_rest ?_)
    rw [hr]
    exact hne.resolve_left (not_not.mpr rfl)
  · by_cases hend : payload ps' ++ tl = []
    · obtain ⟨hp,htl⟩ := List.append_eq_nil_iff.mp hend
      have hps : ps' = [] := by
        by_contra hps
        exact payload_ne_nil hps (fun b h => hb b (List.mem_cons_of_mem _ h)) hp
      subst hps
      exact Or.inr ⟨(hdue htl).mpr (by rw [hn]; simp [nibbles]),hr.trans hend,rfl,htl⟩
    · exact Or.inl (available_of_rest (hr ▸ hend))

theorem Feed.rest_of_nil (h : Feed [] tl s) : s.stream.rest = tl := by
  rcases h with ⟨-,hr⟩ | ⟨-,⟨-,hr⟩ | ⟨v,ps',h0,-⟩⟩
  · exact hr
  · exact hr
  · cases h0

theorem offset_byte {d : Nat} (h : d < 0x7F) :
    (BitVec.ofNat 8 d ||| 0x80#8) &&& 0x80#8 ≠ 0#8 ∧
      (BitVec.ofNat 8 d ||| 0x80#8) &&& 0x7F#8 = BitVec.ofNat 8 d ∧ BitVec.ofNat 8 d ≠ 0x7F#8 := by
  interval_cases d <;> decide

theorem offsetBytes_cons (d : Nat) : ∃ x xs, offsetBytes d = x :: xs ∧ x &&& 0x80#8 ≠ 0#8 ∧
    x &&& 0x7F#8 = BitVec.ofNat 8 (min d 0x7F) := by
  by_cases h : d < 0x7F
  · obtain ⟨h1,h2,-⟩ := offset_byte h
    exact ⟨_,_,offsetBytes_small h,h1,by rw [h2,Nat.min_eq_left h.le]⟩
  · refine ⟨0xFF#8,offsetBytes (d-0x7F),?_,by decide,?_⟩
    · rw [← offsetBytes_add,Nat.sub_add_cancel (Nat.le_of_not_lt h)]
    · rw [Nat.min_eq_right (Nat.le_of_not_lt h)]
      rfl

/-- The bytes of an offset behind the first one, `x`, are read, and `a` is added. -/
theorem readOffset_bytes (k d fuel : Nat) {x code : Byte} {xs tl : List Byte} {r : Reader}
    (hk : d/0x7F = k) (hf : k < fuel) (hd : offsetBytes d = x :: xs) (hr : r.rest = xs ++ tl)
    (hcode : code &&& 0x80#8 ≠ 0#8) (a : BitVec 16) :
    ∃ code' r', readOffset fuel (x &&& 0x7F#8) (a+(x &&& 0x7F#8).setWidth 16) code r =
        some (a+BitVec.ofNat 16 d,code',r') ∧ code' &&& 0x80#8 ≠ 0#8 ∧ r'.rest = tl := by
  induction k generalizing d fuel x code xs r a with
  | zero =>
    obtain ⟨fuel,rfl⟩ := Nat.exists_eq_add_of_le' (Nat.one_le_of_lt hf)
    have hlt : d < 0x7F := by omega
    obtain ⟨-,h2,h3⟩ := offset_byte hlt
    rw [offsetBytes_small hlt] at hd
    obtain ⟨rfl,rfl⟩ := List.cons.inj hd
    rw [readOffset,h2,if_neg h3,BitVec.setWidth_ofNat_of_le_of_lt (by decide) (by omega)]
    exact ⟨code,r,rfl,hcode,hr⟩
  | succ k ih =>
    obtain ⟨fuel,rfl⟩ := Nat.exists_eq_add_of_le' (Nat.one_le_of_lt hf)
    have hge : 0x7F ≤ d := by omega
    obtain ⟨y,ys,hy,hybit,-⟩ := offsetBytes_cons (d-0x7F)
    rw [← Nat.sub_add_cancel hge,offsetBytes_add,hy] at hd
    obtain ⟨rfl,rfl⟩ := List.cons.inj hd
    obtain ⟨hb,hrest⟩ := Reader.read8_cons hr
    rw [readOffset,if_pos (by decide)]
    dsimp only
    rw [hb,if_neg hybit]
    obtain ⟨code',r',hro,hcode',hr'⟩ := ih (d-0x7F) fuel (by omega) (by omega) hy hrest
      (by decide : (0x80#8) &&& 0x80#8 ≠ 0#8) (a+BitVec.ofNat 16 0x7F)
    refine ⟨code',r',?_,hcode',hr'⟩
    have hsum : a+BitVec.ofNat 16 0x7F+BitVec.ofNat 16 (d-0x7F) = a+BitVec.ofNat 16 d := by
      rw [BitVec.add_assoc,← BitVec.ofNat_add,Nat.add_sub_cancel' hge]
    rw [hsum] at hro
    exact hro

theorem nextCode_group {c : Byte} {r : List Byte} (hbit : s.codeBit = 1#8 <<< 6)
    (hr : s.stream.rest = c :: r) (hc : c &&& 0x80#8 = 0#8) :
    ∃ s', nextCode s = some (s',false) ∧ s'.dec = s.dec ∧ s'.cnt = s.cnt ∧ s'.index = s.index ∧
      s'.code = c ∧ s'.codeBit = 1#8 <<< 0 ∧ s'.nibbleN = 0 ∧ s'.stream.rest = r ∧
      s'.upd = s.upd := by
  obtain ⟨hc1,hr1⟩ := Reader.read8_cons hr
  unfold nextCode
  rw [if_pos hbit]
  dsimp only
  rw [hc1,if_neg (not_not.mpr hc)]
  exact ⟨_,rfl,rfl,rfl,rfl,rfl,rfl,rfl,hr1,rfl⟩

/-- The next code is the distance to a slot with a value. -/
theorem nextCode_skip {d : Nat} {r : List Byte} (hbit : s.codeBit = 1#8 <<< 6)
    (hr : s.stream.rest = offsetBytes d ++ r) (h7 : 7 ≤ d) (h240 : d < 240)
    (hlt : s.index+d < s.dec.slotsCnt) :
    ∃ s', nextCode s = some (s',false) ∧ s'.dec = s.dec ∧ s'.cnt = s.cnt ∧
      s'.index = s.index+d ∧ s'.code = 1#8 <<< 6 ∧ s'.codeBit = 1#8 <<< 6 ∧ s'.nibbleN = 0 ∧
      s'.stream.rest = r ∧ s'.upd = s.upd := by
  obtain ⟨x,xs,hx,hxbit,hxlow⟩ := offsetBytes_cons d
  rw [hx,List.cons_append] at hr
  obtain ⟨hc1,hr1⟩ := Reader.read8_cons hr
  have hlen : d/0x7F < s.stream.read8.2.available+2 := by
    have hl := congrArg List.length hx
    simp only [offsetBytes,List.length_append,List.length_replicate,List.length_cons,
      List.length_nil] at hl
    rw [← Reader.rest_length,hr1,List.length_append]
    omega
  have hsmall : ¬ x &&& 0x7F#8 < 7#8 := by
    rw [hxlow,BitVec.lt_def,BitVec.toNat_ofNat]
    simp only [BitVec.toNat_ofNat]
    omega
  obtain ⟨code',r',hro,hcode',hr'⟩ := readOffset_bytes (d/0x7F) d _ rfl hlen hx hr1 hxbit 0#16
  rw [BitVec.zero_add,BitVec.zero_add] at hro
  have hnat : (BitVec.ofNat 16 d).toNat = d := by
    rw [BitVec.toNat_ofNat]
    omega
  have hint : ¬ (BitVec.ofNat 16 d).toInt < 7 := by
    rw [BitVec.toInt_eq_toNat_of_lt (by rw [hnat]; omega),hnat]
    omega
  unfold nextCode
  rw [if_pos hbit]
  dsimp only
  rw [hc1,if_pos hxbit]
  unfold skipSlots
  dsimp only
  rw [if_neg hsmall,hro]
  simp only [Option.bind_eq_bind,Option.bind_some]
  rw [if_neg hcode',if_neg hint,hnat,if_neg (Nat.not_le_of_lt hlt)]
  exact ⟨_,rfl,rfl,rfl,rfl,rfl,rfl,rfl,hr',rfl⟩

/-- The loop over the values ends with `s'`, whatever the fuel that covers the slots. -/
def Ends (pseq : Byte) (s s' : DecodeState) : Prop :=
  ∀ fuel, s.dec.slotsCnt < s.index+fuel → valueLoop pseq fuel s = some s'

abbrev Goes (s : DecodeState) : Prop :=
  s.index < s.dec.slotsCnt ∧ s.stream.available > 0 ∧ s.cnt > 0

section Ends
variable {pseq : Byte} {s1 : DecodeState}

theorem Ends.done (h : ¬ Goes s) (hle : s.index ≤ s.dec.slotsCnt) : Ends pseq s s := by
  intro fuel hf
  obtain ⟨fuel,rfl⟩ : ∃ m, fuel = m+1 := ⟨fuel-1,by omega⟩
  exact if_neg h

theorem Ends.last (hg : Goes s) (h : valueStep pseq s = some (s1,true)) : Ends pseq s s1 := by
  intro fuel hf
  have hlt := hg.1
  obtain ⟨fuel,rfl⟩ : ∃ m, fuel = m+1 := ⟨fuel-1,by omega⟩
  rw [valueLoop,if_pos hg,h]
  rfl

theorem Ends.next (hg : Goes s) (h : valueStep pseq s = some (s1,false))
    (hd : s1.dec.slotsCnt = s.dec.slotsCnt) (hi : s.index ≤ s1.index)
    (h1 : Ends pseq {s1 with index := s1.index+1} s') : Ends pseq s s' := by
  intro fuel hf
  have hlt := hg.1
  obtain ⟨fuel,rfl⟩ : ∃ m, fuel = m+1 := ⟨fuel-1,by omega⟩
  rw [valueLoop,if_pos hg,h]
  exact h1 fuel (by dsimp only; rw [hd]; omega)

theorem Ends.advance {i : Nat} (hi : s.index ≤ i) (hlt : i < s.dec.slotsCnt)
    (ha : s.stream.available > 0) (hc : s.cnt > 0)
    (hno : ∀ k, s.index ≤ k → k < i →
      (s.dec.fieldAt k).fmt ≠ Fmt.bit.code ∧ ¬ passes (s.dec.fieldAt k) pseq)
    (h : Ends pseq {s with index := i} s') : Ends pseq s s' := by
  obtain ⟨m,rfl⟩ := Nat.exists_eq_add_of_le hi
  induction m generalizing s with
  | zero => exact h
  | succ m ih =>
    have hg : Goes s := ⟨by omega,ha,hc⟩
    obtain ⟨hb,hp⟩ := hno s.index (Nat.le_refl _) (by omega)
    have hstep : valueStep pseq s = some (s,false) := by
      unfold valueStep
      rw [field_of_lt hg.1]
      simp only [Option.bind_eq_bind,Option.bind_some]
      rw [if_neg hb,if_pos hp]
    refine Ends.next hg hstep rfl (Nat.le_refl _)
      (ih (s := {s with index := s.index+1}) ha hc (Nat.le_add_right _ _) ?_ ?_ ?_)
    · dsimp only
      omega
    · intro k h1 h2
      dsimp only at h1 h2
      exact hno k (by omega) (by omega)
    · dsimp only
      rw [Nat.add_assoc,Nat.add_comm 1 m]
      exact h

theorem valueStep_code (pseq : Byte) (hg : s.index < s.dec.slotsCnt)
    (hb : (s.dec.fieldAt s.index).fmt ≠ Fmt.bit.code) (hp : passes (s.dec.fieldAt s.index) pseq)
    (hn : nextCode s = some (s1,false)) (ha : s1.stream.available > 0) :
    valueStep pseq s = if s1.code &&& s1.codeBit = 0#8 then some (s1,false) else readValue s1 := by
  unfold valueStep
  rw [field_of_lt hg]
  simp only [Option.bind_eq_bind,Option.bind_some]
  rw [if_neg hb,if_neg (not_not.mpr hp),hn]
  simp only [Option.bind_some]
  rw [if_neg (by decide),if_neg (by omega)]

end Ends

/-- The decoder with the values `g` in the slots `l`, which are marked. -/
def fill (d : TelemetryDecoder) (g : Nat → BitVec 32 × TypeId) (l : List Nat) :
    TelemetryDecoder :=
  {d with
    value := fun i => if i ∈ l then (g i).1 else d.value i
    flags := fun i => if i ∈ l then ⟨(g i).2,true⟩ else d.flags i}

theorem fill_nil (d : TelemetryDecoder) (g : Nat → BitVec 32 × TypeId) : d.fill g [] = d := by
  unfold fill
  simp

@[simp] theorem fill_slotsCnt (d : TelemetryDecoder) (g : Nat → BitVec 32 × TypeId)
    (l : List Nat) : (d.fill g l).slotsCnt = d.slotsCnt := rfl

@[simp] theorem fill_fieldAt (d : TelemetryDecoder) (g : Nat → BitVec 32 × TypeId)
    (l : List Nat) (i : Nat) : (d.fill g l).fieldAt i = d.fieldAt i := rfl

theorem fill_of_mem (d : TelemetryDecoder) (g : Nat → BitVec 32 × TypeId) {l : List Nat} {i : Nat}
    (h : i ∈ l) : (d.fill g l).value i = (g i).1 ∧ (d.fill g l).flags i = ⟨(g i).2,true⟩ :=
  ⟨if_pos h,if_pos h⟩

theorem fill_of_notMem (d : TelemetryDecoder) (g : Nat → BitVec 32 × TypeId) {l : List Nat}
    {i : Nat} (h : i ∉ l) : d.SameSlot (d.fill g l) i :=
  ⟨if_neg h,if_neg h⟩

theorem fill_mark (d : TelemetryDecoder) (g : Nat → BitVec 32 × TypeId) (l : List Nat) (i : Nat) :
    (d.fill g l).mark i (g i).1 (g i).2 = d.fill g (l ++ [i]) := by
  have hv : update (d.fill g l).value i (g i).1 = (d.fill g (l ++ [i])).value := by
    funext j
    by_cases hj : j = i
    · simp [fill,hj]
    · simp [fill,hj]
  have hf : update (d.fill g l).flags i ⟨(g i).2,true⟩ = (d.fill g (l ++ [i])).flags := by
    funext j
    by_cases hj : j = i
    · simp [fill,hj]
    · simp [fill,hj]
  unfold mark
  rw [hv,hf]
  rfl

/-- The slots up to `n` can carry the values `val` of a frame that has `tail` behind them. -/
structure Frame (d : TelemetryDecoder) (val : Nat → Option Packed) (n : Nat) (tail : List Byte)
    (cut : Prop) : Prop where
  le : n ≤ d.slotsCnt
  noBit : ∀ i < n, (d.fieldAt i).fmt ≠ Fmt.bit.code
  carries : ∀ i < n, ∀ p, val i = some p → (d.fieldAt i).Carries p
  ordered : ∀ i j, i < j → j < n → ∀ v, val i = some (.nibble v) → ∀ b, val j ≠ some (.bytes b)
  tail : cut → tail = []

def result (d : TelemetryDecoder) (val : Nat → Option Packed) (i : Nat) : BitVec 32 × TypeId :=
  match val i with
  | some p => received (d.fieldAt i) (d.value i) p
  | none => (0#32,.byte)

def sentOf (val : Nat → Option Packed) (l : List Nat) : List Nat :=
  l.filter fun i => (val i).isSome

section sentOf
variable {val : Nat → Option Packed} {i : Nat} {l : List Nat}

theorem sentOf_cons_none (h : val i = none) : sentOf val (i :: l) = sentOf val l :=
  List.filter_cons_of_neg (by rw [h]; decide)

theorem sentOf_cons_some {p : Packed} (h : val i = some p) :
    sentOf val (i :: l) = i :: sentOf val l :=
  List.filter_cons_of_pos (by rw [h]; rfl)

theorem sentOf_nil (h : ∀ j ∈ l, val j = none) : sentOf val l = [] :=
  List.filter_eq_nil_iff.mpr fun j hj => by rw [h j hj]; decide

end sentOf

section
variable (d : TelemetryDecoder) (val : Nat → Option Packed) (n : Nat) (tail : List Byte)
  (cut : Prop) (pseq : Byte)

/-- Between two rounds of the loop: the slots `l` are to come, those in `got` are set. -/
structure At (s : DecodeState) (l got : List Nat) : Prop where
  up : passing d.fieldAt pseq s.index n = l
  cnt : s.cnt = (l.filterMap val).length
  dec : s.dec = d.fill (d.result val) got
  lt : ∀ j ∈ got, j < s.index
  upd : s.upd = true ↔ got ≠ []

/-- Behind the loop the slots in `got` are set. -/
structure Finished (s : DecodeState) (got : List Nat) : Prop where
  cnt : s.cnt = 0
  rest : s.stream.rest = tail
  dec : s.dec = d.fill (d.result val) got
  le : s.index ≤ n
  upd : s.upd = true ↔ got ≠ []

/-- The loop ends with the slots in `got` set, or before the last value. -/
def Reads (s : DecodeState) (got : List Nat) : Prop :=
  ∃ s', Ends pseq s s' ∧ (cut → s'.cnt = 1 ∧ s'.stream.rest = []) ∧
    (¬ cut → Finished d val n tail s' got)

end

section Frame
variable {d : TelemetryDecoder} {val : Nat → Option Packed} {n : Nat} {tail : List Byte}
  {cut : Prop} {pseq : Byte} {s1 : DecodeState} {i : Nat} {l got : List Nat} {tl : List Byte}

/-- A round that has come to the value of a slot. -/
theorem Frame.value (hF : Frame d val n tail cut) (hg : Goes s) (hi : i < n)
    (hstep : valueStep pseq s = readValue s1) (hsi : s.index ≤ s1.index)
    (hsc : s.dec.slotsCnt = d.slotsCnt) (hi1 : s1.index = i)
    (hd : s1.dec = d.fill (d.result val) got) (hgot : ∀ j ∈ got, j < i)
    (hv : val i = some p) (hfeed : Feed (p :: ps) tl s1) (hdue : Due cut (p :: ps) tl s1)
    (ha : s1.stream.available > 0) (ho : Ordered p ps)
    (hup : passing d.fieldAt pseq (i+1) n = l) (hc : s1.cnt = (l.filterMap val).length+1)
    (hend : l.filterMap val = [] → ps = [] ∧ tl = tail)
    (hnext : ∀ s2, At d val n pseq s2 l (got ++ [i]) → s2.codeBit = s1.codeBit →
      s2.code = s1.code → Feed ps tl s2 → Due cut ps tl s2 → s2.cnt > 0 →
      Reads d val n tail cut pseq s2 (got ++ [i] ++ sentOf val l)) :
    Reads d val n tail cut pseq s (got ++ [i] ++ sentOf val l) := by
  have hlt : s1.index < s1.dec.slotsCnt := by
    rw [hd,hi1]
    exact Nat.lt_of_lt_of_le hi hF.le
  have hfield : s1.dec.fieldAt s1.index = d.fieldAt i := by
    rw [hd,hi1]
    rfl
  have hold : s1.dec.value s1.index = d.value i := by
    rw [hd,hi1]
    exact (d.fill_of_notMem _ fun hm => Nat.lt_irrefl i (hgot i hm)).1
  have hcar : (s1.dec.fieldAt s1.index).Carries p := by
    rw [hfield]
    exact hF.carries i hi p hv
  obtain ⟨s2,hs2,hfeed2,ht,hdue2⟩ := readValue_feed hlt hfeed hcar ho
  replace hdue2 := hdue2 cut hdue ha
  have hupd2 : s2.upd = true ↔ got ++ [i] ≠ [] :=
    iff_of_true ht.upd (List.append_ne_nil_of_right_ne_nil _ (List.cons_ne_nil _ _))
  have hres : received (s1.dec.fieldAt s1.index) (s1.dec.value s1.index) p = d.result val i := by
    rw [hfield,hold,result,hv]
  have hdec2 : s2.dec = d.fill (d.result val) (got ++ [i]) := by
    rw [ht.dec,hres,hd,hi1,fill_mark]
  have hcnt2 : s2.cnt = (l.filterMap val).length := by
    rw [ht.cnt,hc]
    rfl
  rw [hs2] at hstep
  by_cases h0 : s2.cnt = 0
  · rw [decide_eq_true h0] at hstep
    have hnil : l.filterMap val = [] := List.length_eq_zero_iff.mp (hcnt2.symm.trans h0)
    obtain ⟨rfl,rfl⟩ := hend hnil
    have hsent : sentOf val l = [] := sentOf_nil (List.filterMap_eq_nil_iff.mp hnil)
    have hno : ¬ cut := fun hcut =>
      absurd ((hdue2 (hF.tail hcut)).mp hcut).1 (Nat.lt_irrefl 0)
    refine ⟨s2,Ends.last hg hstep,fun hcut => absurd hcut hno,
      fun _ => ⟨h0,hfeed2.rest_of_nil,?_,?_,?_⟩⟩
    · rw [hsent,List.append_nil]
      exact hdec2
    · rw [ht.index,hi1]
      exact hi.le
    · rw [hsent,List.append_nil]
      exact hupd2
  · rw [decide_eq_false h0] at hstep
    have hat : At d val n pseq {s2 with index := s2.index+1} l (got ++ [i]) := by
      refine ⟨?_,hcnt2,hdec2,fun j hj => ?_,hupd2⟩
      · dsimp only
        rw [ht.index,hi1]
        exact hup
      · dsimp only
        rw [ht.index,hi1]
        rcases List.mem_append.mp hj with hj | hj
        · exact Nat.lt_succ_of_lt (hgot j hj)
        · rw [List.mem_singleton.mp hj]
          exact Nat.lt_succ_self i
    obtain ⟨s',he,hf⟩ := hnext _ hat ht.codeBit ht.code hfeed2 hdue2 (Nat.pos_of_ne_zero h0)
    refine ⟨s',Ends.next hg hstep ?_ ?_ he,hf⟩
    · rw [hdec2,hsc]
      rfl
    · rw [ht.index]
      exact hsi

theorem Reads.advance (h : Reads d val n tail cut pseq {s with index := i} got)
    (hF : Frame d val n tail cut)
    {x : List Nat} (hd : s.dec = d.fill (d.result val) x) (hi : s.index ≤ i) (hin : i < n)
    (ha : s.stream.available > 0) (hc : s.cnt > 0)
    (hno : ∀ k, s.index ≤ k → k < i → ¬ passes (d.fieldAt k) pseq) :
    Reads d val n tail cut pseq s got := by
  obtain ⟨s',he,hf⟩ := h
  refine ⟨s',Ends.advance hi ?_ ha hc (fun k h1 h2 => ?_) he,hf⟩
  · rw [hd,fill_slotsCnt]
    exact Nat.lt_of_lt_of_le hin hF.le
  · rw [hd,fill_fieldAt]
    exact ⟨hF.noBit k (by omega),hno k h1 h2⟩

theorem Frame.step (hF : Frame d val n tail cut) {x : List Nat}
    (hd : s.dec = d.fill (d.result val) x)
    (hi : i < n) (hp : passes (d.fieldAt i) pseq)
    (hn : nextCode {s with index := i} = some (s1,false)) (ha : s1.stream.available > 0) :
    valueStep pseq {s with index := i} =
      if s1.code &&& s1.codeBit = 0#8 then some (s1,false) else readValue s1 := by
  refine valueStep_code pseq ?_ ?_ ?_ hn ha
  · dsimp only
    rw [hd,fill_slotsCnt]
    exact Nat.lt_of_lt_of_le hi hF.le
  · dsimp only
    rw [hd,fill_fieldAt]
    exact hF.noBit i hi
  · dsimp only
    rw [hd,fill_fieldAt]
    exact hp

theorem Frame.options (hF : Frame d val n tail cut) {c : Nat} {cur : List Nat}
    (hcur : ∀ j ∈ cur, c < j ∧ j < n) (hv : val c = some p) :
    Ordered p (cur.filterMap val) := by
  rintro v rfl q hq
  obtain ⟨j,hj,hq⟩ := List.mem_filterMap.mp hq
  obtain ⟨hcj,hjn⟩ := hcur j hj
  cases q with
  | bytes b => exact absurd hq (hF.ordered c j hcj hjn v hv b)
  | nibble u => exact ⟨u,rfl,(hF.carries j hjn _ hq).2⟩

theorem Frame.bytes_ne_nil (hF : Frame d val n tail cut) {cur : List Nat} (hcur : ∀ j ∈ cur, j < n)
    (b : List Byte) (hb : .bytes b ∈ cur.filterMap val) : b ≠ [] := by
  obtain ⟨j,hj,hq⟩ := List.mem_filterMap.mp hb
  exact (hF.carries j (hcur j hj) _ hq).2.2

theorem Frame.left (hF : Frame d val n tail cut) (cur : List Nat) {rest : List Nat}
    {w : List Byte} (hw : Wire val rest w) (hcur : ∀ j ∈ cur, j < n)
    (hfeed : Feed (cur.filterMap val) (w ++ tail) s)
    (hdue : Due cut (cur.filterMap val) (w ++ tail) s)
    (hc : 0 < ((cur ++ rest).filterMap val).length) : s.stream.available > 0 ∨
      cut ∧ s.stream.rest = [] ∧ ((cur ++ rest).filterMap val).length = 1 := by
  have hnone : w ++ tail = [] → rest.filterMap val = [] := by
    intro htl
    refine List.filterMap_eq_nil_iff.mpr fun j hj => ?_
    by_contra hne
    exact hw.ne_nil ⟨j,hj,Option.isSome_iff_ne_none.mpr hne⟩ (List.append_eq_nil_iff.mp htl).1
  rw [List.filterMap_append] at hc ⊢
  refine (hfeed.available hdue (hF.bytes_ne_nil hcur) ?_).imp_right fun ⟨hcut,hr,hlen,htl⟩ => ?_
  · by_contra hno
    rw [not_or,not_not,not_not] at hno
    obtain ⟨hps,htl⟩ := hno
    rw [hps,hnone htl] at hc
    exact absurd hc (Nat.lt_irrefl 0)
  · rw [hnone htl,List.append_nil]
    exact ⟨hcut,hr,hlen⟩

/-- A round at a slot of a group. -/
theorem Frame.event (hF : Frame d val n tail cut) {c k : Nat} {cur rest : List Nat} {w : List Byte}
    (hw : Wire val rest w) (hat : At d val n pseq s (c :: (cur ++ rest)) got)
    (ha : s.stream.available > 0) (hc : s.cnt > 0)
    (hn : nextCode {s with index := c} = some (s1,false)) (ha1 : s1.stream.available > 0)
    (hd : s1.dec = s.dec) (hcnt : s1.cnt = s.cnt) (hupd : s1.upd = s.upd) (hi : s1.index = c)
    (hk : k < 8) (hbit : s1.codeBit = 1#8 <<< k) (htest : s1.code.getLsbD k = (val c).isSome)
    (hfeed : Feed ((c :: cur).filterMap val) (w ++ tail) s1)
    (hdue : Due cut ((c :: cur).filterMap val) (w ++ tail) s1)
    (hnext : ∀ s2 got', At d val n pseq s2 (cur ++ rest) got' → s2.codeBit = s1.codeBit →
      s2.code = s1.code → Feed (cur.filterMap val) (w ++ tail) s2 →
      Due cut (cur.filterMap val) (w ++ tail) s2 → s2.cnt > 0 →
      Reads d val n tail cut pseq s2 (got' ++ sentOf val (cur ++ rest))) :
    Reads d val n tail cut pseq s (got ++ sentOf val (c :: (cur ++ rest))) := by
  obtain ⟨h1,h2,h3,h4,h5⟩ := passing_eq_cons hat.up
  have hl : ∀ j ∈ cur ++ rest, c < j ∧ j < n := by
    intro j hj
    rw [← h5] at hj
    obtain ⟨hj1,hj2,-⟩ := mem_passing.mp hj
    exact ⟨hj1,hj2⟩
  refine Reads.advance (i := c) ?_ hF hat.dec h1 h2 ha hc h4
  have hstep := hF.step hat.dec h2 h3 hn ha1
  have hsc : s.dec.slotsCnt = d.slotsCnt := by rw [hat.dec,fill_slotsCnt]
  have hcs : c < s.dec.slotsCnt := hsc ▸ Nat.lt_of_lt_of_le h2 hF.le
  cases hv : val c with
  | none =>
    have hz : s1.code &&& s1.codeBit = 0#8 := by
      rw [hbit,and_bit hk,htest,hv]
      rfl
    rw [if_pos hz] at hstep
    rw [List.filterMap_cons_none hv] at hfeed hdue
    have hcnt1 : s1.cnt = ((cur ++ rest).filterMap val).length := by
      rw [hcnt,hat.cnt,List.filterMap_cons_none hv]
    have hat1 : At d val n pseq {s1 with index := s1.index+1} (cur ++ rest) got := by
      refine ⟨?_,hcnt1,hd.trans hat.dec,fun j hj => ?_,hupd ▸ hat.upd⟩
      · dsimp only
        rw [hi]
        exact h5
      · have := hat.lt j hj
        dsimp only
        omega
    obtain ⟨s',he,hf⟩ := hnext _ got hat1 rfl rfl hfeed hdue (by dsimp only; omega)
    rw [sentOf_cons_none hv]
    refine ⟨s',Ends.next ⟨hcs,ha,hc⟩ hstep ?_ ?_ he,hf⟩
    · rw [hd]
    · exact hi.ge
  | some p =>
    have hz : ¬ s1.code &&& s1.codeBit = 0#8 := by
      rw [hbit,and_bit hk,htest,hv]
      exact Bool.noConfusion
    rw [if_neg hz] at hstep
    rw [List.filterMap_cons_some hv] at hfeed hdue
    have hcnt1 : s1.cnt = ((cur ++ rest).filterMap val).length+1 := by
      rw [hcnt,hat.cnt,List.filterMap_cons_some hv]
      rfl
    rw [sentOf_cons_some hv,← List.singleton_append,← List.append_assoc]
    refine hF.value ⟨hcs,ha,hc⟩ h2 hstep hi.ge hsc hi (hd.trans hat.dec)
      (fun j hj => Nat.lt_of_lt_of_le (hat.lt j hj) h1) hv hfeed hdue ha1
      (hF.options (fun j hj => hl j (List.mem_append_left _ hj)) hv) h5 hcnt1 (fun hnil => ?_)
      fun s2 hat2 hb2 hc2 hf2 hdue2 hcnt2 => hnext s2 _ hat2 hb2 hc2 hf2 hdue2 hcnt2
    rw [List.filterMap_append] at hnil
    obtain ⟨hn1,hn2⟩ := List.append_eq_nil_iff.mp hnil
    rw [hw.eq_nil (List.filterMap_eq_nil_iff.mp hn2)]
    exact ⟨hn1,rfl⟩

theorem Reads.short (hF : Frame d val n tail cut) (hat : At d val n pseq s l got) (hcut : cut)
    (hr : s.stream.rest = []) (hone : (l.filterMap val).length = 1) {x : List Nat} :
    Reads d val n tail cut pseq s x := by
  have hav : s.stream.available = 0 := by rw [← s.stream.rest_length,hr]; rfl
  have hle : s.index ≤ s.dec.slotsCnt := by
    have hne : l ≠ [] := by
      rintro rfl
      cases hone
    obtain ⟨i,l,rfl⟩ := List.exists_cons_of_ne_nil hne
    obtain ⟨h1,h2,-⟩ := passing_eq_cons hat.up
    rw [hat.dec,fill_slotsCnt]
    exact (h1.trans h2.le).trans hF.le
  exact ⟨s,Ends.done (fun hg => by have := hg.2.1; omega) hle,fun _ => ⟨hat.cnt.trans hone,hr⟩,
    fun hno => absurd hcut hno⟩

/-- The rounds within a group, by induction on the slots that are left in it. -/
theorem Frame.inCode (hF : Frame d val n tail cut) {rest : List Nat} {w : List Byte}
    (hw : Wire val rest w)
    (hrest : ∀ s got, At d val n pseq s rest got → s.codeBit = 1#8 <<< 6 →
      s.stream.rest = w ++ tail → s.cnt > 0 →
        Reads d val n tail cut pseq s (got ++ sentOf val rest))
    (cur : List Nat) {k : Nat} (hlast : k+cur.length ≤ 6)
    (hfull : k+cur.length = 6 ∨ rest = []) (hat : At d val n pseq s (cur ++ rest) got)
    (hbit : s.codeBit = 1#8 <<< k)
    (hcode : ∀ m < cur.length,
      s.code.getLsbD (k+1+m) = (cur.map fun i => (val i).isSome).getD m false)
    (hfeed : Feed (cur.filterMap val) (w ++ tail) s)
    (hdue : Due cut (cur.filterMap val) (w ++ tail) s) (hc : s.cnt > 0) :
    Reads d val n tail cut pseq s (got ++ sentOf val (cur ++ rest)) := by
  induction cur generalizing s k got with
  | nil =>
    rcases hfull with hk | rfl
    · obtain rfl : k = 6 := hk
      exact hrest s got hat hbit hfeed.rest_of_nil hc
    · have hcz := hat.cnt
      exact absurd hcz hc.ne'
  | cons c cur ih =>
    rw [List.length_cons] at hlast hfull
    have hk : ¬ 1#8 <<< k = 1#8 <<< 6 := by
      rw [shiftBit_eq_iff (by omega)]
      omega
    have hn : nextCode {s with index := c} =
        some ({{s with index := c} with codeBit := s.codeBit <<< 1},false) := by
      unfold nextCode
      rw [if_neg (by dsimp only; rw [hbit]; exact hk)]
    have hshift : s.codeBit <<< 1 = 1#8 <<< (k+1) := by
      rw [hbit]
      exact (BitVec.shiftLeft_add _ _ _).symm
    have hcn : ∀ j ∈ c :: cur, j < n := by
      intro j hj
      have hj' : j ∈ c :: cur ++ rest := List.mem_append_left _ hj
      rw [← hat.up] at hj'
      exact (mem_passing.mp hj').2.1
    rcases hF.left _ hw hcn hfeed hdue (hat.cnt ▸ hc) with ha | ⟨hcut,hr,hone⟩
    case inr => exact Reads.short hF hat hcut hr hone
    refine hF.event hw hat ha hc hn ha rfl rfl rfl rfl (by omega : k+1 < 8) hshift
      (hcode 0 (Nat.zero_lt_succ _)) hfeed hdue fun s2 got' hat2 hb2 hc2 hf2 hdue2 hcnt2 => ?_
    refine ih (k := k+1) (by omega) (hfull.imp_left fun h => by omega) hat2 (hb2.trans hshift)
      (fun m hm => ?_) hf2 hdue2 hcnt2
    rw [hc2]
    have := hcode (m+1) (Nat.succ_lt_succ hm)
    rw [show k+1+1+m = k+1+(m+1) by omega]
    exact this

theorem presence_bit (l : List Nat) {m : Nat} (hm : m < 8) :
    (presence val l).getLsbD m = (l.map fun i => (val i).isSome).getD m false :=
  bitByte_getLsbD _ hm

theorem presence_low {l : List Nat} (hl : l.length ≤ 7) : presence val l &&& 0x80#8 = 0#8 := by
  refine (and_bit (i := 7) (by decide)).mpr ?_
  rw [presence_bit l (by decide),List.getD_eq_getElem?_getD,
    List.getElem?_eq_none (by rw [List.length_map]; exact hl)]
  rfl

/-- The rounds at the slots of a group, from its code on. -/
theorem Frame.group (hF : Frame d val n tail cut) {l rest : List Nat} {w : List Byte}
    (hw : Wire val rest w)
    (hrest : ∀ s got, At d val n pseq s rest got → s.codeBit = 1#8 <<< 6 →
      s.stream.rest = w ++ tail → s.cnt > 0 →
        Reads d val n tail cut pseq s (got ++ sentOf val rest))
    (hlen : l.length ≤ 7) (hfull : l.length = 7 ∨ rest = []) (hs : ∃ i ∈ l, (val i).isSome)
    (hat : At d val n pseq s (l ++ rest) got) (hbit : s.codeBit = 1#8 <<< 6)
    (hr : s.stream.rest = presence val l :: (payload (l.filterMap val) ++ w ++ tail))
    (hdue : w ++ tail = [] → (cut ↔ Halved (l.filterMap val))) (hc : s.cnt > 0) :
    Reads d val n tail cut pseq s (got ++ sentOf val (l ++ rest)) := by
  cases l with
  | nil =>
    rcases hfull with h7 | rfl
    · exact absurd h7 (by decide)
    · have hcz := hat.cnt
      exact absurd hcz hc.ne'
  | cons c cur =>
    have ha : s.stream.available > 0 := by
      rw [← s.stream.rest_length,hr]
      exact Nat.zero_lt_succ _
    obtain ⟨s1,hn,hd,hcnt,hi,hcode,hb,hnib,hr1,hupd⟩ :=
      nextCode_group (s := {s with index := c}) hbit hr (presence_low hlen)
    have hln : ∀ j ∈ c :: cur, j < n := by
      intro j hj
      have hj' : j ∈ c :: cur ++ rest := List.mem_append_left _ hj
      rw [← hat.up] at hj'
      exact (mem_passing.mp hj').2.1
    have ha1 : s1.stream.available > 0 := by
      refine available_of_rest ?_
      rw [hr1,List.append_assoc]
      exact List.append_ne_nil_of_left_ne_nil
        (payload_ne_nil (filterMap_ne_nil hs) (hF.bytes_ne_nil hln)) _
    rw [List.length_cons] at hlen hfull
    have htest : ∀ m < (c :: cur).length,
        s1.code.getLsbD m = ((c :: cur).map fun i => (val i).isSome).getD m false := by
      intro m hm
      rw [List.length_cons] at hm
      rw [hcode,presence_bit _ (by omega)]
    refine hF.event hw hat ha hc hn ha1 hd hcnt hupd hi (by decide : 0 < 8) hb
      (htest 0 (Nat.zero_lt_succ _)) (Or.inl ⟨hnib,?_⟩) (fun htl => ?_)
      fun s2 got' hat2 hb2 hc2 hf2 hdue2 hcnt2 => ?_
    · rw [hr1,List.append_assoc]
    · rw [hnib]
      exact hdue htl
    · refine hF.inCode hw hrest cur (k := 0) (by omega) (hfull.imp_left fun h => by omega) hat2
        (hb2.trans hb) (fun m hm => ?_) hf2 hdue2 hcnt2
      rw [hc2,Nat.zero_add,Nat.add_comm 1 m]
      exact htest (m+1) (Nat.succ_lt_succ hm)

/-- The round at the first of the slots that an offset skips. -/
theorem Frame.skip (hF : Frame d val n tail cut) {z i : Nat} {zs rest : List Nat} {w : List Byte}
    (hz : z+7 ≤ i) (hi : i < z+240) (hn : ∀ j ∈ z :: zs, val j = none) (hv : val i = some p)
    (hrest : ∀ s got, At d val n pseq s rest got → s.codeBit = 1#8 <<< 6 →
      s.stream.rest = w ++ tail → s.cnt > 0 →
        Reads d val n tail cut pseq s (got ++ sentOf val rest))
    (hw : Wire val rest w) (hat : At d val n pseq s (z :: zs ++ i :: rest) got)
    (hbit : s.codeBit = 1#8 <<< 6)
    (hr : s.stream.rest = offsetBytes (i-z) ++ (payload [p] ++ w) ++ tail)
    (hdue : w ++ tail = [] → (cut ↔ Halved [p])) (hc : s.cnt > 0) :
    Reads d val n tail cut pseq s (got ++ sentOf val (z :: zs ++ i :: rest)) := by
  obtain ⟨h1,h2,h3,h4,-⟩ := passing_eq_cons hat.up
  obtain ⟨-,hin,hup⟩ := passing_behind hat.up
  have ha : s.stream.available > 0 := by
    obtain ⟨x,xs,hx,-⟩ := offsetBytes_cons (i-z)
    rw [← s.stream.rest_length,hr,hx]
    exact Nat.zero_lt_succ _
  refine Reads.advance (i := z) ?_ hF hat.dec h1 h2 ha hc h4
  have hsc : s.dec.slotsCnt = d.slotsCnt := by rw [hat.dec,fill_slotsCnt]
  have hzs : z < s.dec.slotsCnt := hsc ▸ Nat.lt_of_lt_of_le h2 hF.le
  have hle := hF.le
  rw [List.append_assoc] at hr
  obtain ⟨s1,hnc,hd,hcnt,hi1,hcode,hb,hnib,hr1,hupd⟩ := nextCode_skip (s := {s with index := z})
    hbit hr (by omega) (by omega) (by dsimp only; omega)
  rw [List.append_assoc] at hr1
  have hi1' : s1.index = i := by
    rw [hi1]
    dsimp only
    omega
  have hfeed : Feed [p] (w ++ tail) s1 := Or.inl ⟨hnib,hr1⟩
  have hdue1 : Due cut [p] (w ++ tail) s1 := fun htl => by
    rw [hnib]
    exact hdue htl
  have ho : Ordered p [] := hF.options (c := i) (List.forall_mem_nil _) hv
  have hcz : s1.cnt = (rest.filterMap val).length+1 := by
    rw [hcnt]
    dsimp only
    rw [hat.cnt,List.filterMap_append,List.filterMap_eq_nil_iff.mpr hn,List.nil_append,
      List.filterMap_cons_some hv]
    rfl
  have ha1 : s1.stream.available > 0 := by
    have hone : [i].filterMap val = [p] := List.filterMap_cons_some hv
    have hin' : ∀ j ∈ [i], j < n := fun j hj => by
      rw [List.mem_singleton.mp hj]
      exact hin
    have hp : payload [p] ≠ [] :=
      payload_ne_nil (List.cons_ne_nil _ _) (hone ▸ hF.bytes_ne_nil hin')
    exact available_of_rest (hr1 ▸ List.append_ne_nil_of_left_ne_nil hp _)
  have hstep := hF.step hat.dec h2 h3 hnc ha1
  rw [hcode,hb,if_neg (by decide)] at hstep
  have hsent : sentOf val (z :: zs ++ i :: rest) = i :: sentOf val rest := by
    rw [sentOf,List.filter_append,← sentOf,← sentOf,sentOf_nil hn,sentOf_cons_some hv]
    rfl
  rw [hsent,← List.singleton_append,← List.append_assoc]
  refine hF.value ⟨hzs,ha,hc⟩ hin hstep (by dsimp only; omega) hsc hi1' (hd.trans hat.dec)
    (fun j hj => ?_) hv hfeed hdue1 ha1 ho hup hcz (fun hnil => ?_)
    fun s2 hat2 hb2 _ hf2 _ hcnt2 => hrest s2 _ hat2 (hb2.trans hb) hf2.rest_of_nil hcnt2
  · have := hat.lt j hj
    omega
  · rw [hw.eq_nil (List.filterMap_eq_nil_iff.mp hnil)]
    exact ⟨rfl,rfl⟩

/-- With nothing behind the frame it is cut short when the last of its values is in the second half
of a byte. -/
def Cuts (val : Nat → Option Packed) (tail : List Byte) (cut : Prop) (l : List Nat) : Prop :=
  ∃ fuel, l.length ≤ fuel ∧ (tail = [] → (cut ↔ Halved (lastCode val fuel l)))

theorem Cuts.behind (h : Cuts val tail cut l) {code rest : List Nat}
    (hc : firstCode val l = (code,rest)) (hlen : rest.length < l.length) :
    (rest.filterMap val = [] → tail = [] → (cut ↔ Halved (code.filterMap val))) ∧
    (rest.filterMap val ≠ [] → Cuts val tail cut rest) := by
  obtain ⟨fuel,hf,hcut⟩ := h
  obtain ⟨fuel,rfl⟩ := Nat.exists_eq_add_of_le' (Nat.one_le_of_lt (Nat.lt_of_lt_of_le hlen hf))
  rw [lastCode,hc] at hcut
  dsimp only at hcut
  refine ⟨fun hr => ?_,fun hr => ⟨fuel,by omega,?_⟩⟩
  · rw [if_pos hr] at hcut
    exact hcut
  · rw [if_neg hr] at hcut
    exact hcut

/-- The loop over the values reads them from the wire. -/
theorem Frame.wire (hF : Frame d val n tail cut) {l : List Nat} {w : List Byte}
    (hw : Wire val l w) (hcuts : Cuts val tail cut l) (hat : At d val n pseq s l got)
    (hbit : s.codeBit = 1#8 <<< 6) (hr : s.stream.rest = w ++ tail) (hc : s.cnt > 0) :
    Reads d val n tail cut pseq s (got ++ sentOf val l) := by
  have hlast : ∀ {rest : List Nat} {w : List Byte}, Wire val rest w → w ++ tail = [] →
      rest.filterMap val = [] ∧ tail = [] := by
    intro rest w hw htl
    obtain ⟨hwn,htail⟩ := List.append_eq_nil_iff.mp htl
    refine ⟨?_,htail⟩
    by_contra hne
    obtain ⟨p,hp⟩ := List.exists_mem_of_ne_nil _ hne
    obtain ⟨j,hj,hv⟩ := List.mem_filterMap.mp hp
    exact hw.ne_nil ⟨j,hj,by rw [hv]; rfl⟩ hwn
  have hmore : ∀ {rest : List Nat} {s : DecodeState} {got : List Nat},
      At d val n pseq s rest got → s.cnt > 0 → rest.filterMap val ≠ [] := by
    intro rest s got hat hc hnil
    have hcz := hat.cnt
    rw [hnil] at hcz
    exact absurd hcz hc.ne'
  induction hw generalizing s got with
  | nil hn =>
    exact absurd (List.filterMap_eq_nil_iff.mpr hn) (hmore hat hc)
  | @last l hlen hs =>
    have hnil : Wire val [] [] := .nil (List.forall_mem_nil _)
    have hcode : firstCode val (l ++ []) = (l,[]) := firstCode_group hlen (Or.inr rfl) hs
    rw [List.append_nil] at hcode
    have hpos : 0 < l.length := by
      obtain ⟨i,hi,-⟩ := hs
      exact List.length_pos_of_mem hi
    have hcut := (hcuts.behind hcode hpos).1 rfl
    have hgroup : Reads d val n tail cut pseq s (got ++ sentOf val (l ++ [])) := hF.group hnil
      (fun s got hat _ _ hc => absurd hat.cnt hc.ne') hlen (Or.inr rfl) hs
      (by rw [List.append_nil]; exact hat) hbit (by rw [List.append_nil]; exact hr) hcut hc
    rw [List.append_nil] at hgroup
    exact hgroup
  | @group l rest w hlen hs hw ih =>
    obtain ⟨hhere,hbehind⟩ := hcuts.behind (firstCode_group hlen.le (Or.inl hlen) hs)
      (by rw [List.length_append]; omega)
    refine hF.group hw (fun s got hat hbit hr hc => ih (hbehind (hmore hat hc)) hat hbit hr hc)
      hlen.le (Or.inl hlen) hs hat hbit hr (fun htl => ?_) hc
    obtain ⟨hnil,htail⟩ := hlast hw htl
    exact hhere hnil htail
  | @skip z i zs rest p w hlen hz hi hn hv hw ih =>
    obtain ⟨hhere,hbehind⟩ := hcuts.behind (firstCode_skip hlen hn hv)
      (by simp only [List.length_append,List.length_cons]; omega)
    refine hF.skip hz hi hn hv (fun s got hat hbit hr hc =>
      ih (hbehind (hmore hat hc)) hat hbit hr hc) hw hat hbit hr (fun htl => ?_) hc
    obtain ⟨hnil,htail⟩ := hlast hw htl
    have hone : [i].filterMap val = [p] := List.filterMap_cons_some hv
    rw [← hone]
    exact hhere hnil htail

theorem Frame.reads (hF : Frame d val n tail cut) {l : List Nat} {w : List Byte}
    (hw : Wire val l w) (hcuts : Cuts val tail cut l) (hat : At d val n pseq s l [])
    (hbit : s.codeBit = 1#8 <<< 6) (hr : s.stream.rest = w ++ tail) (hi : s.index ≤ n) :
    Reads d val n tail cut pseq s (sentOf val l) := by
  by_cases hc : s.cnt > 0
  · exact hF.wire hw hcuts hat hbit hr hc
  · have hz := Nat.eq_zero_of_not_pos hc
    have hnil := List.length_eq_zero_iff.mp (hat.cnt.symm.trans hz)
    have hnone := List.filterMap_eq_nil_iff.mp hnil
    rw [hw.eq_nil hnone] at hr
    rw [sentOf_nil hnone]
    have hno : ¬ cut := fun hcut => by
      obtain ⟨fuel,-,hiff⟩ := hcuts
      rw [hiff (hF.tail hcut),lastCode_nil hnil] at hcut
      exact absurd hcut.1 (Nat.lt_irrefl 0)
    refine ⟨s,Ends.done (fun hg => hc hg.2.2) ?_,fun hcut => absurd hcut hno,
      fun _ => ⟨hz,hr,hat.dec,hi,hat.upd⟩⟩
    rw [hat.dec]
    exact hi.trans hF.le

end Frame

section Bits
variable {d : TelemetryDecoder} {bits : List Bool} {n : Nat}

theorem findBit_reaches (m : Nat) (hi : s.index ≤ n) (hn : n < s.dec.slotsCnt)
    (hm : n < s.index+m)
    (hno : ∀ i, s.index ≤ i → i < n → (s.dec.fieldAt i).fmt ≠ Fmt.bit.code)
    (hbit : (s.dec.fieldAt n).fmt = Fmt.bit.code) : findBit m s = some {s with index := n} := by
  induction m generalizing s with
  | zero => omega
  | succ m ih =>
    rw [findBit,field_of_lt (by omega)]
    simp only [Option.bind_eq_bind,Option.bind_some]
    rcases Nat.eq_or_lt_of_le hi with rfl | hlt
    · rw [if_pos hbit]
    · rw [if_neg (hno s.index (Nat.le_refl _) hlt)]
      exact ih (s := {s with index := s.index+1}) hlt hn (by dsimp only; omega)
        (fun i h1 h2 => hno i (Nat.le_of_succ_le h1) h2) hbit

/-- `m` of the bits are read. -/
structure BitsAt (bits : List Bool) (m : Nat) (s : DecodeState) : Prop where
  codeBit : s.codeBit = 1#8 <<< ((m+7)%8)
  code : m%8 ≠ 0 → s.code = bitByte (bits.drop (8*(m/8)))
  rest : s.stream.rest = (packBits bits).drop ((m+7)/8)

/-- The next bit is read. -/
theorem BitsAt.next {m : Nat} (h : BitsAt bits m s) (hm : m < bits.length) :
    ¬ (s.codeBit = 1#8 <<< 7 ∧ s.stream.available = 0) ∧
    BitsAt bits (m+1) (nextBit s) ∧
    ((nextBit s).code &&& (nextBit s).codeBit ≠ 0#8 ↔ bits.getD m false = true) := by
  have hdrop := packBits_drop (l := bits) (j := m/8) (by omega)
  obtain ⟨hempty,hcode,hbit,hrest⟩ :
      ¬ (s.codeBit = 1#8 <<< 7 ∧ s.stream.available = 0) ∧
      (nextBit s).code = bitByte (bits.drop (8*(m/8))) ∧
      (nextBit s).codeBit = 1#8 <<< (m%8) ∧
      (nextBit s).stream.rest = (packBits bits).drop (m/8+1) := by
    have hiff : s.codeBit = 1#8 <<< 7 ↔ m%8 = 0 := by
      rw [h.codeBit,shiftBit_eq_iff (by omega)]
      omega
    unfold nextBit
    by_cases h0 : m%8 = 0
    · have hr := h.rest
      rw [show (m+7)/8 = m/8 by omega,hdrop] at hr
      obtain ⟨h1,h2⟩ := Reader.read8_cons hr
      rw [if_pos (hiff.mpr h0),h0]
      refine ⟨fun hc => ?_,h1,rfl,h2⟩
      rw [← s.stream.rest_length,hr] at hc
      exact absurd hc.2 (Nat.succ_ne_zero _)
    · rw [if_neg (mt hiff.mp h0)]
      refine ⟨fun hc => h0 (hiff.mp hc.1),h.code h0,?_,?_⟩
      · dsimp only
        rw [h.codeBit,← BitVec.shiftLeft_add]
        congr 1
        omega
      · dsimp only
        rw [h.rest]
        congr 1
        omega
  refine ⟨hempty,⟨?_,fun h1 => ?_,?_⟩,?_⟩
  · rw [hbit]
    congr 1
    omega
  · rw [hcode,show (m+1)/8 = m/8 by omega]
  · rw [hrest]
    congr 1
    omega
  · rw [hbit,Ne,and_bit (by omega),hcode,bitByte_getLsbD _ (by omega),Bool.not_eq_false,
      List.getD_eq_getElem?_getD,List.getElem?_drop,Nat.div_add_mod,List.getD_eq_getElem?_getD]

theorem bitLoop_reads (bits : List Bool) {g : Nat → BitVec 32 × TypeId} {got : List Nat} (r : Nat)
    {m : Nat}
    (hlen : n+bits.length = d.slotsCnt)
    (hbit : ∀ i, n ≤ i → i < d.slotsCnt → (d.fieldAt i).fmt = Fmt.bit.code)
    (hg : ∀ m < bits.length, g (n+m) = (if bits.getD m false then 1#32 else 0#32,.byte))
    (hr : m+r = bits.length) (hi : s.index = n+m) (hc : s.cnt = r) (hb : BitsAt bits m s)
    (hd : s.dec = d.fill g (got ++ List.range' n m)) :
    ∃ s', bitLoop r s = some s' ∧ s'.cnt = 0 ∧ s'.stream.rest = [] ∧
      s'.dec = d.fill g (got ++ List.range' n bits.length) := by
  induction r generalizing s m with
  | zero =>
    obtain rfl : m = bits.length := hr
    refine ⟨s,rfl,hc,?_,hd⟩
    rw [hb.rest]
    exact List.drop_eq_nil_of_le (packBits_length bits).le
  | succ r ih =>
    have hm : m < bits.length := by omega
    have hslots : s.dec.slotsCnt = d.slotsCnt := by rw [hd,fill_slotsCnt]
    have hlt : s.index < s.dec.slotsCnt := by omega
    have hfield : (s.dec.fieldAt s.index).fmt = Fmt.bit.code := by
      rw [hd,hi]
      exact hbit (n+m) (Nat.le_add_right _ _) (by omega)
    obtain ⟨hempty,hnext,htest⟩ := hb.next hm
    obtain ⟨hnd,hnc,hni⟩ := nextBit_frame s
    rw [bitLoop,field_of_lt hlt]
    simp only [Option.bind_eq_bind,Option.bind_some]
    rw [if_neg (not_not.mpr hfield),if_neg hempty,DecodeState.setValue,
      if_pos (by rw [hnd,hni]; exact hlt)]
    simp only [Option.bind_some]
    have hval : (if (nextBit s).code &&& (nextBit s).codeBit ≠ 0#8 then 1#32 else 0#32,TypeId.byte)
        = g (n+m) := by
      rw [hg m hm]
      simp only [htest]
    have hdec : (nextBit s).dec.mark (nextBit s).index
        (if (nextBit s).code &&& (nextBit s).codeBit ≠ 0#8 then 1#32 else 0#32) .byte =
        d.fill g (got ++ List.range' n (m+1)) := by
      rw [hnd,hni,hi,hd,List.range'_1_concat,← List.append_assoc,← fill_mark,← hval]
    refine ih (m := m+1) (by omega) ?_ ?_ ⟨hnext.codeBit,hnext.code,hnext.rest⟩ hdec
    · dsimp only
      omega
    · dsimp only
      omega

/-- Behind the values the bitfields are read, if there are any. -/
theorem readBits_reads {g : Nat → BitVec 32 × TypeId} {got : List Nat}
    (hlen : n+bits.length = d.slotsCnt) (hno : ∀ i < n, (d.fieldAt i).fmt ≠ Fmt.bit.code)
    (hbit : ∀ i, n ≤ i → i < d.slotsCnt → (d.fieldAt i).fmt = Fmt.bit.code)
    (hg : ∀ m < bits.length, g (n+m) = (if bits.getD m false then 1#32 else 0#32,.byte))
    (hc : s.cnt = 0) (hi : s.index ≤ n) (hr : s.stream.rest = packBits bits)
    (hd : s.dec = d.fill g got) :
    ∃ s', readBits s = some s' ∧ s'.cnt = 0 ∧ s'.stream.rest = [] ∧
      s'.dec = d.fill g (got ++ List.range' n bits.length) ∧ (bits = [] → s'.upd = s.upd) := by
  unfold readBits
  by_cases h0 : bits = []
  · subst h0
    have hav : s.stream.available = 0 := by
      rw [← s.stream.rest_length,hr]
      rfl
    rw [if_neg fun hc => by omega]
    exact ⟨s,rfl,hc,hr,hd.trans (by rw [List.length_nil,List.range'_zero,List.append_nil]),
      fun _ => rfl⟩
  · have hpos := List.length_pos_iff.mpr h0
    have hslots : s.dec.slotsCnt = d.slotsCnt := by rw [hd,fill_slotsCnt]
    have hfield : ∀ i, s.dec.fieldAt i = d.fieldAt i := fun i => by rw [hd,fill_fieldAt]
    have hav : s.stream.available > 0 := by
      rw [← s.stream.rest_length,hr,packBits_length]
      omega
    rw [if_pos ⟨by omega,hav,hc⟩]
    rw [findBit_reaches (n := n) _ hi (by omega) (by omega)
      (fun i _ h2 => by rw [hfield]; exact hno i h2)
      (by rw [hfield]; exact hbit n (Nat.le_refl n) (by omega))]
    simp only [Option.bind_eq_bind,Option.bind_some]
    rw [hslots,show d.slotsCnt-n = bits.length by omega]
    obtain ⟨s',hs,hc',hr',hd'⟩ := bitLoop_reads (d := d) bits (n := n) bits.length (m := 0)
      (s := {{s with index := n} with cnt := bits.length, codeBit := 1#8 <<< 7})
      hlen hbit hg (Nat.zero_add _) rfl rfl ⟨rfl,fun h => absurd rfl h,hr⟩
      (hd.trans (by rw [List.range'_zero,List.append_nil]))
    exact ⟨s',hs,hc',hr',hd',fun h => absurd h h0⟩

end Bits

theorem fill_congr {d : TelemetryDecoder} {g g' : Nat → BitVec 32 × TypeId} {l : List Nat}
    (h : ∀ i ∈ l, g i = g' i) : d.fill g l = d.fill g' l := by
  have hv : (d.fill g l).value = (d.fill g' l).value := by
    funext i
    by_cases hi : i ∈ l
    · simp [fill,hi,h i hi]
    · simp [fill,hi]
  have hf : (d.fill g l).flags = (d.fill g' l).flags := by
    funext i
    by_cases hi : i ∈ l
    · simp [fill,hi,h i hi]
    · simp [fill,hi]
  unfold fill at hv hf ⊢
  dsimp only at hv hf
  rw [hv,hf]

/-- What a slot gets from a frame with these values, and these bits from slot `n` on. -/
def outcome (d : TelemetryDecoder) (val : Nat → Option Packed) (n : Nat) (bits : List Bool)
    (i : Nat) : BitVec 32 × TypeId :=
  if i < n then d.result val i else (if bits.getD (i-n) false then 1#32 else 0#32,.byte)

/-- `decode_values` reads a frame: it sets the slots that have a value, and the bitfields. A frame
that is cut short is not accepted. -/
theorem Frame.decodeValues {d : TelemetryDecoder} {val : Nat → Option Packed} {n : Nat}
    {bits : List Bool} {cut : Prop} {pseq : Byte} (hF : Frame d val n (packBits bits) cut)
    (hlen : n+bits.length = d.slotsCnt)
    (hbit : ∀ i, n ≤ i → i < d.slotsCnt → (d.fieldAt i).fmt = Fmt.bit.code) {wd : List Byte}
    (hw : Wire val (passing d.fieldAt pseq 0 n) wd)
    (hcuts : Cuts val (packBits bits) cut (passing d.fieldAt pseq 0 n))
    (hcnt : ((passing d.fieldAt pseq 0 n).filterMap val).length < 256) {r : Reader}
    (hr : r.rest = BitVec.ofNat 8 ((passing d.fieldAt pseq 0 n).filterMap val).length ::
      (wd ++ packBits bits)) :
    (cut → ∃ (d' : TelemetryDecoder) (r' : Reader),
      d.decodeValues r pseq = some (d'.reset true,r',false)) ∧
    (¬ cut → ∃ r' ok, d.decodeValues r pseq = some (d.fill (d.outcome val n bits)
        (sentOf val (passing d.fieldAt pseq 0 n) ++ List.range' n bits.length),r',ok) ∧
      r'.available = 0 ∧
      (bits = [] → (ok = true ↔ sentOf val (passing d.fieldAt pseq 0 n) ≠ []))) := by
  obtain ⟨h1,h2⟩ := Reader.read8_cons hr
  have ha : r.available ≠ 0 := by
    rw [← r.rest_length,hr]
    exact Nat.succ_ne_zero _
  have hnat : r.read8.1.toNat = ((passing d.fieldAt pseq 0 n).filterMap val).length := by
    rw [h1,BitVec.toNat_ofNat]
    exact Nat.mod_eq_of_lt hcnt
  have hat : At d val n pseq ⟨d,r.read8.2,r.read8.1.toNat,0#8,1#8 <<< 6,0#8,0,false,0⟩
      (passing d.fieldAt pseq 0 n) [] :=
    ⟨rfl,hnat,(fill_nil d _).symm,List.forall_mem_nil _,iff_of_false Bool.false_ne_true
      (not_not.mpr rfl)⟩
  obtain ⟨s1,he,hshort,hf⟩ := hF.reads hw hcuts hat rfl h2 (Nat.zero_le n)
  unfold TelemetryDecoder.decodeValues
  rw [if_neg ha]
  dsimp only
  rw [he (d.slotsCnt+1) (by dsimp only; omega)]
  simp only [Option.bind_eq_bind,Option.bind_some]
  refine ⟨fun hcut => ?_,fun hno => ?_⟩
  · obtain ⟨hc1,-⟩ := hshort hcut
    unfold readBits
    rw [if_neg fun hg => by omega]
    simp only [Option.bind_some]
    rw [if_pos (Or.inr (by omega))]
    exact ⟨_,_,rfl⟩
  · replace hf := hf hno
    have hsent : ∀ i ∈ sentOf val (passing d.fieldAt pseq 0 n), i < n := fun i hi =>
      (mem_passing.mp (List.mem_of_mem_filter hi)).2.1
    have hdec : s1.dec = d.fill (d.outcome val n bits)
        (sentOf val (passing d.fieldAt pseq 0 n)) :=
      hf.dec.trans (fill_congr fun i hi => (if_pos (hsent i hi)).symm)
    obtain ⟨s2,hs2,hc2,hr2,hd2,hu2⟩ := readBits_reads hlen hF.noBit hbit
      (fun m hm => by rw [outcome,if_neg (by omega),Nat.add_sub_cancel_left]) hf.cnt hf.le hf.rest
      hdec
    have hav2 : s2.stream.available = 0 := by
      rw [← s2.stream.rest_length,hr2]
      rfl
    rw [hs2]
    simp only [Option.bind_some]
    rw [if_neg (by rw [hav2,hc2]; simp),hd2]
    exact ⟨_,_,rfl,hav2,fun h0 => by rw [hu2 h0]; exact hf.upd⟩

end TelemetryDecoder

end ApxBus.Telemetry
