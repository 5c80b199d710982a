import ApxBus.Tcp.Lines
set_option autoImplicit false

/-!
`tcp_client::connect` from the moment the socket is connected: the request it sends, and the
response header it reads.
-/

namespace ApxBus.Tcp

/-- What `connect` keeps of the host; `server` is the string in an array of 64 bytes. -/
structure Host where
  stream : Bool
  server : List Byte
  deriving DecidableEq, Repr

/-- How `connect` ends: with what is received but not read, with the socket closed, or with a name
of the server that runs over the end of its array. -/
inductive Outcome where
  | connected (host : Host) (rest : List Byte)
  | closed (host : Host)
  | overflow
  deriving DecidableEq, Repr

/-- The bytes of the request, in a buffer of which `snprintf` uses 255. -/
def request (path name : List Byte) : List Byte :=
  (ascii "GET " ++ path ++ ascii " HTTP/1.0\r\nFrom: " ++ name ++ ascii "\r\n\r\n").take 254

/-- The loop over the header lines. -/
def headerLoop : Nat → Host → List Byte → Option Outcome
  | 0, _, _ => none
  | fuel+1, host, s =>
    match readline 256 s with
    | (none,_) => some (.closed host)
    | (some line,s) =>
      if (strstr (ascii "application/octet-stream") (cstr line)).isSome then
        headerLoop fuel {host with stream := true} s
      else match strstr (ascii "Server: ") (cstr line) with
        | some t =>
          let name := t.drop 8
          if name.length < 64 then
            headerLoop fuel {host with server := name.takeWhile (· ≠ 46#8)} s
          else some .overflow
        | none =>
          if (cstr line).length = 0 then
            if host.stream then some (.connected host s) else headerLoop fuel host s
          else headerLoop fuel host s

/-- What comes behind the request. Without a path nothing is sent and nothing is read. -/
def connect (host : Host) (path s : List Byte) : Option Outcome :=
  if path = [] then some (.connected host s)
  else match readline 256 s with
    | (none,_) => some (.closed host)
    | (some line,s) =>
      if (strstr (ascii "200 OK") (cstr line)).isSome then headerLoop (s.length+1) ⟨false,[]⟩ s
      else some (.closed host)

/-- A header line that does not end the loop; none when the name of the server is too long. -/
def Host.header (host : Host) (line : List Byte) : Option Host :=
  if (strstr (ascii "application/octet-stream") line).isSome then some {host with stream := true}
  else match strstr (ascii "Server: ") line with
    | some t =>
      if (t.drop 8).length < 64 then some {host with server := (t.drop 8).takeWhile (· ≠ 46#8)}
      else none
    | none => some host

def Host.through : Host → List (List Byte) → Option Host
  | host, [] => some host
  | host, raw :: l =>
    if host.stream ∧ text raw = [] then none else (host.header (text raw)).bind (·.through l)

def unlines (l : List (List Byte)) : List Byte := l.flatMap (· ++ [lf])

theorem unlines_cons (raw : List Byte) (l : List (List Byte)) :
    unlines (raw :: l) = raw ++ (lf :: unlines l) := by
  rw [unlines,List.flatMap_cons,List.append_assoc]
  rfl

theorem header_nil (host : Host) : host.header [] = some host := by
  rw [Host.header,show strstr (ascii "application/octet-stream") [] = none by decide,
    show strstr (ascii "Server: ") [] = none by decide]
  rfl

theorem headerLoop_line (fuel : Nat) (host : Host) {raw s : List Byte} (h : Short raw) :
    headerLoop (fuel+1) host (raw ++ lf :: s) =
      if host.stream ∧ text raw = [] then some (.connected host s)
      else match host.header (text raw) with
        | some host => headerLoop fuel host s
        | none => some .overflow := by
  rw [headerLoop,readline_short h]
  dsimp only
  rw [show cstr (stored raw) = text raw from rfl]
  generalize text raw = line
  cases line with
  | nil =>
    rw [header_nil,show strstr (ascii "application/octet-stream") [] = none by decide,
      show strstr (ascii "Server: ") [] = none by decide]
    cases hs : host.stream <;> simp
  | cons b line =>
    rw [if_neg (fun hc : host.stream ∧ b :: line = [] => List.cons_ne_nil b line hc.2),Host.header]
    cases strstr (ascii "application/octet-stream") (b :: line) with
    | some t => rfl
    | none =>
      cases strstr (ascii "Server: ") (b :: line) with
      | some t =>
        dsimp only
        by_cases hlt : (t.drop 8).length < 64
        · rw [if_pos hlt,if_pos hlt]
          rfl
        · rw [if_neg hlt,if_neg hlt]
          rfl
      | none => rfl

theorem headerLoop_none (fuel : Nat) (host : Host) {s : List Byte} (h : (readline 256 s).1 = none) :
    headerLoop (fuel+1) host s = some (.closed host) := by
  rw [headerLoop]
  cases hr : readline 256 s with
  | mk line rest =>
    rw [hr] at h
    cases h
    rfl

theorem headerLoop_spec {fuel : Nat} {host : Host} {s : List Byte} (hf : s.length < fuel) :
    ∃ l host' t, s = unlines l ++ t ∧ (∀ raw ∈ l, Short raw) ∧ host.through l = some host' ∧
      (headerLoop fuel host s = some (.closed host') ∧ (readline 256 t).1 = none ∨
      ∃ raw rest, Short raw ∧ t = raw ++ lf :: rest ∧
        (headerLoop fuel host s = some (.connected host' rest) ∧ host'.stream ∧ text raw = [] ∨
        headerLoop fuel host s = some .overflow ∧ ¬ (host'.stream ∧ text raw = []) ∧
          host'.header (text raw) = none)) := by
  induction fuel generalizing host s with
  | zero => omega
  | succ fuel ih =>
    rcases readline_cases s with hnone | ⟨raw,rest,hs,rfl,-⟩
    · exact ⟨[],host,s,rfl,by simp,rfl,Or.inl ⟨headerLoop_none fuel host hnone,hnone⟩⟩
    · rw [headerLoop_line fuel host hs]
      by_cases hstop : host.stream ∧ text raw = []
      · refine ⟨[],host,raw ++ lf :: rest,rfl,by simp,rfl,Or.inr ⟨raw,rest,hs,rfl,Or.inl ?_⟩⟩
        rw [if_pos hstop]
        exact ⟨rfl,hstop⟩
      rw [if_neg hstop]
      cases hh : host.header (text raw) with
      | none => exact ⟨[],host,raw ++ lf :: rest,rfl,by simp,rfl,
          Or.inr ⟨raw,rest,hs,rfl,Or.inr ⟨rfl,hstop,hh⟩⟩⟩
      | some host1 =>
        rw [List.length_append,List.length_cons] at hf
        obtain ⟨l,host',t,rfl,hl,hthrough,hend⟩ := @ih host1 rest (by omega)
        refine ⟨raw :: l,host',t,?_,?_,?_,hend⟩
        · rw [unlines_cons,List.append_assoc]
          rfl
        · exact List.forall_mem_cons.mpr ⟨hs,hl⟩
        · rw [Host.through,if_neg hstop,hh]
          exact hthrough

theorem headerLoop_lines {l : List (List Byte)} {host host' : Host} (hl : ∀ raw ∈ l, Short raw)
    (h : host.through l = some host') {fuel : Nat} {t : List Byte}
    (hf : (unlines l ++ t).length < fuel) : ∃ fuel', t.length < fuel' ∧
      headerLoop fuel host (unlines l ++ t) = headerLoop fuel' host' t := by
  induction l generalizing host fuel with
  | nil =>
    cases h
    exact ⟨fuel,hf,rfl⟩
  | cons raw l ih =>
    obtain ⟨hs,hl⟩ := List.forall_mem_cons.mp hl
    rw [Host.through] at h
    split_ifs at h with hstop
    obtain ⟨host1,hh,hthrough⟩ := Option.bind_eq_some_iff.mp h
    obtain ⟨f,rfl⟩ : ∃ f, fuel = f+1 := ⟨fuel-1,by omega⟩
    rw [unlines_cons,List.append_assoc,List.length_append,List.cons_append,List.length_cons] at hf
    obtain ⟨fuel',hlt,heq⟩ := @ih host1 hl hthrough f (by omega)
    refine ⟨fuel',hlt,?_⟩
    rw [unlines_cons,List.append_assoc,List.cons_append,headerLoop_line f host hs,if_neg hstop,hh]
    exact heq

theorem headerLoop_connected_iff {fuel : Nat} {host host' : Host} {s rest : List Byte}
    (hf : s.length < fuel) : headerLoop fuel host s = some (.connected host' rest) ↔
    ∃ l last, s = unlines l ++ (last ++ lf :: rest) ∧ (∀ raw ∈ l, Short raw) ∧ Short last ∧
      host.through l = some host' ∧ host'.stream ∧ text last = [] := by
  constructor
  · intro h
    obtain ⟨l,h1,t,rfl,hl,hthrough,⟨hend,-⟩ | ⟨raw,r,hs,rfl,⟨hend,hst,hnil⟩ | ⟨hend,-⟩⟩⟩ :=
      @headerLoop_spec fuel host s hf
    · cases hend.symm.trans h
    · cases hend.symm.trans h
      exact ⟨l,raw,rfl,hl,hs,hthrough,hst,hnil⟩
    · cases hend.symm.trans h
  · rintro ⟨l,last,rfl,hl,hs,hthrough,hst,hnil⟩
    obtain ⟨fuel',hlt,heq⟩ := headerLoop_lines hl hthrough hf
    obtain ⟨f,rfl⟩ : ∃ f, fuel' = f+1 := ⟨fuel'-1,by omega⟩
    rw [heq,headerLoop_line f host' hs,if_pos ⟨hst,hnil⟩]

theorem headerLoop_overflow_iff {fuel : Nat} {host : Host} {s : List Byte}
    (hf : s.length < fuel) : headerLoop fuel host s = some .overflow ↔
    ∃ l bad rest host', s = unlines l ++ (bad ++ lf :: rest) ∧ (∀ raw ∈ l, Short raw) ∧ Short bad ∧
      host.through l = some host' ∧ host'.header (text bad) = none := by
  constructor
  · intro h
    obtain ⟨l,h1,t,rfl,hl,hthrough,⟨hend,-⟩ | ⟨raw,r,hs,rfl,⟨hend,-⟩ | ⟨hend,-,hbad⟩⟩⟩ :=
      @headerLoop_spec fuel host s hf
    · cases hend.symm.trans h
    · cases hend.symm.trans h
    · exact ⟨l,raw,r,h1,rfl,hl,hs,hthrough,hbad⟩
  · rintro ⟨l,bad,rest,host',rfl,hl,hs,hthrough,hbad⟩
    obtain ⟨fuel',hlt,heq⟩ := headerLoop_lines hl hthrough hf
    obtain ⟨f,rfl⟩ : ∃ f, fuel' = f+1 := ⟨fuel'-1,by omega⟩
    rw [heq,headerLoop_line f host' hs,if_neg,hbad]
    rintro ⟨-,hnil⟩
    rw [hnil,header_nil] at hbad
    cases hbad

def announces (raw : List Byte) : Bool :=
  (strstr (ascii "application/octet-stream") (text raw)).isSome

/-- The name of the server in a line that has one, and does not announce the stream. -/
def named (raw : List Byte) : Option (List Byte) :=
  if announces raw then none else (strstr (ascii "Server: ") (text raw)).map (·.drop 8)

/-- The name that is kept behind a line: that of the line up to the first dot. -/
def pick (server raw : List Byte) : List Byte :=
  match named raw with
  | some name => name.takeWhile (· ≠ 46#8)
  | none => server

theorem header_eq (host : Host) (raw : List Byte) : host.header (text raw) =
    if ∀ name, named raw = some name → name.length < 64 then
      some ⟨host.stream || announces raw,pick host.server raw⟩ else none := by
  unfold Host.header pick named announces
  cases strstr (ascii "application/octet-stream") (text raw) with
  | some t => simp
  | none =>
    cases strstr (ascii "Server: ") (text raw) with
    | some t => simp
    | none => simp

theorem header_none_iff {host : Host} {bad : List Byte} : host.header (text bad) = none ↔
    ∃ name, named bad = some name ∧ 64 ≤ name.length := by
  rw [header_eq]
  split_ifs with hfit
  · exact iff_of_false (fun h => by cases h) fun ⟨name,hn,h64⟩ => absurd (hfit name hn) (by omega)
  · refine iff_of_true rfl ?_
    by_contra hno
    exact hfit fun name hn => by
      by_contra h64
      exact hno ⟨name,hn,by omega⟩

/-- The header lines that are read while the loop goes on, and what they say. -/
theorem through_iff {host host' : Host} {l : List (List Byte)} : host.through l = some host' ↔
    (∀ pre e post, l = pre ++ e :: post → text e = [] →
      host.stream = false ∧ ∀ raw ∈ pre, announces raw = false) ∧
    (∀ raw ∈ l, ∀ name, named raw = some name → name.length < 64) ∧
    host' = ⟨host.stream || l.any announces,l.foldl pick host.server⟩ := by
  induction l generalizing host with
  | nil =>
    rw [Host.through,List.any_nil,Bool.or_false,Option.some.injEq]
    refine ⟨fun he => ⟨fun pre e post h => by simp at h,by simp,he.symm⟩,fun h => h.2.2.symm⟩
  | cons raw l ih =>
    rw [Host.through,header_eq]
    by_cases hstop : host.stream ∧ text raw = []
    · rw [if_pos hstop]
      refine iff_of_false (fun h => by cases h) fun h => ?_
      have h0 := (h.1 [] raw l rfl hstop.2).1
      rw [hstop.1] at h0
      cases h0
    rw [if_neg hstop]
    by_cases hfit : ∀ name, named raw = some name → name.length < 64
    · rw [if_pos hfit,Option.bind_some,ih,List.any_cons,List.foldl_cons,Bool.or_assoc,
        List.forall_mem_cons,and_iff_right hfit]
      refine and_congr_left fun _ => ⟨fun h pre e post he hnil => ?_,fun h pre e post he hnil => ?_⟩
      · cases pre with
        | nil =>
          obtain ⟨rfl,-⟩ := List.cons.inj he
          refine ⟨?_,by simp⟩
          cases hst : host.stream
          · rfl
          · exact absurd ⟨hst,hnil⟩ hstop
        | cons r pre =>
          obtain ⟨rfl,htail⟩ := List.cons.inj he
          obtain ⟨h1,h2⟩ := h pre e post htail hnil
          obtain ⟨hst,ha⟩ := Bool.or_eq_false_iff.mp h1
          exact ⟨hst,List.forall_mem_cons.mpr ⟨ha,h2⟩⟩
      · obtain ⟨h1,h2⟩ := h (raw :: pre) e post (by rw [he]; rfl) hnil
        obtain ⟨ha,h2⟩ := List.forall_mem_cons.mp h2
        exact ⟨Bool.or_eq_false_iff.mpr ⟨h1,ha⟩,h2⟩
    · rw [if_neg hfit]
      exact iff_of_false (fun h => by cases h) fun h => hfit (h.2.1 raw List.mem_cons_self)

theorem unlines_append (l l' : List (List Byte)) : unlines (l ++ l') = unlines l ++ unlines l' :=
  List.flatMap_append

theorem connect_header {host : Host} {path s : List Byte} (hp : path ≠ []) {o : Outcome}
    (ho : ∀ host, o ≠ .closed host) : connect host path s = some o ↔
    ∃ first t, Short first ∧ s = first ++ lf :: t ∧ ascii "200 OK" <:+: text first ∧
      headerLoop (t.length+1) ⟨false,[]⟩ t = some o := by
  rw [connect,if_neg hp]
  constructor
  · intro h
    rcases readline_cases s with hnone | ⟨first,t,hs,rfl,hr⟩
    · cases hr : readline 256 s with
      | mk line t =>
        rw [hr] at hnone h
        cases hnone
        exact absurd (Option.some.inj h).symm (ho host)
    · rw [hr] at h
      dsimp only at h
      by_cases hok : (strstr (ascii "200 OK") (cstr (stored first))).isSome
      · rw [if_pos hok] at h
        exact ⟨first,t,hs,rfl,strstr_isSome_iff.mp hok,h⟩
      · rw [if_neg hok] at h
        exact absurd (Option.some.inj h).symm (ho host)
  · rintro ⟨first,t,hs,rfl,hok,h⟩
    rw [readline_short hs]
    dsimp only
    rw [show cstr (stored first) = text first from rfl,if_pos (strstr_isSome_iff.mpr hok)]
    exact h

theorem unlines_header (first last rest : List Byte) (l : List (List Byte)) :
    unlines (first :: (l ++ [last])) ++ rest =
      first ++ lf :: (unlines l ++ (last ++ lf :: rest)) := by
  rw [unlines_cons,unlines_append,unlines_cons]
  simp [unlines]

theorem forall_header {P : List Byte → Prop} {first last : List Byte} {l : List (List Byte)} :
    (∀ raw ∈ first :: (l ++ [last]), P raw) ↔ P first ∧ (∀ raw ∈ l, P raw) ∧ P last := by
  rw [List.forall_mem_cons,List.forall_mem_append,List.forall_mem_singleton]

/-- The responses that are accepted, and how far they are read: a first line with the status, then
header lines one of which announces a packet stream, up to the first empty line behind that one. No
line is longer than the buffer, and no name of the server longer than its array. -/
theorem connect_iff {host host' : Host} {path s rest : List Byte} (hp : path ≠ []) :
    connect host path s = some (.connected host' rest) ↔
    ∃ first l last, s = unlines (first :: (l ++ [last])) ++ rest ∧
      (∀ raw ∈ first :: (l ++ [last]), Short raw) ∧ ascii "200 OK" <:+: text first ∧
      text last = [] ∧ (∃ raw ∈ l, announces raw) ∧
      (∀ pre e post, l = pre ++ e :: post → text e = [] → ∀ raw ∈ pre, announces raw = false) ∧
      (∀ raw ∈ l, ∀ name, named raw = some name → name.length < 64) ∧
      host' = ⟨true,l.foldl pick []⟩ := by
  rw [connect_header hp (fun _ h => by cases h)]
  simp only [unlines_header,forall_header]
  constructor
  · rintro ⟨first,t,hs,rfl,hok,h⟩
    obtain ⟨l,last,rfl,hl,hlast,hthrough,hst,hnil⟩ :=
      (headerLoop_connected_iff (Nat.lt_succ_self _)).mp h
    obtain ⟨hquiet,hfit,rfl⟩ := through_iff.mp hthrough
    refine ⟨first,l,last,rfl,⟨hs,hl,hlast⟩,hok,hnil,List.any_eq_true.mp hst,
      fun pre e post he hn => (hquiet pre e post he hn).2,hfit,?_⟩
    rw [Host.mk.injEq]
    exact ⟨hst,rfl⟩
  · rintro ⟨first,l,last,rfl,⟨hs,hl,hlast⟩,hok,hnil,hann,hquiet,hfit,rfl⟩
    refine ⟨first,_,hs,rfl,hok,(headerLoop_connected_iff (Nat.lt_succ_self _)).mpr
      ⟨l,last,rfl,hl,hlast,through_iff.mpr ⟨fun pre e post he hn => ⟨rfl,?_⟩,hfit,?_⟩,rfl,hnil⟩⟩
    · exact hquiet pre e post he hn
    · rw [List.any_eq_true.mpr hann]
      rfl

/-- A response with the name of the server in it, and two bytes of the stream behind it. -/
theorem connect_iff_named : connect ⟨false,[]⟩ (ascii "/data")
    (ascii ("HTTP/1.0 200 OK\r\nServer: apx.gcs\r\n" ++
      "Content-Type: application/octet-stream\r\n\r\nAB")) =
    some (.connected ⟨true,ascii "apx"⟩ (ascii "AB")) := by
  have hsome : ∀ e ∈ [ascii "Server: apx.gcs\r",ascii "Content-Type: application/octet-stream\r"],
      text e ≠ [] := by decide
  refine (connect_iff (by decide)).mpr ⟨ascii "HTTP/1.0 200 OK\r",[ascii "Server: apx.gcs\r",
    ascii "Content-Type: application/octet-stream\r"],ascii "\r",by decide,by decide,by decide,
    by decide,by decide,fun pre e post he hnil => absurd hnil (hsome e ?_),by decide,by decide⟩
  rw [he]
  exact List.mem_append_right pre List.mem_cons_self

/-- The responses that write over the end of an array: those in which a line is read that has a
name of the server of 64 bytes or more. -/
theorem connect_overflow_iff {host : Host} {path s : List Byte} (hp : path ≠ []) :
    connect host path s = some .overflow ↔
    ∃ first l bad rest name, s = unlines (first :: (l ++ [bad])) ++ rest ∧
      (∀ raw ∈ first :: (l ++ [bad]), Short raw) ∧ ascii "200 OK" <:+: text first ∧
      (∀ pre e post, l = pre ++ e :: post → text e = [] → ∀ raw ∈ pre, announces raw = false) ∧
      (∀ raw ∈ l, ∀ name, named raw = some name → name.length < 64) ∧
      named bad = some name ∧ 64 ≤ name.length := by
  rw [connect_header hp (fun _ h => by cases h)]
  simp only [unlines_header,forall_header]
  constructor
  · rintro ⟨first,t,hs,rfl,hok,h⟩
    obtain ⟨l,bad,rest,host',rfl,hl,hb,hthrough,hnone⟩ :=
      (headerLoop_overflow_iff (Nat.lt_succ_self _)).mp h
    obtain ⟨hquiet,hfit,-⟩ := through_iff.mp hthrough
    obtain ⟨name,hn,h64⟩ := header_none_iff.mp hnone
    exact ⟨first,l,bad,rest,name,rfl,⟨hs,hl,hb⟩,hok,
      fun pre e post he hnil => (hquiet pre e post he hnil).2,hfit,hn,h64⟩
  · rintro ⟨first,l,bad,rest,name,rfl,⟨hs,hl,hb⟩,hok,hquiet,hfit,hn,h64⟩
    refine ⟨first,_,hs,rfl,hok,(headerLoop_overflow_iff (Nat.lt_succ_self _)).mpr
      ⟨l,bad,rest,_,rfl,hl,hb,through_iff.mpr ⟨fun pre e post he hnil => ⟨rfl,?_⟩,hfit,rfl⟩,?_⟩⟩
    · exact hquiet pre e post he hnil
    · exact header_none_iff.mpr ⟨name,hn,h64⟩

/-- A name of the server of 64 bytes, in the first header line. -/
theorem connect_overflow_iff_first : connect ⟨false,[]⟩ (ascii "/data")
    (ascii "HTTP/1.0 200 OK\r\nServer: " ++ List.replicate 64 65#8 ++ [lf]) = some .overflow := by
  refine (connect_overflow_iff (by decide)).mpr ⟨ascii "HTTP/1.0 200 OK\r",[],
    ascii "Server: " ++ List.replicate 64 65#8,[],List.replicate 64 65#8,by decide,by decide,
      by decide,
    fun pre e post he => ?_,by decide,by decide,by decide⟩
  simp at he

end ApxBus.Tcp
