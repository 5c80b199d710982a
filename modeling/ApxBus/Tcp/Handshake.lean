import ApxBus.Tcp.Client
set_option autoImplicit false

/-! `tcp_server::run` up to the registration of the client, and a client and a server that open a
connection. -/

namespace ApxBus.Tcp

def skipHeader : Nat → List Byte → Option (List Byte)
  | 0, _ => none
  | fuel+1, s =>
    match readline 256 s with
    | (none,s) => some s
    | (some line,s) => if (cstr line).length = 0 then some s else skipHeader fuel s

def replyLines (t : List Byte) : List Byte :=
  ascii "HTTP/1.0 200 OK\r\n" ++ ascii "Content-Type: application/octet-stream\r\n" ++
    (ascii "tcp_server: " ++ t ++ ascii "\r\n").take 254 ++ ascii "\r\n"

/-- The response header of a server; behind an empty path it reads past the end of the string. -/
def reply : List Byte → Option (List Byte)
  | [] => none
  | _ :: t => some (replyLines t)

/-- What a server with this path sends to a client, and what is left for the packet stream; none
when it closes the connection. -/
def serve (path s : List Byte) : Option (List Byte × List Byte) :=
  match readline 256 s with
  | (none,_) => none
  | (some line,s) =>
    if (ascii "GET ").isPrefixOf (cstr line) ∧ path.isPrefixOf ((cstr line).drop 4) then
      (skipHeader (s.length+1) s).bind fun s => (reply path).map fun r => (r,s)
    else none

structure Clean (s : List Byte) : Prop where
  nul : 0#8 ∉ s
  cr : cr ∉ s
  lf : lf ∉ s

theorem Clean.append {s t : List Byte} (hs : Clean s) (ht : Clean t) : Clean (s ++ t) :=
  ⟨fun h => (List.mem_append.mp h).elim hs.nul ht.nul,
    fun h => (List.mem_append.mp h).elim hs.cr ht.cr,
    fun h => (List.mem_append.mp h).elim hs.lf ht.lf⟩

theorem clean_iff {s : List Byte} :
    (s.all fun c => c ≠ 0#8 ∧ c ≠ Tcp.cr ∧ c ≠ Tcp.lf) = true ↔ Clean s := by
  rw [List.all_eq_true]
  constructor
  · intro h
    have hc : ∀ c ∈ s, c ≠ 0#8 ∧ c ≠ Tcp.cr ∧ c ≠ Tcp.lf := fun c hc => of_decide_eq_true (h c hc)
    exact ⟨fun hm => (hc _ hm).1 rfl,fun hm => (hc _ hm).2.1 rfl,fun hm => (hc _ hm).2.2 rfl⟩
  · intro h c hc
    exact decide_eq_true ⟨fun hz => h.nul (hz ▸ hc),fun hz => h.cr (hz ▸ hc),
      fun hz => h.lf (hz ▸ hc)⟩

instance (s : List Byte) : Decidable (Clean s) := decidable_of_iff _ clean_iff

theorem Clean.line {s : List Byte} (h : Clean s) (hlen : s.length < 254) :
    Short (s ++ [Tcp.cr]) ∧ text (s ++ [Tcp.cr]) = s := by
  refine ⟨⟨fun hm => ?_,?_⟩,?_⟩
  · rcases List.mem_append.mp hm with hm | hm
    · exact h.lf hm
    · exact absurd hm (by decide)
  · rw [List.length_append]
    exact Nat.succ_lt_succ hlen
  · rw [text,stored_append,stored_clean h.cr,show stored [Tcp.cr] = [] by decide,List.append_nil,
      cstr_clean h.nul]

theorem skipHeader_line (fuel : Nat) {raw s : List Byte} (h : Short raw) (hne : text raw ≠ []) :
    skipHeader (fuel+1) (raw ++ lf :: s) = skipHeader fuel s := by
  rw [skipHeader,readline_short h]
  dsimp only
  rw [show cstr (stored raw) = text raw from rfl,if_neg]
  exact fun h0 => hne (List.length_eq_zero_iff.mp h0)

theorem skipHeader_end (fuel : Nat) (s : List Byte) :
    skipHeader (fuel+1) ([cr] ++ lf :: s) = some s := by
  rw [skipHeader,readline_short (by decide)]
  dsimp only
  rw [if_pos (by decide)]

theorem request_lines {path name : List Byte} (hlen : path.length+name.length ≤ 229) :
    request path name = (ascii "GET " ++ path ++ ascii " HTTP/1.0" ++ [cr]) ++
      lf :: ((ascii "From: " ++ name ++ [cr]) ++ lf :: ([cr] ++ [lf])) := by
  have h1 : ascii " HTTP/1.0\r\nFrom: " = ascii " HTTP/1.0" ++ ([cr] ++ lf :: ascii "From: ") := by
    decide
  have h2 : ascii "\r\n\r\n" = [cr] ++ lf :: ([cr] ++ [lf]) := by decide
  have hGet : (ascii "GET ").length = 4 := by decide
  have hHttp : (ascii " HTTP/1.0\r\nFrom: ").length = 17 := by decide
  have hend : (ascii "\r\n\r\n").length = 4 := by decide
  rw [request,List.take_of_length_le]
  · rw [h1,h2]
    simp only [List.append_assoc,List.cons_append,List.nil_append]
  · simp only [List.length_append,hGet,hHttp,hend]
    omega

/-- The server takes in the request and nothing behind it. -/
theorem serve_request {path name q : List Byte} (hp : Clean path) (hn : Clean name)
    (hlen : path.length+name.length ≤ 229) (up : List Byte) :
    serve q (request path name ++ up) =
      if q <+: path ++ ascii " HTTP/1.0" then (reply q).map fun r => (r,up) else none := by
  have hfirst : Clean (ascii "GET " ++ path ++ ascii " HTTP/1.0") :=
    Clean.append (Clean.append (by decide) hp) (by decide)
  have hfrom : Clean (ascii "From: " ++ name) := Clean.append (by decide) hn
  have hGet : (ascii "GET ").length = 4 := by decide
  have hHttp : (ascii " HTTP/1.0").length = 9 := by decide
  have hFrom : (ascii "From: ").length = 6 := by decide
  obtain ⟨hs1,ht1⟩ := hfirst.line (by simp only [List.length_append,hGet,hHttp]; omega)
  obtain ⟨hs2,ht2⟩ := hfrom.line (by simp only [List.length_append,hFrom]; omega)
  have hreq : request path name ++ up = (ascii "GET " ++ path ++ ascii " HTTP/1.0" ++ [cr]) ++
      lf :: ((ascii "From: " ++ name ++ [cr]) ++ lf :: ([cr] ++ lf :: up)) := by
    rw [request_lines hlen]
    simp
  have hne : text (ascii "From: " ++ name ++ [cr]) ≠ [] := by
    rw [ht2]
    intro h0
    simpa [hFrom] using congrArg List.length h0
  have hget : (ascii "GET ").isPrefixOf (ascii "GET " ++ path ++ ascii " HTTP/1.0") = true := by
    rw [List.isPrefixOf_iff_prefix,List.append_assoc]
    exact List.prefix_append _ _
  have hrest : (ascii "GET " ++ path ++ ascii " HTTP/1.0").drop 4 = path ++ ascii " HTTP/1.0" := by
    rw [List.append_assoc]
    exact List.drop_left' hGet
  have hskip : skipHeader (((ascii "From: " ++ name ++ [cr]) ++ lf :: ([cr] ++ lf :: up)).length+1)
      ((ascii "From: " ++ name ++ [cr]) ++ lf :: ([cr] ++ lf :: up)) = some up := by
    rw [skipHeader_line _ hs2 hne,List.length_append,List.length_cons,← Nat.add_assoc,
      skipHeader_end]
  rw [hreq,serve,readline_short hs1]
  dsimp only
  rw [show cstr (stored _) = text (ascii "GET " ++ path ++ ascii " HTTP/1.0" ++ [cr]) from rfl,ht1,
    hget,hrest,hskip]
  simp only [true_and,List.isPrefixOf_iff_prefix]
  rfl

theorem replyLines_lines {t : List Byte} (hlen : t.length ≤ 240) (down : List Byte) :
    replyLines t ++ down = unlines ((ascii "HTTP/1.0 200 OK" ++ [cr]) ::
      ([ascii "Content-Type: application/octet-stream" ++ [cr],
        ascii "tcp_server: " ++ t ++ [cr]] ++ [[cr]])) ++ down := by
  have h1 : ascii "HTTP/1.0 200 OK\r\n" = ascii "HTTP/1.0 200 OK" ++ [cr] ++ [lf] := by decide
  have h2 : ascii "Content-Type: application/octet-stream\r\n" =
      ascii "Content-Type: application/octet-stream" ++ [cr] ++ [lf] := by decide
  have h3 : ascii "\r\n" = [cr] ++ [lf] := by decide
  have hname : (ascii "tcp_server: ").length = 12 := by decide
  have hend : (ascii "\r\n").length = 2 := by decide
  rw [replyLines,List.take_of_length_le (by
    simp only [List.length_append,hname,hend]
    omega),h1,h2,h3]
  simp [unlines]

theorem connect_reply {path t : List Byte} (hp : path ≠ []) (ht : Clean t) (hlen : t.length ≤ 240)
    (hserver : ¬ ascii "Server: " <:+: t) (host : Host) (down : List Byte) :
    connect host path (replyLines t ++ down) = some (.connected ⟨true,[]⟩ down) := by
  have hthird : Clean (ascii "tcp_server: " ++ t) := Clean.append (by decide) ht
  have hname : (ascii "tcp_server: ").length = 12 := by decide
  obtain ⟨hs,ht⟩ := hthird.line (by
    simp only [List.length_append,hname]
    omega)
  have hnone : strstr (ascii "Server: ") (ascii "tcp_server: " ++ t) = none := by
    have hS : ascii "Server: " = 83#8 :: (ascii "erver: ") := by decide
    rw [hS,strstr_skip (by decide),← hS]
    exact Option.not_isSome_iff_eq_none.mp fun h => hserver (strstr_isSome_iff.mp h)
  have hnamed : ∀ raw ∈ [ascii "Content-Type: application/octet-stream" ++ [cr],
      ascii "tcp_server: " ++ t ++ [cr]], named raw = none ∧ text raw ≠ [] := by
    refine List.forall_mem_cons.mpr ⟨by decide,List.forall_mem_singleton.mpr ⟨?_,?_⟩⟩
    · rw [named,ht,hnone]
      split_ifs <;> rfl
    · rw [ht]
      intro h0
      simpa [hname] using congrArg List.length h0
  refine (connect_iff hp).mpr ⟨_,_,_,replyLines_lines hlen down,?_,by decide,by decide,?_,?_,?_,?_⟩
  · rw [forall_header]
    exact ⟨by decide,List.forall_mem_cons.mpr ⟨by decide,List.forall_mem_singleton.mpr hs⟩,
      by decide⟩
  · exact ⟨_,List.mem_cons_self,by decide⟩
  · intro pre e post he hnil
    refine absurd hnil (hnamed e ?_).2
    rw [he]
    exact List.mem_append_right pre List.mem_cons_self
  · intro raw hraw name hn
    rw [(hnamed raw hraw).1] at hn
    cases hn
  · simp only [List.foldl_cons,List.foldl_nil,pick,(hnamed _ List.mem_cons_self).1,
      (hnamed _ (List.mem_cons_of_mem _ List.mem_cons_self)).1]

/-- A client and a server that open a connection: how the client ends, with `down` behind the
response, and what the server leaves for the stream, with `up` behind the request. -/
def dial (host : Host) (path name q up down : List Byte) : Option Outcome × Option (List Byte) :=
  match serve q (request path name ++ up) with
  | some (r,up) => (connect host path (r ++ down),some up)
  | none => (connect host path [],none)

/-- The connection is opened on both sides or on none: it is when the path of the server begins the
one that is asked for, and then both streams are left whole. -/
theorem dial_eq {path name q : List Byte} (hne : path ≠ []) (hp : Clean path) (hn : Clean name)
    (hlen : path.length+name.length ≤ 229) (hq : q ≠ []) (hserver : ¬ ascii "Server: " <:+: q)
    (host : Host) (up down : List Byte) : dial host path name q up down =
      if q <+: path ++ ascii " HTTP/1.0" then (some (.connected ⟨true,[]⟩ down),some up)
      else (some (.closed host),none) := by
  obtain ⟨c,t,rfl⟩ := List.exists_cons_of_ne_nil hq
  rw [dial,serve_request hp hn hlen]
  by_cases hpre : c :: t <+: path ++ ascii " HTTP/1.0"
  · rw [if_pos hpre,if_pos hpre]
    have hclean : Clean (path ++ ascii " HTTP/1.0") := hp.append (by decide)
    have hHttp : (ascii " HTTP/1.0").length = 9 := by decide
    have htlen := hpre.length_le
    rw [List.length_append,hHttp,List.length_cons] at htlen
    have hsub : t ⊆ path ++ ascii " HTTP/1.0" := fun b hb => hpre.subset (List.mem_cons_of_mem c hb)
    have ht : Clean t := ⟨fun hm => hclean.nul (hsub hm),fun hm => hclean.cr (hsub hm),
      fun hm => hclean.lf (hsub hm)⟩
    change (connect host path (replyLines t ++ down),some up) = _
    rw [connect_reply hne ht (by omega) fun hi => hserver (hi.trans (List.suffix_cons c t).isInfix)]
  · rw [if_neg hpre,if_neg hpre]
    dsimp only
    rw [connect,if_neg hne]
    rfl

theorem dial_eq_data : dial ⟨false,[]⟩ (ascii "/data") (ascii "gcs") (ascii "/da") [1#8] [2#8,3#8] =
    (some (.connected ⟨true,[]⟩ [2#8,3#8]),some [1#8]) := by
  have h := @dial_eq (ascii "/data") (ascii "gcs") (ascii "/da") (by decide) (by decide)
    (by decide) (by decide) (by decide) (by decide) ⟨false,[]⟩ [1#8] [2#8,3#8]
  rwa [if_pos (by decide)] at h

end ApxBus.Tcp
