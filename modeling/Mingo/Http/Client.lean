import Mingo.Http.Server
import Mingo.Uri.Print

/-!
# The requests of http_connection.cpp

`HttpConnection::DoRequest` and `HttpConnectionPool::doRequest` make a request of a URI, header
fields and a body.  The first puts the parts of the URI into the members of the request, the
second puts all of them into its path.

* `directRequest_received` -- what a server reads of the first;
* `poolRequest_received` -- the second is read as the first, but for the flag `close`;
* `doRequest_served` -- the result of a request that an `HttpServer` answers.
-/

namespace Mingo

open Grammar (Derives)
open Grammar.Expr (ref)
open Http (bytes uriText)
open Scanner (inClass)

/-! ### The parts of a URI as text -/

namespace Uri

variable {u : Uri} {s v w : List UInt8} {on : List (Nat × Nat)}

theorem uriText_append (hpercent : inClass on 37 = false) (hv : uriText on v = true)
    (hw : uriText on w = true) : uriText on (v ++ w) = true := by
  fun_induction uriText on v with
  | case1 => exact hw
  | case2 a b v ih =>
      rw [Bool.and_eq_true] at hv
      simp only [List.cons_append, uriText, hv.1, ih hv.2, Bool.and_self]
  | case3 b v hshape ih =>
      rw [Bool.and_eq_true] at hv
      have hb : b ≠ 37 := by
        rintro rfl
        rw [hpercent] at hv
        cases hv.1
      have hcons : uriText on (b :: (v ++ w)) = (inClass on b && uriText on (v ++ w)) := by
        rw [uriText]
        intro _ _ _ hpct
        exact absurd hpct hb
      rw [List.cons_append, hcons, hv.1, ih hv.2, Bool.and_self]

/-- A word whose bytes are of the class, but for its percent encodings. -/
theorem uriText_of_derives {e : Rhs} (hpercent : inClass on 37 = false)
    (hmade : Grammar.madeOf uriRl on (· == .pctEncoded) 20 e = true) (h : Derives uriRl e w) :
    uriText on w = true := by
  refine h.joined (P := fun w => uriText on w = true) rfl
    (fun v w hv hw => uriText_append hpercent hv hw) ?_ ?_ 20 hmade
  · intro b hb
    simp [uriText, hb]
  · intro n hn w hw
    obtain rfl : n = .pctEncoded := by simpa using hn
    obtain ⟨_, x, rfl, hpct, hx⟩ := Grammar.derives_seq.mp hw
    obtain ⟨_, _, rfl, ha, hb⟩ := Grammar.derives_seq.mp hx
    obtain rfl := (Grammar.derives_byte (by decide)).mp hpct
    obtain ⟨a, hdigit, rfl⟩ := Grammar.derives_chars.mp ha
    obtain ⟨b, hdigit', rfl⟩ := Grammar.derives_chars.mp hb
    simp [uriText, hdigit, hdigit']

/-- **An accepted text with a scheme** has words for its parts. -/
theorem words_of_create (hcreate : create s = some (some u)) (hscheme : u.scheme ≠ []) :
    u.Words := by
  have hrelative {s : List UInt8} (haccepts : Accepts 451 s) (hfront : Front s)
      (hcreate : create s = some (some u)) : False := by
    obtain ⟨u', hu', hnil⟩ := create_relative haccepts hfront
    rw [hcreate, Option.some.injEq, Option.some.injEq] at hu'
    exact hscheme (hu' ▸ hnil)
  rcases created_iff.mp ⟨u, hcreate⟩ with ⟨x, rfl, hx, hhost, -⟩ | ⟨o, rfl, ho⟩
  · cases hs : x.scheme with
    | none => exact (hrelative (accepts_parts hx hhost) (front_parts hs) hcreate).elim
    | some scheme =>
        rw [create_parts hx hhost hs] at hcreate
        split at hcreate
        · cases hcreate
        · obtain rfl : x.uri scheme = u := by simpa using hcreate
          exact words_parts hx hhost hs
  · cases hs : o.scheme with
    | none => exact (hrelative (accepts_plain ho) (front_plain ho hs) hcreate).elim
    | some scheme =>
        obtain rfl : o.uri scheme = u := by
          rw [create_plain ho hs] at hcreate
          simpa using hcreate
        exact words_plain ho hs

/-- The path that is asked for begins with a slash. -/
theorem Words.head_getPath (hu : u.Words) : u.getPath.head? = some 47 := by
  rcases path_cases hu.getPath with hnil | ⟨v, hv⟩
  · exact absurd hnil (getPath_ne_nil u)
  · rw [hv]
    rfl

/-- The parts that a request line is made of are text. -/
theorem Words.text (hu : u.Words) :
    uriText Http.RequestTable.pathChar u.getPath = true ∧
      uriText Http.RequestTable.queryChar u.query = true ∧
      uriText Http.RequestTable.queryChar u.fragment = true :=
  ⟨uriText_of_derives (by decide) (by decide) hu.getPath,
    uriText_of_derives (by decide) (by decide) hu.query,
    uriText_of_derives (by decide) (by decide) hu.fragment⟩

/-- The bytes of a host are visible, but for the byte 2 of `dec_octet`. -/
theorem Words.host_text (hu : u.Words) (htwo : 2 ∉ u.host) :
    u.host.all (inClass Http.textChar) = true ∧ u.host.head? ≠ some 32 := by
  have hclass {on : List (Nat × Nat)}
      (hcovers : Scanner.covers [(2, 2), (33, 126)] on = true) {v : List UInt8}
      (hv : ∀ b ∈ v, inClass on b = true) :
      ∀ b ∈ v, inClass [(2, 2), (33, 126)] b = true :=
    fun b hb => Scanner.inClass_of_covers hcovers (hv b hb)
  have hall : ∀ b ∈ u.host, inClass [(2, 2), (33, 126)] b = true := by
    have hform := hostForm_of_derives (.inl rfl) hu.host
    generalize u.host = h at hform
    cases hform with
    | name hh => exact hclass (by decide) hh
    | literal hx =>
        intro b hb
        rcases List.mem_append.mp hb with hb | hb
        · rcases List.mem_cons.mp hb with rfl | hb
          · decide
          · exact hclass (by decide) hx b hb
        · rw [List.mem_singleton.mp hb]
          decide
  have hvisible : ∀ b ∈ u.host, inClass [(33, 126)] b = true := by
    intro b hb
    have hne : b ≠ 2 := ne_of_mem_of_not_mem hb htwo
    have hb := hall b hb
    simp only [inClass, List.any_cons, List.any_nil, Bool.or_false, Bool.or_eq_true,
      Bool.and_eq_true, decide_eq_true_eq] at hb ⊢
    have : b.toNat ≠ 2 := fun h => hne (UInt8.toNat_inj.mp h)
    omega
  refine ⟨List.all_eq_true.mpr fun b hb => ?_, fun hhead => ?_⟩
  · exact Scanner.inClass_of_covers (by decide) (hvisible b hb)
  · have := hvisible 32 (List.mem_of_mem_head? hhead)
    revert this
    decide

end Uri

namespace Http

/-! ### Making a request -/

/-- The loop over the header fields that a caller gives; the flag is `has_host`. -/
def giveHeaders : List (List UInt8 × List UInt8) → HttpRequest × Bool → HttpRequest × Bool
  | [], s => s
  | i :: headers, (req, hasHost) =>
      if caseFold i.1 = caseFold (bytes "connection") then
        giveHeaders headers
          (if caseFold i.2 = caseFold (bytes "keep-alive") then { req with close := false }
            else req, hasHost)
      else
        giveHeaders headers (req.setHeader i.1 i.2,
          if !hasHost && caseFold i.1 = caseFold (bytes "host") then i.2 ≠ [] else hasHost)

/-- The rest of both functions; `host` is for callers that give none. -/
def fillRequest (req : HttpRequest) (host : List UInt8)
    (headers : List (List UInt8 × List UInt8)) (body : List UInt8) : HttpRequest :=
  let (req, hasHost) := giveHeaders headers (req, false)
  (if hasHost then req else req.setHeader (bytes "Host") host).setBody body

/-- The request of `HttpConnection::DoRequest`. -/
def directRequest (method : HttpMethod) (uri : Uri) (headers : List (List UInt8 × List UInt8))
    (body : List UInt8) : HttpRequest :=
  fillRequest { HttpRequest.new with
    path := uri.getPath, query := uri.query, fragment := uri.fragment, method := method }
    uri.host headers body

/-- What the functions of the pool make of a URI. -/
def poolUrl (uri : Uri) : List UInt8 :=
  uri.getPath ++ (if uri.query = [] then [] else bytes "?") ++ uri.query ++
    (if uri.fragment = [] then [] else bytes "#") ++ uri.fragment

/-- The request of `HttpConnectionPool::doRequest`, for a pool with the members `m_host` and
`m_vhost`. -/
def poolRequest (host vhost : List UInt8) (method : HttpMethod) (url : List UInt8)
    (headers : List (List UInt8 × List UInt8)) (body : List UInt8) : HttpRequest :=
  fillRequest { HttpRequest.new with path := url, method := method, close := false }
    (if vhost = [] then host else vhost) headers body

/-- The fields are not entered as they are when they are named `connection`. -/
def givenFields (headers : List (List UInt8 × List UInt8)) : List (List UInt8 × List UInt8) :=
  headers.filter fun f => caseFold f.1 ≠ caseFold (bytes "connection")

/-- The caller asks to keep the connection. -/
def keepsAlive (headers : List (List UInt8 × List UInt8)) : Bool :=
  headers.any fun f => caseFold f.1 = caseFold (bytes "connection") ∧
    caseFold f.2 = caseFold (bytes "keep-alive")

/-- The caller gives a host. -/
def givesHost (headers : List (List UInt8 × List UInt8)) : Bool :=
  headers.any fun f => caseFold f.1 = caseFold (bytes "host") ∧ f.2 ≠ []

/-- The fields that are entered, in this order. -/
def enteredFields (headers : List (List UInt8 × List UInt8)) (host : List UInt8) :
    List (List UInt8 × List UInt8) :=
  givenFields headers ++ if givesHost headers then [] else [(bytes "Host", host)]

variable {headers : List (List UInt8 × List UInt8)} {host body : List UInt8} {method : HttpMethod}

theorem giveHeaders_eq (headers : List (List UInt8 × List UInt8)) (req : HttpRequest)
    (hasHost : Bool) :
    giveHeaders headers (req, hasHost) =
      ({ req with
          close := req.close && !keepsAlive headers
          headers :=
            (givenFields headers).foldl (fun m f => MapType.assign m f.1 f.2) req.headers },
        hasHost || givesHost headers) := by
  induction headers generalizing req hasHost with
  | nil => simp [giveHeaders, keepsAlive, givesHost, givenFields]
  | cons i headers ih =>
      have hdistinct : caseFold (bytes "connection") ≠ caseFold (bytes "host") := by decide
      rw [giveHeaders]
      by_cases hconnection : caseFold i.1 = caseFold (bytes "connection")
      · have hhost : ¬ caseFold i.1 = caseFold (bytes "host") := by rwa [hconnection]
        rw [if_pos hconnection, ih]
        by_cases hkeep : caseFold i.2 = caseFold (bytes "keep-alive")
        · simp [hkeep, hconnection, keepsAlive, givesHost, givenFields, hdistinct]
        · simp [hkeep, hconnection, keepsAlive, givesHost, givenFields, hdistinct]
      · rw [if_neg hconnection, ih]
        refine Prod.ext ?_ ?_
        · simp [hconnection, keepsAlive, givenFields, HttpRequest.setHeader]
        · cases hasHost <;> by_cases hname : caseFold i.1 = caseFold (bytes "host") <;>
            simp [hname, givesHost]

/-- **The request that is made.** -/
theorem fillRequest_eq (req : HttpRequest) (hempty : req.headers = []) :
    fillRequest req host headers body =
      { req with
        close := req.close && !keepsAlive headers
        headers := OrderedMap.ofList caseFold (enteredFields headers host)
        body := body } := by
  rw [fillRequest, giveHeaders_eq, hempty, Bool.false_or]
  cases hhost : givesHost headers with
  | true => simp [HttpRequest.setBody, OrderedMap.ofList, enteredFields, hhost, MapType.assign]
  | false =>
      simp [HttpRequest.setBody, HttpRequest.setHeader, OrderedMap.ofList, enteredFields, hhost,
        MapType.assign]

/-- The request of `DoRequest`, with every member. -/
theorem directRequest_eq (method : HttpMethod) (u : Uri) (headers : List (List UInt8 × List UInt8))
    (body : List UInt8) :
    directRequest method u headers body =
      { method := method
        version := 0x11
        close := !keepsAlive headers
        path := u.getPath
        query := u.query
        fragment := u.fragment
        body := body
        headers := OrderedMap.ofList caseFold (enteredFields headers u.host) } := by
  rw [directRequest, fillRequest_eq _ rfl]
  rfl

/-- Header fields that a caller can give: what says `connection` is not written as it is, and the
length of the body is written by `dump`. -/
def Fillable (headers : List (List UInt8 × List UInt8)) : Prop :=
  ∀ f ∈ givenFields headers, GoodField f ∧ caseFold f.1 ≠ caseFold (bytes "content-length")

instance : Decidable (Fillable headers) := inferInstanceAs (Decidable (∀ _ ∈ _, _))

/-- The fields that are entered can be written. -/
theorem Fillable.entered (h : Fillable headers)
    (hhost : givesHost headers = false → GoodField (bytes "Host", host)) :
    ∀ f ∈ enteredFields headers host, GoodField f ∧
      caseFold f.1 ≠ caseFold (bytes "connection") ∧
      caseFold f.1 ≠ caseFold (bytes "content-length") := by
  have hname : caseFold (bytes "Host") ≠ caseFold (bytes "connection") ∧
      caseFold (bytes "Host") ≠ caseFold (bytes "content-length") := by decide
  intro f hf
  rcases List.mem_append.mp hf with hf | hf
  · obtain ⟨hgood, hlength⟩ := h f hf
    have hconnection := (List.mem_filter.mp hf).2
    exact ⟨hgood, of_decide_eq_true hconnection, hlength⟩
  · cases hgives : givesHost headers with
    | true =>
        rw [hgives, if_pos rfl] at hf
        cases hf
    | false =>
        rw [hgives, if_neg Bool.false_ne_true, List.mem_singleton] at hf
        rw [hf]
        exact ⟨hhost hgives, hname⟩

/-- **The request can be sent**, with either value of the flag `close`. -/
theorem sendable_directRequest {c : Session} {u : Uri} (hu : u.Words)
    (hmethod : method ≠ .invalidMethod) (hsearch : method ≠ .msearch)
    (hpath : [47, 47] <+: u.getPath → takesPath c.uriRelaxed u.getPath = true)
    (hheaders : Fillable headers) (hhost : givesHost headers = false → 2 ∉ u.host)
    (hbody : body.length < 2 ^ 31) (close : Bool) :
    Sendable c { directRequest method u headers body with close := close } := by
  have hgood : givesHost headers = false → GoodField (bytes "Host", u.host) := by
    intro hgives
    have hname : bytes "Host" ≠ [] ∧ (bytes "Host").all (inClass tchar) = true := by decide
    obtain ⟨htext, hblank⟩ := hu.host_text (hhost hgives)
    exact ⟨hname.1, hname.2, htext, hblank⟩
  obtain ⟨hpathText, hquery, hfragment⟩ := hu.text
  have hfields : ∀ f ∈ OrderedMap.ofList caseFold (enteredFields headers u.host), GoodField f ∧
      caseFold f.1 ≠ caseFold (bytes "connection") ∧
      caseFold f.1 ≠ caseFold (bytes "content-length") := by
    intro f hf
    obtain ⟨⟨f₁, hf₁, hname⟩, ⟨f₂, hf₂, hvalue⟩⟩ := OrderedMap.mem_ofList hf
    obtain ⟨hgood₁, hother⟩ := hheaders.entered hgood f₁ hf₁
    obtain ⟨hgood₂, -⟩ := hheaders.entered hgood f₂ hf₂
    rw [← hname]
    exact ⟨⟨hname ▸ hgood₁.named, hname ▸ hgood₁.name, hvalue ▸ hgood₂.value,
      hvalue ▸ hgood₂.noBlank⟩, hother⟩
  rw [directRequest_eq]
  refine ⟨⟨hmethod, .inr rfl, hu.head_getPath, hpathText, hquery, hfragment,
    OrderedMap.ofList_sorted _, fun f hf => (hfields f hf).1, fun f hf => (hfields f hf).2, ?_⟩,
    hsearch, hpath, hbody⟩
  exact lt_trans hbody (by decide)

/-- What the other side finds under a name that `dump` does not write by itself. -/
theorem lookup_sentHeaders {req : HttpRequest} {k : List UInt8}
    (hconnection : caseFold k ≠ caseFold (bytes "connection"))
    (hlength : caseFold k ≠ caseFold (bytes "content-length")) :
    req.sentHeaders.lookup k = req.headers.lookup k := by
  unfold HttpRequest.sentHeaders MapType.lookup MapType.assign
  split
  · rw [OrderedMap.entry_assign, if_neg hconnection]
  · rw [OrderedMap.entry_assign, if_neg hlength, OrderedMap.entry_assign, if_neg hconnection]

/-- The value of a header field is that of the last one of its name. -/
def lastValue (fs : List (List UInt8 × List UInt8)) (k : List UInt8) : Option (List UInt8) :=
  (OrderedMap.assignments caseFold fs k).getLast?.map Prod.snd

theorem lookup_ofList (fs : List (List UInt8 × List UInt8)) (k : List UInt8) :
    MapType.lookup (OrderedMap.ofList caseFold fs) k = lastValue fs k := by
  rw [MapType.lookup, OrderedMap.entry_ofList, OrderedMap.firstLast_snd, lastValue]

/-- **The value that is found** is that of the last field given, or the host of the URL. -/
theorem lastValue_entered {k : List UInt8} (hk : caseFold k ≠ caseFold (bytes "connection")) :
    lastValue (enteredFields headers host) k =
      if caseFold k = caseFold (bytes "host") ∧ givesHost headers = false then some host
      else lastValue headers k := by
  have hname : caseFold (bytes "Host") = caseFold (bytes "host") := by decide
  have hgiven : OrderedMap.assignments caseFold (givenFields headers) k =
      OrderedMap.assignments caseFold headers k := by
    rw [OrderedMap.assignments, givenFields, List.filter_filter]
    refine List.filter_congr fun f _ => ?_
    by_cases hf : caseFold f.1 = caseFold k
    · simp [hf, hk]
    · simp [hf]
  have happend : OrderedMap.assignments caseFold (enteredFields headers host) k =
      OrderedMap.assignments caseFold headers k ++
        if caseFold k = caseFold (bytes "host") ∧ givesHost headers = false
        then [(bytes "Host", host)] else [] := by
    rw [← hgiven, enteredFields, OrderedMap.assignments, List.filter_append]
    congr 1
    cases givesHost headers with
    | true => simp
    | false =>
        by_cases hhost : caseFold k = caseFold (bytes "host")
        · simp [hname, hhost]
        · have hother : ¬ caseFold (bytes "host") = caseFold k := fun h => hhost h.symm
          simp [hname, hhost, hother]
  rw [lastValue, happend]
  split
  · rw [List.getLast?_append_of_ne_nil _ (by simp)]
    rfl
  · rw [List.append_nil]
    rfl

/-- What the other side finds under a name that is neither written by `dump` nor left out. -/
theorem lookup_entered {req : HttpRequest} {k : List UInt8}
    (h : req.headers = OrderedMap.ofList caseFold (enteredFields headers host))
    (hconnection : caseFold k ≠ caseFold (bytes "connection"))
    (hlength : caseFold k ≠ caseFold (bytes "content-length")) :
    req.sentHeaders.lookup k =
      if caseFold k = caseFold (bytes "host") ∧ givesHost headers = false then some host
      else lastValue headers k := by
  rw [lookup_sentHeaders hconnection hlength, h, lookup_ofList, lastValue_entered hconnection]

/-! ### What a server reads of it -/

/-- A request that can be sent is read as it was written. -/
theorem recvRequest_sendable {c : Session} (hcast : c.ReadsDecimals) (hint : c.buffSize < 2 ^ 31)
    {req : HttpRequest} (h : Sendable c req) {pieces : List (List UInt8)}
    (hpieces : Brings c.buffSize req.dumpHead req.body pieces) (later : List (List UInt8)) :
    c.recvRequest (.ofPieces (pieces ++ later)) = (.message req.sent, .ofPieces later) := by
  obtain ⟨m, hhead, hbody, hrequest⟩ := h.writable.message hcast h.method h.path
  rw [← hhead, ← hbody] at hpieces
  have hrecv := recvRequest_brings hpieces hint (by rw [hbody]; exact h.body) later
  rw [hrequest] at hrecv
  exact hrecv

variable {c : Session} {s : List UInt8} {u : Uri} {pieces later : List (List UInt8)}

/-- **What a server reads of `DoRequest`.**  The request for a URL with a scheme has the parts of
the URL, the body, under every name the last of the values given, and the host of the URL unless
one was given; and it asks to close unless a header field named `connection` said
`keep-alive`. -/
theorem directRequest_received (hcast : c.ReadsDecimals) (hint : c.buffSize < 2 ^ 31)
    (hurl : Uri.create s = some (some u)) (hscheme : u.scheme ≠ [])
    (hmethod : method ≠ .invalidMethod) (hsearch : method ≠ .msearch)
    (hpath : [47, 47] <+: u.getPath → takesPath c.uriRelaxed u.getPath = true)
    (hheaders : Fillable headers) (hhost : givesHost headers = false → 2 ∉ u.host)
    (hbody : body.length < 2 ^ 31)
    (hpieces : Brings c.buffSize (directRequest method u headers body).dumpHead body pieces) :
    ∃ req, c.recvRequest (.ofPieces (pieces ++ later)) = (.message req, .ofPieces later) ∧
      req.method = method ∧ req.version = 0x11 ∧ req.path = u.getPath ∧ req.query = u.query ∧
      req.fragment = u.fragment ∧ req.body = body ∧
      (req.close = false ↔ ∃ f ∈ headers, caseFold f.1 = caseFold (bytes "connection") ∧
        caseFold f.2 = caseFold (bytes "keep-alive")) ∧
      (∀ k, caseFold k ≠ caseFold (bytes "connection") →
        caseFold k ≠ caseFold (bytes "content-length") → caseFold k ≠ caseFold (bytes "host") →
        req.headers.lookup k = lastValue headers k) ∧
      req.headers.lookup (bytes "host") =
        if ∃ f ∈ headers, caseFold f.1 = caseFold (bytes "host") ∧ f.2 ≠ []
        then lastValue headers (bytes "host") else some u.host := by
  have hwords := Uri.words_of_create hurl hscheme
  have hsend := sendable_directRequest (c := c) hwords hmethod hsearch hpath hheaders hhost hbody
    (!keepsAlive headers)
  rw [directRequest_eq] at hsend hpieces
  refine ⟨_, recvRequest_sendable hcast hint hsend hpieces later, rfl, rfl, rfl, rfl, rfl, rfl,
    ?_, ?_, ?_⟩
  · simp [HttpRequest.sent, keepsAlive]
  · intro k hconnection hlength hother
    rw [HttpRequest.sent, lookup_entered rfl hconnection hlength, if_neg fun h => hother h.1]
  · rw [HttpRequest.sent, lookup_entered rfl (by decide) (by decide)]
    cases hgives : givesHost headers with
    | true =>
        have hex : ∃ f ∈ headers, caseFold f.1 = caseFold (bytes "host") ∧ f.2 ≠ [] := by
          simpa [givesHost] using hgives
        rw [if_pos hex]
        simp
    | false =>
        have hno : ¬ ∃ f ∈ headers, caseFold f.1 = caseFold (bytes "host") ∧ f.2 ≠ [] := by
          simpa [givesHost] using hgives
        rw [if_neg hno]
        simp

/-- Header fields with one that keeps the connection, a host that is no host, and two of one
name. -/
def sampleHeaders : List (List UInt8 × List UInt8) :=
  [(bytes "Accept", bytes "*/*"), (bytes "Connection", bytes "Keep-Alive"), (bytes "HOST", []),
    (bytes "accept", bytes "text/html")]

def sampleUri : Uri :=
  ⟨bytes "http", bytes "user", bytes "[::1]", bytes "/a%20b//c", bytes "q=1", bytes "top", 8080⟩

theorem create_sampleUri :
    Uri.create (bytes "http://user@[::1]:8080/a%20b//c?q=1#top") = some (some sampleUri) := by
  decide +kernel

theorem brings_one {size : Nat} {head body : List UInt8}
    (hsize : (head ++ body).length ≤ size) (hmax : (head ++ body).length ≤ maxRead) :
    Brings size head body [head ++ body] := by
  exact ⟨body, [], rfl, by simp, hsize, hmax, by simp⟩

theorem directRequest_received_sample :
    ∃ req, dumpSession.recvRequest (.ofPieces
        ([(directRequest .put sampleUri sampleHeaders (bytes "hi")).dumpHead ++ bytes "hi"] ++
          [bytes "GET"])) = (.message req, .ofPieces [bytes "GET"]) ∧
      req.method = .put ∧ req.version = 0x11 ∧ req.path = bytes "/a%20b//c" ∧
      req.query = bytes "q=1" ∧ req.fragment = bytes "top" ∧ req.body = bytes "hi" ∧
      req.close = false ∧ req.headers.lookup (bytes "accept") = some (bytes "text/html") ∧
      req.headers.lookup (bytes "host") = some (bytes "[::1]") := by
  obtain ⟨req, hrecv, hmethod, hversion, hpath, hquery, hfragment, hbody, hclose, hother, hhost⟩ :=
    @directRequest_received sampleHeaders (bytes "hi") .put dumpSession _ sampleUri _ [bytes "GET"]
      dumpSession_readsDecimals (by decide) create_sampleUri (by decide) (by decide) (by decide)
      (by decide) (by decide) (by decide) (by decide)
      (brings_one (by decide +kernel) (by decide +kernel))
  refine ⟨req, hrecv, hmethod, hversion, hpath, hquery, hfragment, hbody, ?_, ?_, ?_⟩
  · exact hclose.mpr (by decide)
  · exact hother _ (by decide) (by decide) (by decide)
  · rw [hhost]
    decide

/-! ### The pool -/

/-- The request of the pool is written as that of `DoRequest`, but for the flag `close`. -/
theorem poolRequest_dumpHead {host vhost : List UInt8} (u : Uri)
    (hsame : (if vhost = [] then host else vhost) = u.host) :
    (poolRequest host vhost method (poolUrl u) headers body).body = body ∧
      (poolRequest host vhost method (poolUrl u) headers body).dumpHead =
        HttpRequest.dumpHead { directRequest method u headers body with close := false } := by
  rw [poolRequest, fillRequest_eq _ rfl, hsame, directRequest_eq]
  refine ⟨rfl, ?_⟩
  simp [HttpRequest.dumpHead, HttpRequest.dumpLine, HttpRequest.sentFields,
    HttpRequest.connectionValue, poolUrl, HttpRequest.new]

/-- The header map that is read when the flag `close` is not set. -/
theorem sentHeaders_keep {req : HttpRequest} (h : OrderedMap.Sorted caseFold req.headers) :
    HttpRequest.sentHeaders { req with close := false } =
      req.sentHeaders.assign (bytes "connection") (bytes "keep-alive") := by
  have hdistinct : caseFold (bytes "connection") ≠ caseFold (bytes "content-length") := by decide
  have hassign (v : List UInt8) := h.assign (bytes "connection") v
  unfold HttpRequest.sentHeaders MapType.assign
  by_cases hbody : req.body = []
  · rw [if_pos hbody, if_pos hbody]
    refine (hassign _).ext ((hassign _).assign _ _) fun k => ?_
    by_cases hk : caseFold k = caseFold (bytes "connection")
    · simp [OrderedMap.entry_assign, hk, HttpRequest.connectionValue]
    · simp [OrderedMap.entry_assign, hk]
  · rw [if_neg hbody, if_neg hbody]
    refine ((hassign _).assign _ _).ext (((hassign _).assign _ _).assign _ _) fun k => ?_
    by_cases hk : caseFold k = caseFold (bytes "connection")
    · simp [OrderedMap.entry_assign, hk, hdistinct, HttpRequest.connectionValue]
    · by_cases hk' : caseFold k = caseFold (bytes "content-length")
      · simp [OrderedMap.entry_assign, hk', hdistinct.symm]
      · simp [OrderedMap.entry_assign, hk, hk']

/-- **What a server reads of the pool** is what it reads of `DoRequest`, but that the connection
is to be kept. -/
theorem poolRequest_received {host vhost : List UInt8} {direct pooled : List (List UInt8)}
    (hcast : c.ReadsDecimals) (hint : c.buffSize < 2 ^ 31)
    (hurl : Uri.create s = some (some u)) (hscheme : u.scheme ≠ [])
    (hmethod : method ≠ .invalidMethod) (hsearch : method ≠ .msearch)
    (hpath : [47, 47] <+: u.getPath → takesPath c.uriRelaxed u.getPath = true)
    (hheaders : Fillable headers) (hhost : givesHost headers = false → 2 ∉ u.host)
    (hbody : body.length < 2 ^ 31) (hsame : (if vhost = [] then host else vhost) = u.host)
    (hdirect : Brings c.buffSize (directRequest method u headers body).dumpHead body direct)
    (hpooled : Brings c.buffSize
      (poolRequest host vhost method (poolUrl u) headers body).dumpHead body pooled) :
    ∃ req, c.recvRequest (.ofPieces (direct ++ later)) = (.message req, .ofPieces later) ∧
      c.recvRequest (.ofPieces (pooled ++ later)) = (.message { req with
        close := false
        headers := req.headers.assign (bytes "connection") (bytes "keep-alive") },
        .ofPieces later) := by
  have hwords := Uri.words_of_create hurl hscheme
  have hsend (close : Bool) := sendable_directRequest (c := c) hwords hmethod hsearch hpath hheaders
    hhost hbody close
  rw [(poolRequest_dumpHead u hsame).2] at hpooled
  rw [directRequest_eq] at hsend hdirect hpooled
  refine ⟨_, recvRequest_sendable hcast hint (hsend (!keepsAlive headers)) hdirect later, ?_⟩
  rw [recvRequest_sendable hcast hint (hsend false) hpooled later]
  have hkeep := sentHeaders_keep (hsend (!keepsAlive headers)).writable.headers
  dsimp only at hkeep
  simp only [HttpRequest.sent, hkeep]

/-- Without the field that keeps the connection, the two differ. -/
theorem poolRequest_received_sample :
    ∃ req, dumpSession.recvRequest (.ofPieces
        ([(directRequest .get sampleUri [] (bytes "hi")).dumpHead ++ bytes "hi"] ++ [])) =
          (.message req, .ofPieces []) ∧
      dumpSession.recvRequest (.ofPieces
        ([(poolRequest (bytes "h") (bytes "[::1]") .get (poolUrl sampleUri) []
          (bytes "hi")).dumpHead ++ bytes "hi"] ++ [])) =
          (.message { req with
            close := false
            headers := req.headers.assign (bytes "connection") (bytes "keep-alive") },
            .ofPieces []) :=
  poolRequest_received dumpSession_readsDecimals (by decide) create_sampleUri (by decide)
    (by decide) (by decide) (by decide) (by decide) (by decide) (by decide) (by decide)
    (brings_one (by decide +kernel) (by decide +kernel))
    (brings_one (by decide +kernel) (by decide +kernel))

/-! ### The result -/

/-- `HttpResult::Error`. -/
inductive HttpResult.Error
  | ok
  | invalidUrl
  | invalidHost
  | connectFail
  | sendCloseByPeer
  | sendSocketError
  | timeout
  | createSocketError
  deriving DecidableEq, Repr

/-- `HttpResult`; the numbers of the errors are their places in the enumeration. -/
structure HttpResult where
  result : HttpResult.Error
  response : Option HttpResponse
  error : List UInt8
  deriving DecidableEq, Repr

/-- What `DoRequest` finds outside: the address of a URI, as its text, whether a socket is made
and connected, what `writeFixSize` returns, the texts of the last error, and the read results
that come back for the data. -/
structure Network where
  createAddress : Uri → Option (List UInt8)
  createTCP : List UInt8 → Bool
  connect : List UInt8 → Bool
  writeFixSize : List UInt8 → Int
  errno : List UInt8
  strerror : List UInt8
  reply : List UInt8 → SocketStream

namespace Network

variable {net : Network} {client : Connection}

/-- `DoRequest` of a request; `none` is an exception. -/
def exchange (net : Network) (client : Connection) (req : HttpRequest) (uri : Uri)
    (timeoutMs : Nat) : Option HttpResult :=
  match net.createAddress uri with
  | none => some ⟨.invalidHost, none, bytes "invalid host: " ++ uri.host⟩
  | some addr =>
      if !net.createTCP addr then
        some ⟨.createSocketError, none, bytes "create socket fail: " ++ addr ++ bytes " errno=" ++
          net.errno ++ bytes " errstr=" ++ net.strerror⟩
      else if !net.connect addr then
        some ⟨.connectFail, none, bytes "connect fail: " ++ addr⟩
      else
        let data := req.dump false
        let rt := net.writeFixSize data
        if rt = 0 then
          some ⟨.sendCloseByPeer, none, bytes "send request closed by peer: " ++ addr⟩
        else if rt < 0 then
          some ⟨.sendSocketError, none, bytes "send request socket error errno=" ++ net.errno ++
            bytes " errstr=" ++ net.strerror⟩
        else
          match (client.recvResponse (net.reply data)).1 with
          | .raised => none
          | .null =>
              some ⟨.timeout, none, bytes "recv response timeout: " ++ addr ++
                bytes " timeout_ms:" ++ decimal timeoutMs⟩
          | .message rsp => some ⟨.ok, some rsp, bytes "ok"⟩

/-- `DoRequest` of a URL; `DoGet` and `DoPost` call it with their methods. -/
def doRequest (net : Network) (client : Connection) (method : HttpMethod) (url : List UInt8)
    (timeoutMs : Nat) (headers : List (List UInt8 × List UInt8)) (body : List UInt8) :
    Option HttpResult :=
  (Uri.create url).bind fun
    | none => some ⟨.invalidUrl, none, bytes "invalid url: " ++ url⟩
    | some uri => net.exchange client (directRequest method uri headers body) uri timeoutMs

/-- The connection leads to the server.  The data comes to it in the read results `ins`, and what
`handleClient` sends comes back in the read results `outs`; the header blocks are not cut. -/
structure LeadsTo (net : Network) (server : HttpServer) (client : Connection)
    (req : HttpRequest) (ins outs : List (List UInt8)) : Prop where
  sent : 0 < net.writeFixSize (req.dump false)
  request : Cut server.session.buffSize req.dumpHead.length (req.dump false) ins
  response : Cut client.buffSize (server.respond req.sent).dumpHead.length
    ((server.handleClient (.ofPieces ins)).1.flatMap fun rsp => rsp.dump false []) outs
  reply : net.reply (req.dump false) = .ofPieces outs

/-- The server makes one response of one request. -/
theorem handleClient_request {server : HttpServer} {req : HttpRequest} {ins : List (List UInt8)}
    (hserver : server.session.ReadsDecimals) (hin : server.session.buffSize < 2 ^ 31)
    (hsend : Sendable server.session req)
    (hins : Cut server.session.buffSize req.dumpHead.length (req.dump false) ins) :
    (server.handleClient (.ofPieces ins)).1 = [server.respond req.sent] := by
  rw [hsend.writable.dump_eq] at hins
  have hbrings : BringsRequests server.session.buffSize [req] [ins] := .cons hins.brings .nil
  obtain ⟨msgs, hpieces, hrequests, hall⟩ :=
    messages_of_sendable hserver (by simpa using hsend) hbrings
  obtain ⟨hrsps, -⟩ := HttpServer.handleClient_brings hin hall
  rw [hpieces, hrequests, List.flatten_singleton] at hrsps
  rw [hrsps]
  cases hcloses : server.closes req.sent <;> simp [HttpServer.answered, hcloses]

/-- **A request that is served.**  `DoRequest` of a URL whose address leads to an `HttpServer`
returns what the servlet of the path makes of the request. -/
theorem doRequest_served {server : HttpServer} {addr : List UInt8} {ins outs : List (List UInt8)}
    (hserver : server.session.ReadsDecimals) (hclient : client.ReadsDecimals)
    (hin : server.session.buffSize < 2 ^ 31) (hout : client.buffSize < 2 ^ 31)
    (hurl : Uri.create s = some (some u)) (hscheme : u.scheme ≠ [])
    (hmethod : method ≠ .invalidMethod) (hsearch : method ≠ .msearch)
    (hpath : [47, 47] <+: u.getPath → takesPath server.session.uriRelaxed u.getPath = true)
    (hheaders : Fillable headers) (hhost : givesHost headers = false → 2 ∉ u.host)
    (hbody : body.length < 2 ^ 31) (haddr : net.createAddress u = some addr)
    (htcp : net.createTCP addr = true) (hconnect : net.connect addr = true)
    (hleads : net.LeadsTo server client (directRequest method u headers body) ins outs)
    (hservlet : WritableResponse (server.respond (directRequest method u headers body).sent))
    (timeoutMs : Nat) :
    net.doRequest client method s timeoutMs headers body = some
      ⟨.ok, some (server.respond (directRequest method u headers body).sent).received,
        bytes "ok"⟩ := by
  obtain ⟨hsent, hrequest, hresponse, hreply⟩ := hleads
  have hsend : Sendable server.session (directRequest method u headers body) :=
    sendable_directRequest (Uri.words_of_create hurl hscheme) hmethod hsearch hpath hheaders hhost
      hbody (directRequest method u headers body).close
  rw [handleClient_request hserver hin hsend hrequest, List.flatMap_singleton,
    HttpResponse.dump_eq] at hresponse
  have hrecv := Connection.recvResponse_dump hclient hout hservlet hresponse.brings []
  rw [List.append_nil, ← hreply] at hrecv
  rw [doRequest, hurl, Option.bind_some]
  simp only [exchange, haddr, htcp, hconnect, hrecv, if_neg hsent.ne', if_neg hsent.not_gt,
    Bool.not_true, Bool.false_eq_true, if_false]

/-- A network with one server, which gets the data at once and whose responses come at once. -/
def sampleNetwork : Network where
  createAddress := fun _ => some (bytes "[::1]:8080")
  createTCP := fun _ => true
  connect := fun _ => true
  writeFixSize := fun data => data.length
  errno := bytes "0"
  strerror := bytes "Success"
  reply := fun data => .ofPieces
    [(sampleServer.handleClient (.ofPieces [data])).1.flatMap fun rsp => rsp.dump false []]

/-- The servlet of the path says which method it was called with. -/
theorem doRequest_served_put : ∃ rsp,
    sampleNetwork.doRequest dumpConnection .put
      (bytes "http://user@[::1]:8080/a%20b//c?q=1#top") 1000 sampleHeaders (bytes "hi") =
        some ⟨.ok, some rsp, bytes "ok"⟩ ∧ rsp.status = 200 ∧ rsp.body = bytes "PUT" := by
  have hserver : sampleServer.session.ReadsDecimals := dumpSession_readsDecimals
  have hclient : dumpConnection.ReadsDecimals := dumpSession_readsDecimals
  let req := directRequest .put sampleUri sampleHeaders (bytes "hi")
  have hsend : Sendable sampleServer.session req :=
    ⟨by decide +kernel, by decide, by decide, by decide⟩
  have hrequest : Cut sampleServer.session.buffSize req.dumpHead.length (req.dump false)
      [req.dump false] :=
    ⟨List.append_nil _, by decide +kernel, _, rfl, by decide +kernel, by decide +kernel,
      by decide +kernel⟩
  have hone := handleClient_request hserver (by decide) hsend hrequest
  have hleads : sampleNetwork.LeadsTo sampleServer dumpConnection req [req.dump false]
      [(sampleServer.respond req.sent).dump false []] := by
    refine ⟨by decide +kernel, hrequest, ?_, ?_⟩
    · rw [hone, List.flatMap_singleton]
      exact ⟨List.append_nil _, by decide +kernel, _, rfl, by decide +kernel, by decide +kernel,
        by decide +kernel⟩
    · show SocketStream.ofPieces [(sampleServer.handleClient _).1.flatMap _] = _
      rw [hone, List.flatMap_singleton]
  exact ⟨_, doRequest_served hserver hclient (by decide) (by decide) create_sampleUri (by decide)
    (by decide) (by decide) (by decide) (by decide) (by decide) (by decide) rfl rfl rfl hleads
    (by decide +kernel) 1000, by decide +kernel, by decide +kernel⟩

end Network

end Http

end Mingo
