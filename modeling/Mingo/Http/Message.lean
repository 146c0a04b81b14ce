import Mingo.Lib.OrderedMap
import Mingo.Stream.Basic

/-!
# The messages of http.h

`HttpRequest` and `HttpResponse` as http.cpp fills them: the method table, the
header map with its case-insensitive comparator and the conversions the two
parsers apply to a token.  A string is its list of bytes.

The header map keeps its entries in the order of `CaseInsensitiveLess`, so two
maps are equal exactly when their lists are.  `boost::lexical_cast` is a
parameter of `getContentLength`.
-/

namespace Mingo.Http

/-- The bytes of an ASCII literal. -/
def bytes (s : String) : List UInt8 := s.toList.map fun c => UInt8.ofNat c.toNat

/-- The methods of `HTTP_METHOD_MAP`. -/
inductive HttpMethod
  | delete | get | head | post | put
  | connect | options | trace
  | copy | lock | mkcol | move | propfind | proppatch | search | unlock
  | bind | rebind | unbind | acl
  | report | mkactivity | checkout | merge
  | msearch | notify | subscribe | unsubscribe
  | patch | purge
  | mkcalendar
  | link | unlink
  | source
  | invalidMethod
  deriving DecidableEq, Repr

/-- `HTTP_METHOD_MAP`, in the order in which the names are tried. -/
def httpMethodMap : List (HttpMethod × String) :=
  [(.delete, "DELETE"), (.get, "GET"), (.head, "HEAD"), (.post, "POST"), (.put, "PUT"),
    (.connect, "CONNECT"), (.options, "OPTIONS"), (.trace, "TRACE"),
    (.copy, "COPY"), (.lock, "LOCK"), (.mkcol, "MKCOL"), (.move, "MOVE"),
    (.propfind, "PROPFIND"), (.proppatch, "PROPPATCH"), (.search, "SEARCH"),
    (.unlock, "UNLOCK"), (.bind, "BIND"), (.rebind, "REBIND"), (.unbind, "UNBIND"),
    (.acl, "ACL"), (.report, "REPORT"), (.mkactivity, "MKACTIVITY"),
    (.checkout, "CHECKOUT"), (.merge, "MERGE"), (.msearch, "M-SEARCH"),
    (.notify, "NOTIFY"), (.subscribe, "SUBSCRIBE"), (.unsubscribe, "UNSUBSCRIBE"),
    (.patch, "PATCH"), (.purge, "PURGE"), (.mkcalendar, "MKCALENDAR"),
    (.link, "LINK"), (.unlink, "UNLINK"), (.source, "SOURCE")]

/-- `CharsToHttpMethod`: the first name of the table that begins the text. -/
def charsToHttpMethod (m : List UInt8) : HttpMethod :=
  match httpMethodMap.find? fun e => (bytes e.2).isPrefixOf m with
  | some e => e.1
  | none => .invalidMethod

/-- No name of the table has a space, so what follows the first space of a text
does not matter. -/
theorem charsToHttpMethod_append_space (m rest : List UInt8) :
    charsToHttpMethod (m ++ 32 :: rest) = charsToHttpMethod m := by
  have hspace : ∀ e ∈ httpMethodMap, (32 : UInt8) ∉ bytes e.2 := by decide
  have hsame : ∀ e ∈ httpMethodMap,
      (bytes e.2).isPrefixOf (m ++ 32 :: rest) = (bytes e.2).isPrefixOf m := by
    intro e he
    rw [Bool.eq_iff_iff, List.isPrefixOf_iff_prefix, List.isPrefixOf_iff_prefix]
    constructor
    · intro h
      by_cases hlen : (bytes e.2).length ≤ m.length
      · exact List.prefix_of_prefix_length_le h (List.prefix_append m _) hlen
      · have hm : m ++ [32] <+: bytes e.2 := by
          refine List.prefix_of_prefix_length_le ?_ h (by simp; omega)
          exact ⟨rest, by simp⟩
        exact absurd (hm.subset (by simp)) (hspace e he)
    · intro h
      exact h.trans (List.prefix_append m _)
  have hfind : ∀ l : List (HttpMethod × String), (∀ e ∈ l, e ∈ httpMethodMap) →
      (l.find? fun e => (bytes e.2).isPrefixOf (m ++ 32 :: rest)) =
        l.find? fun e => (bytes e.2).isPrefixOf m := by
    intro l hl
    induction l with
    | nil => rfl
    | cons e l ih =>
        rw [List.find?_cons, List.find?_cons, hsame e (hl e (by simp)),
          ih fun e' he' => hl e' (by simp [he'])]
  rw [charsToHttpMethod, charsToHttpMethod, hfind httpMethodMap fun e he => he]

/-- `std::string(buffer + start, p - start)`; a negative length throws. -/
def token (buf : List UInt8) (start p : Nat) : Option (List UInt8) :=
  if start ≤ p then some ((buf.drop start).take (p - start)) else none

/-- `strncmp(at, s, length) == 0` for the `length` bytes found at `at` and a
literal `s`, which ends with its NUL. -/
def strncmpEq : List UInt8 → List UInt8 → Bool
  | [], _ => true
  | a :: _, [] => a == 0
  | a :: as, c :: cs => a == c && strncmpEq as cs

/-- The version the callbacks of both parsers read from the bytes of the token;
`none` where they call `setError(1001)`. -/
def versionOf (token : List UInt8) : Option Nat :=
  if strncmpEq token (bytes "HTTP/1.1") then some 0x11
  else if strncmpEq token (bytes "HTTP/1.0") then some 0x10
  else none

/-- `tolower` of the C locale. -/
def tolower (b : UInt8) : UInt8 := if 65 ≤ b ∧ b ≤ 90 then b + 32 else b

/-- What `strcasecmp`, and with it `CaseInsensitiveLess`, compares of a string: its
bytes up to the NUL, in lower case. -/
def caseFold (s : List UInt8) : List Nat :=
  (s.takeWhile (· ≠ 0)).map fun b => (tolower b).toNat

/-- `std::map<std::string, std::string, CaseInsensitiveLess>`. -/
abbrev MapType := List (List UInt8 × List UInt8)

/-- `m[key] = val`. -/
def MapType.assign (m : MapType) (key val : List UInt8) : MapType :=
  OrderedMap.assign caseFold m key val

/-- `m.find(key)`, as the value found. -/
def MapType.lookup (m : MapType) (key : List UInt8) : Option (List UInt8) :=
  (OrderedMap.entry caseFold m key).map Prod.snd

/-- The members of `HttpRequest` that receiving a request sets. -/
structure HttpRequest where
  method : HttpMethod
  version : Nat
  close : Bool
  path : List UInt8
  query : List UInt8
  fragment : List UInt8
  body : List UInt8
  headers : MapType
  deriving DecidableEq, Repr

/-- The members of `HttpResponse` that receiving a response sets. -/
structure HttpResponse where
  status : Int
  version : Nat
  close : Bool
  body : List UInt8
  reason : List UInt8
  headers : MapType
  deriving DecidableEq, Repr

/-- The constructor with its default arguments. -/
def HttpRequest.new : HttpRequest where
  method := .get
  version := 0x11
  close := true
  path := bytes "/"
  query := []
  fragment := []
  body := []
  headers := []

/-- The constructor with its default arguments. -/
def HttpResponse.new : HttpResponse where
  status := 200
  version := 0x11
  close := true
  body := []
  reason := []
  headers := []

namespace HttpRequest

def setHeader (req : HttpRequest) (key val : List UInt8) : HttpRequest :=
  { req with headers := req.headers.assign key val }

def setBody (req : HttpRequest) (v : List UInt8) : HttpRequest := { req with body := v }

/-- `getHeader(key, def)`. -/
def getHeader (req : HttpRequest) (key : List UInt8) (dflt : List UInt8) : List UInt8 :=
  (req.headers.lookup key).getD dflt

/-- `HttpRequest::init`. -/
def init (req : HttpRequest) : HttpRequest :=
  let conn := req.getHeader (bytes "connection") []
  if conn = [] then req
  else { req with close := caseFold conn ≠ caseFold (bytes "keep-alive") }

/-- `init` sets the connection flag and nothing else. -/
theorem init_eq (req : HttpRequest) : ∃ v, req.init = { req with close := v } := by
  by_cases hconn : req.getHeader (bytes "connection") [] = []
  · exact ⟨req.close, if_pos hconn⟩
  · exact ⟨_, if_neg hconn⟩

end HttpRequest

namespace HttpResponse

def setHeader (rsp : HttpResponse) (key val : List UInt8) : HttpResponse :=
  { rsp with headers := rsp.headers.assign key val }

def setBody (rsp : HttpResponse) (v : List UInt8) : HttpResponse := { rsp with body := v }

end HttpResponse

/-- `getHeaderAs<uint64_t>("content-length", 0)`, the `getContentLength` of both
parsers. -/
def contentLength (lexicalCast : List UInt8 → Option UInt64) (headers : MapType) : Nat :=
  match headers.lookup (bytes "content-length") with
  | none => 0
  | some v => ((lexicalCast v).getD 0).toNat

end Mingo.Http
