import Mingo.Http.Message
import Mingo.Http.RequestTable

/-!
# Writing a request

`HttpRequest::dump` of http.cpp writes a request line, the header fields and the
body.  It checks nothing: `Writable` lists what a caller has to see to so that
what it writes can be a request at all, in the character classes of the grammar.

* `dump_eq` -- without the websocket flag it writes a line for each of
  `sentFields`, a blank line and the body.
-/

namespace Mingo.Http

open Scanner (inClass xdigit)

/-- `HttpMethodToString`: the numbers of the methods are their places in
`HTTP_METHOD_MAP`. -/
def httpMethodToString (m : HttpMethod) : String :=
  match httpMethodMap.find? fun e => e.1 = m with
  | some e => e.2
  | none => "<unknown>"

/-- The end of a line. -/
def crlf : List UInt8 := bytes "\r\n"

/-- `os << n` for an unsigned number. -/
def decimal (n : Nat) : List UInt8 := (Nat.toDigits 10 n).map fun c => UInt8.ofNat c.toNat

/-- The line of a header field. -/
def dumpField (f : List UInt8 × List UInt8) : List UInt8 := f.1 ++ bytes ": " ++ f.2 ++ crlf

namespace HttpRequest

/-- What `dump` writes behind `connection: `. -/
def connectionValue (req : HttpRequest) : List UInt8 :=
  if req.close then bytes "close" else bytes "keep-alive"

/-- The request line. -/
def dumpLine (req : HttpRequest) : List UInt8 :=
  bytes (httpMethodToString req.method) ++ bytes " " ++ req.path ++
    (if req.query = [] then [] else bytes "?") ++ req.query ++
    (if req.fragment = [] then [] else bytes "#") ++ req.fragment ++
    bytes " HTTP/" ++ decimal (req.version >>> 4) ++ bytes "." ++
    decimal (req.version &&& 0x0F) ++ crlf

/-- `HttpRequest::dump`; `websocket` is the member `m_websocket`. -/
def dump (req : HttpRequest) (websocket : Bool) : List UInt8 :=
  req.dumpLine ++
    (if websocket then [] else dumpField (bytes "connection", req.connectionValue)) ++
    (req.headers.filter fun f =>
      websocket || caseFold f.1 ≠ caseFold (bytes "connection")).flatMap dumpField ++
    (if req.body = [] then crlf
      else dumpField (bytes "content-length", decimal req.body.length) ++ crlf ++ req.body)

end HttpRequest

/-! ### What can be written -/

/-- The bytes of a token.  The class of the grammar lets control characters pass. -/
def tchar : List (Nat × Nat) :=
  [(33, 33), (35, 39), (42, 43), (45, 46), (48, 57), (65, 90), (94, 122), (124, 124), (126, 126)]

/-- The bytes that are no control characters. -/
def textChar : List (Nat × Nat) := [(32, 126), (128, 255)]

/-- Text of the URI grammar: bytes of the class, and `%` in front of two
hexadecimal digits. -/
def uriText (class_ : List (Nat × Nat)) : List UInt8 → Bool
  | [] => true
  | 37 :: a :: b :: bs => inClass xdigit a && inClass xdigit b && uriText class_ bs
  | b :: bs => inClass class_ b && uriText class_ bs

/-- The name and the value of a header field: a token, and no control character
or leading blank. -/
structure GoodField (f : List UInt8 × List UInt8) : Prop where
  named : f.1 ≠ []
  name : f.1.all (inClass tchar) = true
  value : f.2.all (inClass textChar) = true
  noBlank : f.2.head? ≠ some 32

/-- A request that can be written: a method of the table, a version the parser
knows, a path, a query and a fragment of the characters that the URI grammar has
for them, and header fields other than those that `dump` adds.  The header map is
in order and the body no longer than a string can be. -/
structure Writable (req : HttpRequest) : Prop where
  method : req.method ≠ .invalidMethod
  version : req.version = 0x10 ∨ req.version = 0x11
  slash : req.path.head? = some 47
  path : uriText RequestTable.pathChar req.path = true
  query : uriText RequestTable.queryChar req.query = true
  fragment : uriText RequestTable.queryChar req.fragment = true
  headers : OrderedMap.Sorted caseFold req.headers
  fields : ∀ f ∈ req.headers, GoodField f
  added : ∀ f ∈ req.headers, caseFold f.1 ≠ caseFold (bytes "connection") ∧
    caseFold f.1 ≠ caseFold (bytes "content-length")
  body : req.body.length < 2 ^ 63

instance (f : List UInt8 × List UInt8) : Decidable (GoodField f) :=
  decidable_of_iff (f.1 ≠ [] ∧ f.1.all (inClass tchar) = true ∧
      f.2.all (inClass textChar) = true ∧ f.2.head? ≠ some 32)
    ⟨fun ⟨h₁, h₂, h₃, h₄⟩ => ⟨h₁, h₂, h₃, h₄⟩, fun ⟨h₁, h₂, h₃, h₄⟩ => ⟨h₁, h₂, h₃, h₄⟩⟩

instance (req : HttpRequest) : Decidable (Writable req) :=
  decidable_of_iff (req.method ≠ .invalidMethod ∧ (req.version = 0x10 ∨ req.version = 0x11) ∧
      req.path.head? = some 47 ∧ uriText RequestTable.pathChar req.path = true ∧
      uriText RequestTable.queryChar req.query = true ∧
      uriText RequestTable.queryChar req.fragment = true ∧
      OrderedMap.Sorted caseFold req.headers ∧
      (∀ f ∈ req.headers, GoodField f) ∧
      (∀ f ∈ req.headers, caseFold f.1 ≠ caseFold (bytes "connection") ∧
        caseFold f.1 ≠ caseFold (bytes "content-length")) ∧ req.body.length < 2 ^ 63)
    ⟨fun ⟨h₁, h₂, h₃, h₄, h₅, h₆, h₇, h₈, h₉, h₁₀⟩ => ⟨h₁, h₂, h₃, h₄, h₅, h₆, h₇, h₈, h₉, h₁₀⟩,
      fun ⟨h₁, h₂, h₃, h₄, h₅, h₆, h₇, h₈, h₉, h₁₀⟩ => ⟨h₁, h₂, h₃, h₄, h₅, h₆, h₇, h₈, h₉, h₁₀⟩⟩

/-! ### What is written -/

theorem toNat_of_mem_toDigits {n : Nat} {d : Char} (h : d ∈ Nat.toDigits 10 n) :
    48 ≤ d.toNat ∧ d.toNat ≤ 57 := by
  have hdigit := Nat.isDigit_of_mem_toDigits (by decide) (by decide) h
  simpa [Char.isDigit, UInt32.le_iff_toNat_le] using hdigit

theorem decimal_digits {n : Nat} {b : UInt8} (h : b ∈ decimal n) :
    48 ≤ b.toNat ∧ b.toNat ≤ 57 := by
  obtain ⟨d, hd, rfl⟩ := List.mem_map.mp h
  have hrange := toNat_of_mem_toDigits hd
  rw [UInt8.toNat_ofNat']
  omega

/-- The digits as characters again. -/
theorem chars_decimal (n : Nat) :
    (decimal n).map (fun b => Char.ofNat b.toNat) = Nat.toDigits 10 n := by
  rw [decimal, List.map_map]
  refine (List.map_congr_left fun d hd => ?_).trans (List.map_id _)
  have hrange := toNat_of_mem_toDigits hd
  have hbyte : (UInt8.ofNat d.toNat).toNat = d.toNat := by
    rw [UInt8.toNat_ofNat']
    omega
  exact (congrArg Char.ofNat hbyte).trans d.ofNat_toNat

/-- Two numbers are not written the same. -/
theorem decimal_injective {m n : Nat} (h : decimal m = decimal n) : m = n := by
  rw [← Nat.ofDigitChars_ten_toDigits (n := m), ← chars_decimal, h, chars_decimal,
    Nat.ofDigitChars_ten_toDigits]

/-- The decimal digits are text without blanks. -/
theorem goodField_decimal (n : Nat) : GoodField (bytes "content-length", decimal n) := by
  have hname : bytes "content-length" ≠ [] ∧
      (bytes "content-length").all (inClass tchar) = true := by decide
  refine ⟨hname.1, hname.2, ?_, ?_⟩
  · rw [List.all_eq_true]
    intro b hb
    have := decimal_digits hb
    simp only [inClass, textChar, List.any_cons, List.any_nil, Bool.or_false, Bool.or_eq_true,
      Bool.and_eq_true, decide_eq_true_eq]
    omega
  · intro hhead
    have := decimal_digits (List.mem_of_mem_head? hhead)
    simp at this

namespace HttpRequest

/-- The header fields `dump` writes, in this order. -/
def sentFields (req : HttpRequest) : List (List UInt8 × List UInt8) :=
  (bytes "connection", req.connectionValue) :: req.headers ++
    if req.body = [] then [] else [(bytes "content-length", decimal req.body.length)]

/-- The header block `dump` writes. -/
def dumpHead (req : HttpRequest) : List UInt8 :=
  req.dumpLine ++ req.sentFields.flatMap dumpField ++ crlf

/-- The header map with the fields `dump` adds. -/
def sentHeaders (req : HttpRequest) : MapType :=
  if req.body = [] then req.headers.assign (bytes "connection") req.connectionValue
  else (req.headers.assign (bytes "connection") req.connectionValue).assign
    (bytes "content-length") (decimal req.body.length)

end HttpRequest

variable {req : HttpRequest}

theorem connectionValue_good (req : HttpRequest) :
    GoodField (bytes "connection", req.connectionValue) := by
  rw [HttpRequest.connectionValue]
  split
  · decide
  · decide

theorem Writable.sentFields_good (h : Writable req) : ∀ f ∈ req.sentFields, GoodField f := by
  intro f hf
  rw [HttpRequest.sentFields, List.mem_append, List.mem_cons] at hf
  rcases hf with (rfl | hf) | hf
  · exact connectionValue_good req
  · exact h.fields f hf
  · split at hf
    · cases hf
    · rw [List.mem_singleton] at hf
      rw [hf]
      exact goodField_decimal _

/-- **What `dump` writes**: the header block and the body. -/
theorem Writable.dump_eq (h : Writable req) : req.dump false = req.dumpHead ++ req.body := by
  have hall : (req.headers.filter fun f =>
      false || decide (caseFold f.1 ≠ caseFold (bytes "connection"))) = req.headers := by
    refine List.filter_eq_self.mpr fun f hf => ?_
    simpa using (h.added f hf).1
  rw [HttpRequest.dump, hall, HttpRequest.dumpHead, HttpRequest.sentFields]
  by_cases hbody : req.body = []
  · simp [hbody]
  · simp [hbody]

/-- The header fields, entered one after the other, make the header map. -/
theorem Writable.sentFields_foldl (h : Writable req) :
    req.sentFields.foldl (fun m f => MapType.assign m f.1 f.2) [] = req.sentHeaders := by
  have hmap : req.headers.foldl (fun m f => MapType.assign m f.1 f.2)
      [(bytes "connection", req.connectionValue)] =
        req.headers.assign (bytes "connection") req.connectionValue :=
    h.headers.foldl_assign (fun f hf => (h.added f hf).1) _
  have hfirst : MapType.assign [] (bytes "connection") req.connectionValue =
      [(bytes "connection", req.connectionValue)] := rfl
  rw [HttpRequest.sentFields, HttpRequest.sentHeaders, List.foldl_append, List.foldl_cons, hfirst,
    hmap]
  split <;> rfl

end Mingo.Http
