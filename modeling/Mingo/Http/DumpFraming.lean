import Mingo.Http.Dump
import Mingo.Lib.Lines

/-!
# The framing of a message that is written

`dump` writes `content-length` and `connection` by itself, apart from the header map, and
writes every string as it is.  Whoever reads the text finds the lines of the header block in
front of the first empty line, and takes as many bytes for the body as they say.

* `HttpRequest.dump_parts`, `HttpResponse.dump_parts` -- the lines that are written, and the
  strings that a caller brings;
* `unambiguous_iff` -- the framing is that of the message exactly when no line of the caller
  is empty or has one of the two names.
-/

namespace Mingo.Http

/-! ### Writing a response -/

/-- `HTTP_STATUS_MAP`. -/
def httpStatusMap : List (Int × String) :=
  [(100, "Continue"), (101, "Switching Protocols"), (102, "Processing"), (200, "OK"),
    (201, "Created"), (202, "Accepted"), (203, "Non-Authoritative Information"),
    (204, "No Content"), (205, "Reset Content"), (206, "Partial Content"), (207, "Multi-Status"),
    (208, "Already Reported"), (226, "IM Used"), (300, "Multiple Choices"),
    (301, "Moved Permanently"), (302, "Found"), (303, "See Other"), (304, "Not Modified"),
    (305, "Use Proxy"), (307, "Temporary Redirect"), (308, "Permanent Redirect"),
    (400, "Bad Request"), (401, "Unauthorized"), (402, "Payment Required"), (403, "Forbidden"),
    (404, "Not Found"), (405, "Method Not Allowed"), (406, "Not Acceptable"),
    (407, "Proxy Authentication Required"), (408, "Request Timeout"), (409, "Conflict"),
    (410, "Gone"), (411, "Length Required"), (412, "Precondition Failed"),
    (413, "Payload Too Large"), (414, "URI Too Long"), (415, "Unsupported Media Type"),
    (416, "Range Not Satisfiable"), (417, "Expectation Failed"), (421, "Misdirected Request"),
    (422, "Unprocessable Entity"), (423, "Locked"), (424, "Failed Dependency"),
    (426, "Upgrade Required"), (428, "Precondition Required"), (429, "Too Many Requests"),
    (431, "Request Header Fields Too Large"), (451, "Unavailable For Legal Reasons"),
    (500, "Internal Server Error"), (501, "Not Implemented"), (502, "Bad Gateway"),
    (503, "Service Unavailable"), (504, "Gateway Timeout"), (505, "HTTP Version Not Supported"),
    (506, "Variant Also Negotiates"), (507, "Insufficient Storage"), (508, "Loop Detected"),
    (510, "Not Extended"), (511, "Network Authentication Required")]

/-- `HttpStatusToString`. -/
def httpStatusToString (s : Int) : String := (httpStatusMap.lookup s).getD "<unknown>"

namespace HttpResponse

/-- What `dump` writes behind `connection: `. -/
def connectionValue (rsp : HttpResponse) : List UInt8 :=
  if rsp.close then bytes "close" else bytes "keep-alive"

/-- The status line, without its end. -/
def startLine (rsp : HttpResponse) : List UInt8 :=
  bytes "HTTP/" ++ decimal (rsp.version >>> 4) ++ bytes "." ++ decimal (rsp.version &&& 0x0F) ++
    bytes " " ++ decimal (rsp.status % 2 ^ 32).toNat ++ bytes " " ++
    (if rsp.reason = [] then bytes (httpStatusToString rsp.status) else rsp.reason)

/-- `HttpResponse::dump`; `websocket` and `cookies` are the members `m_websocket` and
`m_cookies`. -/
def dump (rsp : HttpResponse) (websocket : Bool) (cookies : List (List UInt8)) : List UInt8 :=
  rsp.startLine ++ crlf ++
    (rsp.headers.filter fun f =>
      websocket || caseFold f.1 ≠ caseFold (bytes "connection")).flatMap dumpField ++
    cookies.flatMap (fun c => bytes "Set-Cookie: " ++ c ++ crlf) ++
    (if websocket then [] else dumpField (bytes "connection", rsp.connectionValue)) ++
    (if rsp.body = [] then crlf
      else dumpField (bytes "content-length", decimal rsp.body.length) ++ crlf ++ rsp.body)

end HttpResponse

/-! ### Reading the lines -/

/-- The lines of a text. -/
def crlfLines : List UInt8 → List (List UInt8) := Lines.split 13 10

/-- The name of a header field. -/
def fieldName (l : List UInt8) : List UInt8 := l.takeWhile (· ≠ 58)

/-- The value of a header field, behind the colon and blanks. -/
def fieldValue (l : List UInt8) : List UInt8 :=
  ((l.dropWhile (· ≠ 58)).drop 1).dropWhile (· = 32)

/-- The line is a field with this name, whatever its case. -/
def Named (name l : List UInt8) : Prop := (fieldName l).map tolower = name

instance (name l : List UInt8) : Decidable (Named name l) :=
  inferInstanceAs (Decidable (_ = _))

/-- Exactly one line is a field with this name, and it has this value. -/
def OneField (name value : List UInt8) (fields : List (List UInt8)) : Prop :=
  ∃ l, fields.filter (Named name ·) = [l] ∧ fieldValue l = value

/-- The text is the header block of a message and its body: one field has the length of the
body, and unless it is for a websocket, one says what becomes of the connection. -/
def Unambiguous (text body connection : List UInt8) (websocket : Bool) : Prop :=
  ∃ first fields, Lines.Block 13 10 text (first :: fields) body ∧
    OneField (bytes "content-length") (decimal body.length) fields ∧
    (websocket = false → OneField (bytes "connection") connection fields)

/-- A line of the caller that does not meddle with the framing. -/
def Harmless (websocket : Bool) (l : List UInt8) : Prop :=
  l ≠ [] ∧ ¬ Named (bytes "content-length") l ∧
    (websocket = false → ¬ Named (bytes "connection") l)

instance (websocket : Bool) (l : List UInt8) : Decidable (Harmless websocket l) :=
  inferInstanceAs (Decidable (_ ∧ _ ∧ (_ → _)))

/-- The line of a header field, without its end. -/
def fieldLine (f : List UInt8 × List UInt8) : List UInt8 := f.1 ++ bytes ": " ++ f.2

/-- The header fields that are written from a map. -/
def keptFields (websocket : Bool) (headers : MapType) : MapType :=
  headers.filter fun f => websocket || caseFold f.1 ≠ caseFold (bytes "connection")

theorem oneField_iff {name value g : List UInt8} {fields others : List (List UInt8)}
    (hperm : fields.Perm (g :: others)) (hname : Named name g) (hvalue : fieldValue g = value) :
    OneField name value fields ↔ ∀ l ∈ others, ¬ Named name l := by
  have hfilter := hperm.filter (Named name ·)
  rw [List.filter_cons_of_pos (by simpa using hname)] at hfilter
  constructor
  · rintro ⟨l, hl, -⟩
    rw [hl] at hfilter
    have hnil : others.filter (Named name ·) = [] := by
      have hlen := hfilter.length_eq
      simp only [List.length_cons, List.length_nil] at hlen
      exact List.eq_nil_of_length_eq_zero (by omega)
    simpa [List.filter_eq_nil_iff] using hnil
  · intro h
    have hnil : others.filter (Named name ·) = [] := by
      simpa [List.filter_eq_nil_iff] using h
    rw [hnil, List.perm_singleton] at hfilter
    exact ⟨g, hfilter, hvalue⟩

/-! ### The lines that `dump` adds -/

/-- The lines with the length and the connection. -/
def addedLines (websocket : Bool) (connection : List UInt8) (n : Nat) : List (List UInt8) :=
  (if websocket then [] else [fieldLine (bytes "connection", connection)]) ++
    [fieldLine (bytes "content-length", decimal n)]

theorem named_length (v : List UInt8) :
    Named (bytes "content-length") (fieldLine (bytes "content-length", v)) := by
  have hname : fieldName (fieldLine (bytes "content-length", v)) = bytes "content-length" := rfl
  rw [Named, hname]
  decide

theorem not_named_length (v : List UInt8) :
    ¬ Named (bytes "connection") (fieldLine (bytes "content-length", v)) := by
  have hname : fieldName (fieldLine (bytes "content-length", v)) = bytes "content-length" := rfl
  rw [Named, hname]
  decide

theorem fieldValue_length (n : Nat) :
    fieldValue (fieldLine (bytes "content-length", decimal n)) = decimal n := by
  have hvalue : fieldValue (fieldLine (bytes "content-length", decimal n)) =
      (decimal n).dropWhile (· = 32) := rfl
  rw [hvalue]
  cases hd : decimal n with
  | nil => rfl
  | cons b bs =>
      have hdigit := decimal_digits (n := n) (b := b) (by rw [hd]; exact List.mem_cons_self)
      have hne : b ≠ 32 := by
        rintro rfl
        exact absurd hdigit.1 (by decide)
      rw [List.dropWhile_cons_of_neg (by simpa using hne)]

/-- The value of the connection field is one of two. -/
def IsConnection (connection : List UInt8) : Prop :=
  connection = bytes "close" ∨ connection = bytes "keep-alive"

variable {websocket : Bool} {connection : List UInt8} {n : Nat}

theorem IsConnection.field (h : IsConnection connection) :
    Named (bytes "connection") (fieldLine (bytes "connection", connection)) ∧
      ¬ Named (bytes "content-length") (fieldLine (bytes "connection", connection)) ∧
      fieldValue (fieldLine (bytes "connection", connection)) = connection ∧
      fieldLine (bytes "connection", connection) ≠ [] ∧
      crlfLines (fieldLine (bytes "connection", connection)) =
        [fieldLine (bytes "connection", connection)] := by
  rcases h with rfl | rfl
  · decide
  · decide

/-- They are lines as they are. -/
theorem addedLines_split (h : IsConnection connection) :
    ∀ l ∈ addedLines websocket connection n, l ≠ [] ∧ crlfLines l = [l] := by
  have hlength : fieldLine (bytes "content-length", decimal n) ≠ [] ∧
      crlfLines (fieldLine (bytes "content-length", decimal n)) =
        [fieldLine (bytes "content-length", decimal n)] := by
    refine ⟨by simp [fieldLine, bytes], Lines.split_of_not_mem ?_⟩
    have hname : (13 : UInt8) ∉ bytes "content-length" ++ bytes ": " := by decide
    rw [fieldLine, List.mem_append, not_or]
    refine ⟨hname, fun hmem => ?_⟩
    exact absurd (decimal_digits hmem).1 (by decide)
  intro l hl
  rw [addedLines, List.mem_append, List.mem_singleton] at hl
  rcases hl with hl | rfl
  · cases websocket with
    | true => cases hl
    | false =>
        rw [if_neg Bool.false_ne_true, List.mem_singleton] at hl
        rw [hl]
        exact h.field.2.2.2
  · exact hlength

/-- The fields of the text, in any order, have the right framing when the others are
harmless. -/
theorem fields_iff {fields others : List (List UInt8)} (h : IsConnection connection)
    (hperm : fields.Perm (addedLines websocket connection n ++ others)) :
    (OneField (bytes "content-length") (decimal n) fields ∧
        (websocket = false → OneField (bytes "connection") connection fields)) ↔
      ∀ l ∈ others, ¬ Named (bytes "content-length") l ∧
        (websocket = false → ¬ Named (bytes "connection") l) := by
  obtain ⟨hname, hother, hvalue, -, -⟩ := h.field
  cases websocket with
  | true =>
      rw [oneField_iff hperm (named_length _) (fieldValue_length n)]
      simp
  | false =>
      have hboth : fields.Perm (fieldLine (bytes "connection", connection) ::
          fieldLine (bytes "content-length", decimal n) :: others) := hperm
      have hswap := hboth.trans (List.Perm.swap _ _ _)
      rw [oneField_iff hswap (named_length _) (fieldValue_length n),
        oneField_iff hboth hname hvalue]
      simp only [List.forall_mem_cons, forall_true_left]
      constructor
      · rintro ⟨⟨-, hlen⟩, -, hconn⟩ l hl
        exact ⟨hlen l hl, hconn l hl⟩
      · intro hall
        exact ⟨⟨hother, fun l hl => (hall l hl).1⟩, not_named_length _, fun l hl => (hall l hl).2⟩

/-- **The text** of a start line, the added lines and those of the caller, in any order. -/
theorem text_iff {start body : List UInt8} {parts supplied : List (List UInt8)}
    (h : IsConnection connection) (hstart : start.head?.any (· ≠ 13) = true)
    (hperm : parts.Perm (addedLines websocket connection body.length ++ supplied)) :
    Unambiguous ((start :: parts).flatMap (· ++ crlf) ++ crlf ++ body) body connection websocket ↔
      ∀ l ∈ (crlfLines start).tail ++ supplied.flatMap crlfLines, Harmless websocket l := by
  obtain ⟨first, more, hsplit, hfirst⟩ :
      ∃ first more, crlfLines start = first :: more ∧ first ≠ [] := by
    cases start with
    | nil => cases hstart
    | cons b t =>
        cases hs : crlfLines (b :: t) with
        | nil => exact absurd hs (Lines.split_ne_nil _)
        | cons first more =>
            refine ⟨first, more, rfl, ?_⟩
            rcases Lines.head_split hs with ⟨-, rfl⟩ | ⟨t', rfl⟩
            · cases hstart
            · simp
  have hadded : (addedLines websocket connection body.length).flatMap crlfLines =
      addedLines websocket connection body.length :=
    (List.flatMap_congr fun l hl => (addedLines_split h l hl).2).trans (List.flatMap_singleton' _)
  have hfields : (more ++ parts.flatMap crlfLines).Perm
      (addedLines websocket connection body.length ++ (more ++ supplied.flatMap crlfLines)) := by
    have hlines := hperm.flatMap_right crlfLines
    rw [List.flatMap_append, hadded] at hlines
    refine (hlines.append_left more).trans ?_
    rw [← List.append_assoc, ← List.append_assoc]
    exact List.perm_append_comm.append_right _
  have hblock : ∀ lines, Lines.Block 13 10 ((start :: parts).flatMap (· ++ crlf) ++ crlf ++ body)
      lines body ↔ lines = first :: (more ++ parts.flatMap crlfLines) ∧ ∀ l ∈ lines, l ≠ [] := by
    intro lines
    have hparts : (start :: parts).flatMap (Lines.split 13 10) =
        first :: (more ++ parts.flatMap crlfLines) := by
      rw [List.flatMap_cons]
      exact congrArg (· ++ parts.flatMap crlfLines) hsplit
    rw [← hparts, List.append_assoc]
    exact Lines.block_iff (by decide) (start :: parts) lines body
  have hempty : (∀ l ∈ first :: (more ++ parts.flatMap crlfLines), l ≠ []) ↔
      ∀ l ∈ more ++ supplied.flatMap crlfLines, l ≠ [] := by
    rw [List.forall_mem_cons, and_iff_right hfirst]
    constructor
    · intro hall l hl
      exact hall l (hfields.mem_iff.mpr (List.mem_append_right _ hl))
    · intro hall l hl
      rcases List.mem_append.mp (hfields.mem_iff.mp hl) with hl | hl
      · exact (addedLines_split h l hl).1
      · exact hall l hl
  rw [hsplit, List.tail_cons]
  constructor
  · rintro ⟨first', fields, hb, hframing⟩
    obtain ⟨hlines, hne⟩ := (hblock _).mp hb
    rw [hlines] at hne
    rw [(List.cons.inj hlines).2, fields_iff h hfields] at hframing
    exact fun l hl => ⟨hempty.mp hne l hl, hframing l hl⟩
  · intro hall
    exact ⟨first, _, (hblock _).mpr ⟨rfl, hempty.mpr fun l hl => (hall l hl).1⟩,
      (fields_iff h hfields).mpr fun l hl => (hall l hl).2⟩

/-! ### Requests and responses -/

/-- The request line, without its end. -/
def HttpRequest.startLine (req : HttpRequest) : List UInt8 :=
  bytes (httpMethodToString req.method) ++ bytes " " ++ req.path ++
    (if req.query = [] then [] else bytes "?") ++ req.query ++
    (if req.fragment = [] then [] else bytes "#") ++ req.fragment ++
    bytes " HTTP/" ++ decimal (req.version >>> 4) ++ bytes "." ++ decimal (req.version &&& 0x0F)

/-- The lines that the strings of the caller bring into the header block of a request: those
behind the first of the request line, and those of the header map. -/
def HttpRequest.callerLines (req : HttpRequest) (websocket : Bool) : List (List UInt8) :=
  (crlfLines req.startLine).tail ++
    ((keptFields websocket req.headers).map fieldLine).flatMap crlfLines

/-- The same of a response, with the cookies. -/
def HttpResponse.callerLines (rsp : HttpResponse) (websocket : Bool)
    (cookies : List (List UInt8)) : List (List UInt8) :=
  (crlfLines rsp.startLine).tail ++
    ((keptFields websocket rsp.headers).map fieldLine ++
      cookies.map (bytes "Set-Cookie: " ++ ·)).flatMap crlfLines

theorem flatMap_dumpField (fs : List (List UInt8 × List UInt8)) :
    fs.flatMap dumpField = (fs.map fieldLine).flatMap (· ++ crlf) := by
  rw [List.flatMap_map]
  rfl

/-- **The lines of a request.** -/
theorem HttpRequest.dump_parts {req : HttpRequest} (websocket : Bool) (hbody : req.body ≠ []) :
    ∃ parts, req.dump websocket =
        (req.startLine :: parts).flatMap (· ++ crlf) ++ crlf ++ req.body ∧
      parts.Perm (addedLines websocket req.connectionValue req.body.length ++
        (keptFields websocket req.headers).map fieldLine) := by
  refine ⟨(if websocket then [] else [fieldLine (bytes "connection", req.connectionValue)]) ++
    (keptFields websocket req.headers).map fieldLine ++
      [fieldLine (bytes "content-length", decimal req.body.length)], ?_, ?_⟩
  · have hline : req.dumpLine = req.startLine ++ crlf := rfl
    have hlength : dumpField (bytes "content-length", decimal req.body.length) =
        fieldLine (bytes "content-length", decimal req.body.length) ++ crlf := rfl
    have hconnection : dumpField (bytes "connection", req.connectionValue) =
        fieldLine (bytes "connection", req.connectionValue) ++ crlf := rfl
    rw [dump, if_neg hbody, hline, flatMap_dumpField, hlength, hconnection]
    cases websocket with
    | true => simp [keptFields]
    | false => simp [keptFields]
  · rw [addedLines, List.append_assoc, List.append_assoc]
    exact List.perm_append_comm.append_left _

/-- **The lines of a response.** -/
theorem HttpResponse.dump_parts {rsp : HttpResponse} (websocket : Bool)
    (cookies : List (List UInt8)) (hbody : rsp.body ≠ []) :
    ∃ parts, rsp.dump websocket cookies =
        (rsp.startLine :: parts).flatMap (· ++ crlf) ++ crlf ++ rsp.body ∧
      parts.Perm (addedLines websocket rsp.connectionValue rsp.body.length ++
        ((keptFields websocket rsp.headers).map fieldLine ++
          cookies.map (bytes "Set-Cookie: " ++ ·))) := by
  refine ⟨(keptFields websocket rsp.headers).map fieldLine ++
    cookies.map (bytes "Set-Cookie: " ++ ·) ++
      addedLines websocket rsp.connectionValue rsp.body.length, ?_, List.perm_append_comm⟩
  have hlength : dumpField (bytes "content-length", decimal rsp.body.length) =
      fieldLine (bytes "content-length", decimal rsp.body.length) ++ crlf := rfl
  have hconnection : dumpField (bytes "connection", rsp.connectionValue) =
      fieldLine (bytes "connection", rsp.connectionValue) ++ crlf := rfl
  rw [dump, if_neg hbody, flatMap_dumpField, hlength, hconnection, addedLines]
  cases websocket with
  | true => simp [keptFields, List.flatMap_map]
  | false => simp [keptFields, List.flatMap_map]

theorem HttpRequest.isConnection (req : HttpRequest) : IsConnection req.connectionValue := by
  rw [connectionValue]
  split
  · exact .inl rfl
  · exact .inr rfl

theorem HttpResponse.isConnection (rsp : HttpResponse) : IsConnection rsp.connectionValue := by
  rw [connectionValue]
  split
  · exact .inl rfl
  · exact .inr rfl

/-- The request line begins with the name of the method. -/
theorem HttpRequest.startLine_head (req : HttpRequest) :
    req.startLine.head?.any (· ≠ 13) = true := by
  obtain ⟨b, t, hname, hb⟩ : ∃ b t, bytes (httpMethodToString req.method) = b :: t ∧ b ≠ 13 := by
    cases req.method with
    | _ => exact ⟨_, _, rfl, by decide⟩
  rw [startLine, hname]
  simpa using hb

theorem HttpResponse.startLine_head (rsp : HttpResponse) :
    rsp.startLine.head?.any (· ≠ 13) = true := rfl

/-- **The framing of what is written**, for every header map: it is that of the message exactly
when no line of the caller is empty or named like one of the added fields. -/
theorem unambiguous_iff (req : HttpRequest) (rsp : HttpResponse) (websocket websocket' : Bool)
    (cookies : List (List UInt8)) (hreq : req.body ≠ []) (hrsp : rsp.body ≠ []) :
    (Unambiguous (req.dump websocket) req.body req.connectionValue websocket ↔
        ∀ l ∈ req.callerLines websocket, Harmless websocket l) ∧
      (Unambiguous (rsp.dump websocket' cookies) rsp.body rsp.connectionValue websocket' ↔
        ∀ l ∈ rsp.callerLines websocket' cookies, Harmless websocket' l) := by
  obtain ⟨parts, htext, hperm⟩ := req.dump_parts websocket hreq
  obtain ⟨parts', htext', hperm'⟩ := rsp.dump_parts websocket' cookies hrsp
  rw [htext, htext']
  exact ⟨text_iff req.isConnection req.startLine_head hperm,
    text_iff rsp.isConnection rsp.startLine_head hperm'⟩

/-- A request and a response with a field that does no harm. -/
theorem unambiguous_host :
    Unambiguous (((HttpRequest.new.setHeader (bytes "Host") (bytes "a")).setBody
        (bytes "hi")).dump false) (bytes "hi") (bytes "close") false ∧
      Unambiguous (((HttpResponse.new.setHeader (bytes "Server") (bytes "b")).setBody
        (bytes "hi")).dump false []) (bytes "hi") (bytes "close") false := by
  have hframing := unambiguous_iff
    ((HttpRequest.new.setHeader (bytes "Host") (bytes "a")).setBody (bytes "hi"))
    ((HttpResponse.new.setHeader (bytes "Server") (bytes "b")).setBody (bytes "hi"))
    false false [] (by decide) (by decide)
  exact ⟨hframing.1.mpr (by decide), hframing.2.mpr (by decide)⟩

/-- A request whose header map has a length of its own. -/
def lengthRequest : HttpRequest :=
  (HttpRequest.new.setHeader (bytes "Content-Length") (bytes "5")).setBody (bytes "hi")

/-- **A text with two lengths.** -/
theorem not_unambiguous_length :
    lengthRequest.dump false =
        bytes "GET / HTTP/1.1\r\nconnection: close\r\nContent-Length: 5\r\n" ++
          bytes "content-length: 2\r\n\r\nhi" ∧
      ¬ Unambiguous (lengthRequest.dump false) lengthRequest.body lengthRequest.connectionValue
        false := by
  refine ⟨by decide, fun h => ?_⟩
  obtain ⟨parts, htext, hperm⟩ := lengthRequest.dump_parts false (by decide)
  rw [htext, text_iff lengthRequest.isConnection lengthRequest.startLine_head hperm] at h
  have hall : ∀ l ∈ lengthRequest.callerLines false, Harmless false l := h
  exact absurd hall (by decide)

end Mingo.Http
