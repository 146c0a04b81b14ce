import Mingo.Grammar.UriTable
import Mingo.Http.Dump
import Mingo.Http.ResponseParser

/-!
# The URIs of uri.cpp

`Uri::Create` drives the automaton of uri.rl over the text.  All actions share one pointer
`mark`: they set it, cut a part of the text between it and the current byte, or take the
decimal number behind it for the port.  A null `mark` makes `std::string` throw, and `create`
is `none` then; a text that is not accepted gives `some none`, the null pointer.
-/

namespace Mingo

open Http (atoi bytes decimal)

/-- The members of `Uri`. -/
structure Uri where
  scheme : List UInt8
  userinfo : List UInt8
  host : List UInt8
  path : List UInt8
  query : List UInt8
  fragment : List UInt8
  port : Int
  deriving DecidableEq, Repr

namespace Uri

/-- The constructor. -/
def new : Uri := ⟨[], [], [], [], [], [], 0⟩

/-- The object under construction and `mark`, `none` when it is null. -/
structure Parsing where
  uri : Uri
  mark : Option Nat
  deriving DecidableEq, Repr

namespace Parsing

/-- `std::string(mark, fpc - mark)` goes into the object, and `mark` becomes null. -/
def save (buf : List UInt8) (p : Nat) (s : Parsing) (set : List UInt8 → Uri) : Option Parsing :=
  s.mark.bind fun mark => (Http.token buf mark p).map fun v => ⟨set v, none⟩

/-- The actions of uri.rl at position `p` of the text. -/
def act (buf : List UInt8) (p : Nat) (a : UriAction) (s : Parsing) : Option Parsing :=
  match a with
  | .markU => some { s with mark := some p }
  | .markH => some { s with mark := some p }
  | .saveScheme => s.save buf p fun v => { s.uri with scheme := v }
  | .savePort =>
      match s.mark with
      | none => none
      | some mark =>
          if p = mark then some { s with mark := none }
          else some ⟨{ s.uri with port := atoi (buf.drop mark) }, none⟩
  | .saveUserinfo =>
      match s.mark with
      | none => some s
      | some _ => s.save buf p fun v => { s.uri with userinfo := v }
  | .saveHost =>
      s.mark.elim (some s) fun mark =>
        (Http.token buf mark p).map fun v => { s with uri := { s.uri with host := v } }
  | .savePath => s.save buf p fun v => { s.uri with path := v }
  | .saveQuery => s.save buf p fun v => { s.uri with query := v }
  | .saveFragment => s.save buf p fun v => { s.uri with fragment := v }

end Parsing

/-- `Uri::Create`. -/
def create (uristr : List UInt8) : Option (Option Uri) :=
  (scanner.exec (Parsing.act uristr) 451 0 ⟨new, none⟩ uristr).bind fun r =>
    (Scanner.perform (Parsing.act uristr) ((UriTable.eofActions r.1).map (r.2.1, ·)) r.2.2).map
      fun s => if isFinal r.1 then some s.uri else none

/-- `isDefaultPort`. -/
def isDefaultPort (uri : Uri) : Bool :=
  if uri.port = 0 then true
  else if uri.scheme = bytes "http" ∨ uri.scheme = bytes "ws" then uri.port == 80
  else if uri.scheme = bytes "https" ∨ uri.scheme = bytes "wss" then uri.port == 443
  else false

/-- `getPath`. -/
def getPath (uri : Uri) : List UInt8 := if uri.path = [] then bytes "/" else uri.path

/-- `getPort`. -/
def getPort (uri : Uri) : Int :=
  if uri.port ≠ 0 then uri.port
  else if uri.scheme = bytes "http" ∨ uri.scheme = bytes "ws" then 80
  else if uri.scheme = bytes "https" ∨ uri.scheme = bytes "wss" then 443
  else uri.port

/-- `std::to_string` of an `int32_t`. -/
def decimalInt (v : Int) : List UInt8 :=
  if v < 0 then 45 :: decimal v.natAbs else decimal v.natAbs

/-- `dump`. -/
def dump (uri : Uri) : List UInt8 :=
  uri.scheme ++ bytes "://" ++
  uri.userinfo ++ (if uri.userinfo = [] then [] else bytes "@") ++
  uri.host ++ (if uri.isDefaultPort then [] else bytes ":" ++ decimalInt uri.port) ++
  uri.getPath ++
  (if uri.query = [] then [] else bytes "?") ++ uri.query ++
  (if uri.fragment = [] then [] else bytes "#") ++ uri.fragment

/-- `toString`. -/
def toString (uri : Uri) : List UInt8 := uri.dump

end Uri

end Mingo
