import Mingo.Grammar.UriTable
import Mingo.Lib.Recognizer

/-!
# The grammar of uri.rl

`uriRl` has the productions of uri.rl, and `rfc3986` those of RFC 3986 with the bytes that
are not ASCII added to `pchar`, as uri.rl adds them.  The two differ in three productions:
uri.rl has the byte 2 in place of the digit in `dec_octet`, exactly so many groups in front
of a `::` where the RFC has up to so many, and the lower case letter only in `IPvFuture`.

* `accepts_iff` -- the generated table recognises `uriRl`.
-/

namespace Mingo.Uri

open Grammar (Derives Expr)
open Grammar.Expr (byte chars opt plus ref rep seq seqs star upTo alts)

/-- The productions that `URI_reference` uses. -/
inductive Production
  | subDelims
  | unreserved
  | pctEncoded
  | scheme
  | userinfo
  | decOctet
  | ipv4Address
  | h16
  | ls32
  | ipv6Address
  | ipvFuture
  | ipLiteral
  | regName
  | host
  | port
  | authority
  | pchar
  | segment
  | segmentNz
  | segmentNzNc
  | pathAbempty
  | pathAbsolute
  | pathNoscheme
  | pathRootless
  | pathEmpty
  | query
  | fragment
  | hierPart
  | relativePart
  | relativeRef
  | uri
  | uriReference
  deriving DecidableEq, Repr

/-- A right-hand side of uri.rl. -/
abbrev Rhs := Expr Production

def digit : Rhs := chars Scanner.digit

def xdigit : Rhs := chars Scanner.xdigit

/-- `any -- ascii` -/
def nonAscii : Rhs := chars [(128, 255)]

/-- `h16 ":"` -/
def group : Rhs := seq (ref .h16) (byte 58)

/-- `"::"` -/
def gap : Rhs := seq (byte 58) (byte 58)

/-- `"/" segment` -/
def slashSegment : Rhs := seq (byte 47) (ref .segment)

/-- `dec_octet`, with the byte at the start of the octets from 200 to 249. -/
def decOctet (two : Nat) : Rhs :=
  alts digit [seq (chars [(49, 57)]) digit, seq (byte 49) (rep 2 digit),
    seqs [byte two, chars [(48, 52)], digit], seqs [byte 50, byte 53, chars [(48, 53)]]]

/-- `IPv6address`, with the number of groups in front of the gap. -/
def ipv6Address (times : Nat → Rhs → Rhs) : Rhs :=
  alts (seq (rep 6 group) (ref .ls32))
    [seqs [gap, rep 5 group, ref .ls32],
      seqs [opt (ref .h16), gap, rep 4 group, ref .ls32],
      seqs [opt (seq (times 1 group) (ref .h16)), gap, rep 3 group, ref .ls32],
      seqs [opt (seq (times 2 group) (ref .h16)), gap, rep 2 group, ref .ls32],
      seqs [opt (seq (times 3 group) (ref .h16)), gap, rep 1 group, ref .ls32],
      seqs [opt (seq (times 4 group) (ref .h16)), gap, ref .ls32],
      seqs [opt (seq (times 5 group) (ref .h16)), gap, ref .h16],
      seqs [opt (seq (times 6 group) (ref .h16)), gap]]

/-- `IPvFuture`, with the letter it begins with. -/
def ipvFuture (letter : Rhs) : Rhs :=
  seqs [letter, plus xdigit, byte 46,
    plus (alts (ref .unreserved) [ref .subDelims, byte 58])]

/-- The productions of uri.rl. -/
def uriRl : Production → Rhs
  | .subDelims => chars [(33, 33), (36, 36), (38, 44), (59, 59), (61, 61)]
  | .unreserved => chars [(45, 46), (48, 57), (65, 90), (95, 95), (97, 122), (126, 126)]
  | .pctEncoded => seqs [byte 37, xdigit, xdigit]
  | .scheme =>
      seq (chars [(65, 90), (97, 122)])
        (star (chars [(43, 43), (45, 46), (48, 57), (65, 90), (97, 122)]))
  | .userinfo =>
      star (alts (ref .unreserved) [ref .pctEncoded, ref .subDelims, byte 58])
  | .decOctet => decOctet 2
  | .ipv4Address =>
      seqs [ref .decOctet, byte 46, ref .decOctet, byte 46, ref .decOctet, byte 46,
        ref .decOctet]
  | .h16 => seq xdigit (upTo 3 xdigit)
  | .ls32 => alts (seqs [ref .h16, byte 58, ref .h16]) [ref .ipv4Address]
  | .ipv6Address => ipv6Address rep
  | .ipvFuture => ipvFuture (byte 118)
  | .ipLiteral => seqs [byte 91, alts (ref .ipv6Address) [ref .ipvFuture], byte 93]
  | .regName => star (alts (ref .unreserved) [ref .pctEncoded, ref .subDelims])
  | .host => alts (ref .ipLiteral) [ref .ipv4Address, ref .regName]
  | .port => star digit
  | .authority =>
      seqs [opt (seq (ref .userinfo) (byte 64)), ref .host, opt (seq (byte 58) (ref .port))]
  | .pchar =>
      alts nonAscii [ref .unreserved, ref .pctEncoded, ref .subDelims, byte 58, byte 64]
  | .segment => star (ref .pchar)
  | .segmentNz => plus (ref .pchar)
  -- `pchar - ":"`
  | .segmentNzNc =>
      plus (alts nonAscii [ref .unreserved, ref .pctEncoded, ref .subDelims, byte 64])
  | .pathAbempty => seq (opt slashSegment) (star slashSegment)
  | .pathAbsolute => seq (byte 47) (opt (seq (ref .segmentNz) (star slashSegment)))
  | .pathNoscheme => seq (ref .segmentNzNc) (star slashSegment)
  | .pathRootless => seq (ref .segmentNz) (star slashSegment)
  | .pathEmpty => .empty
  | .query => star (alts (ref .pchar) [byte 47, byte 63])
  | .fragment => star (alts (ref .pchar) [byte 47, byte 63])
  | .hierPart =>
      alts (seqs [byte 47, byte 47, ref .authority, ref .pathAbempty])
        [ref .pathAbsolute, ref .pathRootless, ref .pathEmpty]
  | .relativePart =>
      alts (seqs [byte 47, byte 47, ref .authority, ref .pathAbempty])
        [ref .pathAbsolute, ref .pathNoscheme, ref .pathEmpty]
  | .relativeRef =>
      seqs [ref .relativePart, opt (seq (byte 63) (ref .query)),
        opt (seq (byte 35) (ref .fragment))]
  | .uri =>
      seqs [ref .scheme, byte 58, ref .hierPart, opt (seq (byte 63) (ref .query)),
        opt (seq (byte 35) (ref .fragment))]
  | .uriReference => alts (ref .uri) [ref .relativeRef]

/-- The productions of RFC 3986, whose strings are case-insensitive. -/
def rfc3986 : Production → Rhs
  | .decOctet => decOctet 50
  | .ipv6Address => ipv6Address upTo
  | .ipvFuture => ipvFuture (chars [(86, 86), (118, 118)])
  | n => uriRl n

theorem recognizes_uriReference :
    Grammar.recognizes scanner isFinal uriRl 451 (ref .uriReference) 40 10000 = true := by
  decide +kernel

/-- **The table** accepts the words of `URI_reference` and no others. -/
theorem accepts_iff (s : List UInt8) :
    scanner.Accepts isFinal 451 s ↔ Derives uriRl (ref .uriReference) s :=
  Grammar.accepts_iff_of_recognizes recognizes_uriReference s

end Mingo.Uri
