import Mingo.Http.RequestTable

/-!
# The automaton of uri.rl

The transitions of the scanner that Ragel generates from uri.rl, under the generated
numbers of the states: 451 is the start and the first final state, 0 the error.

The generated code has most of its states twice, once for the authority of a relative
reference and once for that of an absolute URI, and four times for the bytes of a host
that may be an IPv4 address.  Such families are one definition each, whose arguments are
the numbers of the copy.  As in the request table the first rule that fits counts, and a
class is written out in full where an earlier rule of the row takes some of its bytes.
-/

namespace Mingo.Uri

open Scanner (Rule Table on byte digit xdigit)
open Http.RequestTable (alpha schemeChar regName userinfo segmentNc pchar pathChar queryChar)

/-- The actions of uri.rl that do something. -/
inductive UriAction
  | markU
  | markH
  | saveScheme
  | savePort
  | saveUserinfo
  | saveHost
  | savePath
  | saveQuery
  | saveFragment
  deriving DecidableEq, Repr

namespace UriTable

def one (b : Nat) : List (Nat × Nat) := [(b, b)]

def dot : List (Nat × Nat) := one 46

def colon : List (Nat × Nat) := one 58

def close : List (Nat × Nat) := one 93

/-! ### Percent signs and IP literals -/

/-- The two digits behind a percent sign. -/
def pctEncoded (q next : Nat) : Table UriAction :=
  [(q, [on xdigit [] (q + 1)]), (q + 1, [on xdigit [] next])]

/-- The states of an IP literal behind its bracket, for the authority of a relative
reference.  None of them has an action. -/
def literalRows : List (Nat × List (List (Nat × Nat) × Nat)) :=
  [(38, [(colon, 146), (one 118, 225), (xdigit, 39)]), (39, [(colon, 43), (xdigit, 40)]),
    (40, [(colon, 43), (xdigit, 41)]), (41, [(colon, 43), (xdigit, 42)]), (42, [(colon, 43)]),
    (43, [(colon, 141), (xdigit, 44)]), (44, [(colon, 48), (xdigit, 45)]),
    (45, [(colon, 48), (xdigit, 46)]), (46, [(colon, 48), (xdigit, 47)]), (47, [(colon, 48)]),
    (48, [(colon, 136), (xdigit, 49)]), (49, [(colon, 53), (xdigit, 50)]),
    (50, [(colon, 53), (xdigit, 51)]), (51, [(colon, 53), (xdigit, 52)]), (52, [(colon, 53)]),
    (53, [(colon, 131), (xdigit, 54)]), (54, [(colon, 58), (xdigit, 55)]),
    (55, [(colon, 58), (xdigit, 56)]), (56, [(colon, 58), (xdigit, 57)]), (57, [(colon, 58)]),
    (58, [(colon, 126), (xdigit, 59)]), (59, [(colon, 63), (xdigit, 60)]),
    (60, [(colon, 63), (xdigit, 61)]), (61, [(colon, 63), (xdigit, 62)]), (62, [(colon, 63)]),
    (63, [(colon, 113), (xdigit, 64)]), (64, [(colon, 68), (xdigit, 65)]),
    (65, [(colon, 68), (xdigit, 66)]), (66, [(colon, 68), (xdigit, 67)]), (67, [(colon, 68)]),
    (68, [(one 2, 69), (one 48, 96), (one 49, 104), (one 50, 107), (colon, 111), (digit, 110),
      (xdigit, 112)]),
    (69, [([(48, 52)], 70)]), (70, [(digit, 71)]), (71, [(dot, 72)]),
    (72, [(one 2, 73), (one 48, 75), (one 49, 92), (one 50, 94), (digit, 93)]),
    (73, [([(48, 52)], 74)]), (74, [(digit, 75)]), (75, [(dot, 76)]),
    (76, [(one 2, 77), (one 48, 79), (one 49, 88), (one 50, 90), (digit, 89)]),
    (77, [([(48, 52)], 78)]), (78, [(digit, 79)]), (79, [(dot, 80)]),
    (80, [(one 2, 81), (one 48, 83), (one 49, 84), (one 50, 86), (digit, 85)]),
    (81, [([(48, 52)], 82)]), (82, [(digit, 83)]), (83, [(close, 460)]),
    (84, [(close, 460), (digit, 85)]), (85, [(close, 460), (digit, 83)]),
    (86, [(one 53, 87), (close, 460), (digit, 83)]), (87, [(close, 460), ([(48, 53)], 83)]),
    (88, [(dot, 80), (digit, 89)]), (89, [(dot, 80), (digit, 79)]),
    (90, [(dot, 80), (one 53, 91), (digit, 79)]), (91, [(dot, 80), ([(48, 53)], 79)]),
    (92, [(dot, 76), (digit, 93)]), (93, [(dot, 76), (digit, 75)]),
    (94, [(dot, 76), (one 53, 95), (digit, 75)]), (95, [(dot, 76), ([(48, 53)], 75)]),
    (96, [(dot, 72), (colon, 100), (xdigit, 97)]), (97, [(colon, 100), (xdigit, 98)]),
    (98, [(colon, 100), (xdigit, 99)]), (99, [(colon, 100)]), (100, [(colon, 83), (xdigit, 101)]),
    (101, [(close, 460), (xdigit, 102)]), (102, [(close, 460), (xdigit, 103)]),
    (103, [(close, 460), (xdigit, 83)]),
    (104, [(dot, 72), (colon, 100), (digit, 105), (xdigit, 97)]),
    (105, [(dot, 72), (colon, 100), (digit, 106), (xdigit, 98)]),
    (106, [(dot, 72), (colon, 100), (xdigit, 99)]),
    (107, [(dot, 72), (one 53, 109), (colon, 100), (digit, 108), (xdigit, 97)]),
    (108, [(dot, 72), (colon, 100), (xdigit, 98)]),
    (109, [(dot, 72), (colon, 100), ([(48, 53)], 106), (xdigit, 98)]),
    (110, [(dot, 72), (colon, 100), (digit, 108), (xdigit, 97)]), (111, [(xdigit, 101)]),
    (112, [(colon, 100), (xdigit, 97)]),
    (113, [(one 2, 69), (one 48, 114), (one 49, 118), (one 50, 121), (digit, 124), (xdigit, 125)]),
    (114, [(dot, 72), (colon, 111), (xdigit, 115)]), (115, [(colon, 111), (xdigit, 116)]),
    (116, [(colon, 111), (xdigit, 117)]), (117, [(colon, 111)]),
    (118, [(dot, 72), (colon, 111), (digit, 119), (xdigit, 115)]),
    (119, [(dot, 72), (colon, 111), (digit, 120), (xdigit, 116)]),
    (120, [(dot, 72), (colon, 111), (xdigit, 117)]),
    (121, [(dot, 72), (one 53, 123), (colon, 111), (digit, 122), (xdigit, 115)]),
    (122, [(dot, 72), (colon, 111), (xdigit, 116)]),
    (123, [(dot, 72), (colon, 111), ([(48, 53)], 120), (xdigit, 116)]),
    (124, [(dot, 72), (colon, 111), (digit, 122), (xdigit, 115)]),
    (125, [(colon, 111), (xdigit, 115)]), (126, [(xdigit, 127)]),
    (127, [(colon, 113), (xdigit, 128)]), (128, [(colon, 113), (xdigit, 129)]),
    (129, [(colon, 113), (xdigit, 130)]), (130, [(colon, 113)]), (131, [(xdigit, 132)]),
    (132, [(colon, 126), (xdigit, 133)]), (133, [(colon, 126), (xdigit, 134)]),
    (134, [(colon, 126), (xdigit, 135)]), (135, [(colon, 126)]), (136, [(xdigit, 137)]),
    (137, [(colon, 131), (xdigit, 138)]), (138, [(colon, 131), (xdigit, 139)]),
    (139, [(colon, 131), (xdigit, 140)]), (140, [(colon, 131)]), (141, [(xdigit, 142)]),
    (142, [(colon, 136), (xdigit, 143)]), (143, [(colon, 136), (xdigit, 144)]),
    (144, [(colon, 136), (xdigit, 145)]), (145, [(colon, 136)]), (146, [(colon, 147)]),
    (147, [(one 2, 69), (one 48, 148), (one 49, 217), (one 50, 220), (close, 460), (digit, 223),
      (xdigit, 224)]),
    (148, [(dot, 72), (colon, 152), (close, 460), (xdigit, 149)]),
    (149, [(colon, 152), (close, 460), (xdigit, 150)]),
    (150, [(colon, 152), (close, 460), (xdigit, 151)]), (151, [(colon, 152), (close, 460)]),
    (152, [(one 2, 69), (one 48, 153), (one 49, 209), (one 50, 212), (digit, 215), (xdigit, 216)]),
    (153, [(dot, 72), (colon, 157), (close, 460), (xdigit, 154)]),
    (154, [(colon, 157), (close, 460), (xdigit, 155)]),
    (155, [(colon, 157), (close, 460), (xdigit, 156)]), (156, [(colon, 157), (close, 460)]),
    (157, [(one 2, 69), (one 48, 158), (one 49, 201), (one 50, 204), (digit, 207), (xdigit, 208)]),
    (158, [(dot, 72), (colon, 162), (close, 460), (xdigit, 159)]),
    (159, [(colon, 162), (close, 460), (xdigit, 160)]),
    (160, [(colon, 162), (close, 460), (xdigit, 161)]), (161, [(colon, 162), (close, 460)]),
    (162, [(one 2, 69), (one 48, 163), (one 49, 193), (one 50, 196), (digit, 199), (xdigit, 200)]),
    (163, [(dot, 72), (colon, 167), (close, 460), (xdigit, 164)]),
    (164, [(colon, 167), (close, 460), (xdigit, 165)]),
    (165, [(colon, 167), (close, 460), (xdigit, 166)]), (166, [(colon, 167), (close, 460)]),
    (167, [(one 2, 69), (one 48, 168), (one 49, 185), (one 50, 188), (digit, 191), (xdigit, 192)]),
    (168, [(dot, 72), (colon, 172), (close, 460), (xdigit, 169)]),
    (169, [(colon, 172), (close, 460), (xdigit, 170)]),
    (170, [(colon, 172), (close, 460), (xdigit, 171)]), (171, [(colon, 172), (close, 460)]),
    (172, [(one 2, 69), (one 48, 173), (one 49, 177), (one 50, 180), (digit, 183), (xdigit, 184)]),
    (173, [(dot, 72), (colon, 111), (close, 460), (xdigit, 174)]),
    (174, [(colon, 111), (close, 460), (xdigit, 175)]),
    (175, [(colon, 111), (close, 460), (xdigit, 176)]), (176, [(colon, 111), (close, 460)]),
    (177, [(dot, 72), (colon, 111), (close, 460), (digit, 178), (xdigit, 174)]),
    (178, [(dot, 72), (colon, 111), (close, 460), (digit, 179), (xdigit, 175)]),
    (179, [(dot, 72), (colon, 111), (close, 460), (xdigit, 176)]),
    (180, [(dot, 72), (one 53, 182), (colon, 111), (close, 460), (digit, 181), (xdigit, 174)]),
    (181, [(dot, 72), (colon, 111), (close, 460), (xdigit, 175)]),
    (182, [(dot, 72), (colon, 111), (close, 460), ([(48, 53)], 179), (xdigit, 175)]),
    (183, [(dot, 72), (colon, 111), (close, 460), (digit, 181), (xdigit, 174)]),
    (184, [(colon, 111), (close, 460), (xdigit, 174)]),
    (185, [(dot, 72), (colon, 172), (close, 460), (digit, 186), (xdigit, 169)]),
    (186, [(dot, 72), (colon, 172), (close, 460), (digit, 187), (xdigit, 170)]),
    (187, [(dot, 72), (colon, 172), (close, 460), (xdigit, 171)]),
    (188, [(dot, 72), (one 53, 190), (colon, 172), (close, 460), (digit, 189), (xdigit, 169)]),
    (189, [(dot, 72), (colon, 172), (close, 460), (xdigit, 170)]),
    (190, [(dot, 72), (colon, 172), (close, 460), ([(48, 53)], 187), (xdigit, 170)]),
    (191, [(dot, 72), (colon, 172), (close, 460), (digit, 189), (xdigit, 169)]),
    (192, [(colon, 172), (close, 460), (xdigit, 169)]),
    (193, [(dot, 72), (colon, 167), (close, 460), (digit, 194), (xdigit, 164)]),
    (194, [(dot, 72), (colon, 167), (close, 460), (digit, 195), (xdigit, 165)]),
    (195, [(dot, 72), (colon, 167), (close, 460), (xdigit, 166)]),
    (196, [(dot, 72), (one 53, 198), (colon, 167), (close, 460), (digit, 197), (xdigit, 164)]),
    (197, [(dot, 72), (colon, 167), (close, 460), (xdigit, 165)]),
    (198, [(dot, 72), (colon, 167), (close, 460), ([(48, 53)], 195), (xdigit, 165)]),
    (199, [(dot, 72), (colon, 167), (close, 460), (digit, 197), (xdigit, 164)]),
    (200, [(colon, 167), (close, 460), (xdigit, 164)]),
    (201, [(dot, 72), (colon, 162), (close, 460), (digit, 202), (xdigit, 159)]),
    (202, [(dot, 72), (colon, 162), (close, 460), (digit, 203), (xdigit, 160)]),
    (203, [(dot, 72), (colon, 162), (close, 460), (xdigit, 161)]),
    (204, [(dot, 72), (one 53, 206), (colon, 162), (close, 460), (digit, 205), (xdigit, 159)]),
    (205, [(dot, 72), (colon, 162), (close, 460), (xdigit, 160)]),
    (206, [(dot, 72), (colon, 162), (close, 460), ([(48, 53)], 203), (xdigit, 160)]),
    (207, [(dot, 72), (colon, 162), (close, 460), (digit, 205), (xdigit, 159)]),
    (208, [(colon, 162), (close, 460), (xdigit, 159)]),
    (209, [(dot, 72), (colon, 157), (close, 460), (digit, 210), (xdigit, 154)]),
    (210, [(dot, 72), (colon, 157), (close, 460), (digit, 211), (xdigit, 155)]),
    (211, [(dot, 72), (colon, 157), (close, 460), (xdigit, 156)]),
    (212, [(dot, 72), (one 53, 214), (colon, 157), (close, 460), (digit, 213), (xdigit, 154)]),
    (213, [(dot, 72), (colon, 157), (close, 460), (xdigit, 155)]),
    (214, [(dot, 72), (colon, 157), (close, 460), ([(48, 53)], 211), (xdigit, 155)]),
    (215, [(dot, 72), (colon, 157), (close, 460), (digit, 213), (xdigit, 154)]),
    (216, [(colon, 157), (close, 460), (xdigit, 154)]),
    (217, [(dot, 72), (colon, 152), (close, 460), (digit, 218), (xdigit, 149)]),
    (218, [(dot, 72), (colon, 152), (close, 460), (digit, 219), (xdigit, 150)]),
    (219, [(dot, 72), (colon, 152), (close, 460), (xdigit, 151)]),
    (220, [(dot, 72), (one 53, 222), (colon, 152), (close, 460), (digit, 221), (xdigit, 149)]),
    (221, [(dot, 72), (colon, 152), (close, 460), (xdigit, 150)]),
    (222, [(dot, 72), (colon, 152), (close, 460), ([(48, 53)], 219), (xdigit, 150)]),
    (223, [(dot, 72), (colon, 152), (close, 460), (digit, 221), (xdigit, 149)]),
    (224, [(colon, 152), (close, 460), (xdigit, 149)]), (225, [(xdigit, 226)]),
    (226, [(dot, 227), (xdigit, 226)]), (227, [(userinfo, 228)]),
    (228, [(close, 460), (userinfo, 228)])]

/-- The states of an IP literal, `shift` further on, up to the state `stop` behind it. -/
def ipLiteral (shift stop : Nat) : Table UriAction :=
  literalRows.map fun row =>
    (row.1 + shift, row.2.map fun e => on e.1 [] (if e.2 = 460 then stop else e.2 + shift))

/-! ### Hosts that may be IPv4 addresses -/

/-- The rules behind a host in a relative reference. -/
def relativeEnds (port : Nat) : List (Rule UriAction) :=
  [byte 35 [.saveHost] 453, byte 47 [.saveHost] 455, byte 58 [.saveHost] port,
    byte 63 [.saveHost] 456]

/-- The rules behind a host in an absolute URI. -/
def absoluteEnds (port : Nat) : List (Rule UriAction) :=
  [byte 35 [.saveHost, .markH, .savePath] 453, byte 47 [.saveHost, .markH] 513,
    byte 58 [.saveHost] port, byte 63 [.saveHost, .markH, .savePath] 456]

/-- The rule of the at sign, behind bytes that may be userinfo. -/
def atSign (next : Nat) : Rule UriAction := byte 64 [.saveUserinfo] next

/-- The rules behind some bytes of a registered name. -/
def named (pct reg : Nat) (ends : List (Rule UriAction)) : List (Rule UriAction) :=
  byte 37 [] pct :: ends ++ [on regName [] reg]

/-- The states of an octet that ends in `stop` and is followed by a dot. -/
def octet (rest : List (Rule UriAction)) (stop next q : Nat) : Table UriAction :=
  [(stop, byte 46 [] next :: rest),
    (q, byte 46 [] next :: on digit [] (q + 1) :: rest),
    (q + 1, byte 46 [] next :: on digit [] stop :: rest),
    (q + 2, byte 46 [] next :: byte 53 [] (q + 3) :: on digit [] stop :: rest),
    (q + 3, byte 46 [] next :: on [(48, 53)] [] stop :: rest)]

/-- The rules for the first byte of an octet; uri.rl has the byte 2 in place of the
digit in one of the forms. -/
def octetFirst (acts : List UriAction) (two stop q : Nat) : List (Rule UriAction) :=
  [byte 2 acts two, byte 48 acts stop, byte 49 acts q, byte 50 acts (q + 2),
    on [(51, 57)] acts (q + 1)]

/-- The states of a registered name, which remember how far it is an IPv4 address. -/
def dotted (rest : List (Rule UriAction)) (q two reg : Nat) : Table UriAction :=
  octet rest q (q + 1) (q + 14) ++
  (q + 1, octetFirst [] two (q + 2) (q + 10) ++ rest) ::
  octet rest (q + 2) (q + 3) (q + 10) ++
  (q + 3, octetFirst [] (two + 4) (q + 4) (q + 6) ++ rest) ::
  octet rest (q + 4) (q + 5) (q + 6) ++
  [(q + 5, byte 2 [] (two + 8) :: rest), (reg, rest)]

/-- The states of an IPv4 address that has had the byte 2: `q` behind it in the first
octet, `o` the first digits of the second and third octet, `last` those of the fourth. -/
def afterTwo (q o stop last : Nat) (ends : List (Rule UriAction)) : Table UriAction :=
  [(q, [on [(48, 52)] [] (q + 1)]), (q + 1, [on digit [] (q + 2)]),
    (q + 2, [byte 46 [] (q + 3)]), (q + 3, octetFirst [] (q + 4) (q + 6) (o + 4)),
    (q + 4, [on [(48, 52)] [] (q + 5)]), (q + 5, [on digit [] (q + 6)])] ++
  octet [] (q + 6) (q + 7) (o + 4) ++
  [(q + 7, octetFirst [] (q + 8) (q + 10) o),
    (q + 8, [on [(48, 52)] [] (q + 9)]), (q + 9, [on digit [] (q + 10)])] ++
  octet [] (q + 10) (q + 11) o ++
  [(q + 11, octetFirst [] (q + 12) stop last),
    (q + 12, [on [(48, 52)] [] (q + 13)]), (q + 13, [on digit [] stop]),
    (stop, ends),
    (last, on digit [] (last + 1) :: ends),
    (last + 1, on digit [] stop :: ends),
    (last + 2, byte 53 [] (last + 3) :: on digit [] stop :: ends),
    (last + 3, on [(48, 53)] [] stop :: ends)]

/-! ### The parts -/

/-- The rules for the first byte of a host. -/
def hostFirst (pct literal two stop q reg : Nat) (ends : List (Rule UriAction)) :
    List (Rule UriAction) :=
  byte 37 [.markH] pct :: byte 91 [.markH] literal :: ends ++ octetFirst [.markH] two stop q ++
    [on regName [.markH] reg]

/-- A path that is not saved, a query and a fragment. -/
def tailStates : Table UriAction :=
  [(451, [byte 35 [] 453, byte 37 [] 3, byte 47 [] 458, byte 63 [] 456, on alpha [.markU] 508,
      on segmentNc [] 452, on [(128, 255)] [] 452]),
    (452, [byte 35 [] 453, byte 37 [] 3, byte 47 [] 455, byte 63 [] 456, on segmentNc [] 452,
      on [(128, 255)] [] 452]),
    (453, [byte 37 [.markU] 1, on queryChar [.markU] 454]),
    (454, [byte 37 [] 1, on queryChar [] 454]),
    (455, [byte 35 [] 453, byte 37 [] 5, byte 63 [] 456, on pathChar [] 455]),
    (456, [byte 35 [.markU, .saveQuery] 453, byte 37 [.markU] 7, on queryChar [.markU] 457]),
    (457, [byte 35 [.saveQuery] 453, byte 37 [] 7, on queryChar [] 457]),
    (458, [byte 35 [] 453, byte 37 [] 5, byte 47 [] 459, byte 63 [] 456, on pchar [] 455])]

/-- The ends of the parts of the authority in a relative reference. -/
def relativeStates : Table UriAction :=
  [(33, [byte 37 [] 34, atSign 469, on userinfo [] 33]),
    (459, hostFirst 31 38 9 490 504 467
      [byte 35 [.markH, .saveHost] 453, byte 47 [.markH, .saveHost] 455,
        byte 58 [.markH, .saveHost] 468, byte 63 [.markH, .saveHost] 456,
        byte 64 [.markH, .saveUserinfo] 469]),
    (461, [byte 35 [.markH, .savePort] 453, byte 47 [.markH, .savePort] 455,
      byte 63 [.markH, .savePort] 456, on digit [.markH] 462]),
    (462, [byte 35 [.savePort] 453, byte 47 [.savePort] 455, byte 63 [.savePort] 456,
      on digit [] 462]),
    (468, [byte 35 [.markH, .savePort] 453, byte 37 [] 34, byte 47 [.markH, .savePort] 455,
      byte 63 [.markH, .savePort] 456, atSign 469, on digit [.markH] 489, on userinfo [] 33]),
    (469, hostFirst 36 38 9 471 485 470
      [byte 35 [.markH, .saveHost] 453, byte 47 [.markH, .saveHost] 455,
        byte 58 [.markH, .saveHost] 461, byte 63 [.markH, .saveHost] 456]),
    (489, [byte 35 [.savePort] 453, byte 37 [] 34, byte 47 [.savePort] 455,
      byte 63 [.savePort] 456, atSign 469, on digit [] 489, on userinfo [] 33])]

/-- The scheme, and the ends of the parts of the authority and the path in an absolute
URI. -/
def absoluteStates : Table UriAction :=
  [(255, [byte 37 [] 256, atSign 522, on userinfo [] 255]),
    (508, [byte 35 [] 453, byte 37 [] 3, byte 47 [] 455, byte 58 [.saveScheme] 509,
      byte 63 [] 456, on schemeChar [] 508, on segmentNc [] 452, on [(128, 255)] [] 452]),
    (509, [byte 35 [] 453, byte 37 [] 5, byte 47 [] 510, byte 63 [] 456, on pchar [] 455]),
    (510, [byte 35 [] 453, byte 37 [] 5, byte 47 [] 511, byte 63 [] 456, on pchar [] 455]),
    (511, hostFirst 253 260 229 543 557 520
      [byte 35 [.markH, .saveHost, .savePath] 453, byte 47 [.markH, .saveHost] 513,
        byte 58 [.markH, .saveHost] 521, byte 63 [.markH, .saveHost, .savePath] 456,
        byte 64 [.markH, .saveUserinfo] 522]),
    (513, [byte 35 [.savePath] 453, byte 37 [] 243, byte 63 [.savePath] 456,
      on pathChar [] 513]),
    (514, [byte 35 [.markH, .savePort, .savePath] 453, byte 47 [.markH, .savePort] 513,
      byte 63 [.markH, .savePort, .savePath] 456, on digit [.markH] 515]),
    (515, [byte 35 [.savePort, .markH, .savePath] 453, byte 47 [.savePort, .markH] 513,
      byte 63 [.savePort, .markH, .savePath] 456, on digit [] 515]),
    (521, [byte 35 [.markH, .savePort, .savePath] 453, byte 37 [] 256,
      byte 47 [.markH, .savePort] 513, byte 63 [.markH, .savePort, .savePath] 456, atSign 522,
      on digit [.markH] 542, on userinfo [] 255]),
    (522, hostFirst 258 260 229 524 538 523
      [byte 35 [.markH, .saveHost, .savePath] 453, byte 47 [.markH, .saveHost] 513,
        byte 58 [.markH, .saveHost] 514, byte 63 [.markH, .saveHost, .savePath] 456]),
    (542, [byte 35 [.savePort, .markH, .savePath] 453, byte 37 [] 256,
      byte 47 [.savePort, .markH] 513, byte 63 [.savePort, .markH, .savePath] 456, atSign 522,
      on digit [] 542, on userinfo [] 255])]

/-- The states for the paths, queries and fragments. -/
def tailRows : Table UriAction :=
  pctEncoded 1 454 ++ pctEncoded 3 452 ++ pctEncoded 5 455 ++ pctEncoded 7 457 ++ tailStates

/-- The states for the authority of a relative reference. -/
def relativeRows : Table UriAction :=
  pctEncoded 31 467 ++ pctEncoded 34 33 ++ pctEncoded 36 470 ++ ipLiteral 0 460 ++
  afterTwo 9 23 460 463 (relativeEnds 461) ++
  dotted (named 31 467 (atSign 469 :: relativeEnds 468)) 490 13 467 ++
  dotted (named 36 470 (relativeEnds 461)) 471 13 470 ++ relativeStates

/-- The states for the scheme, authority and path of an absolute URI. -/
def absoluteRows : Table UriAction :=
  pctEncoded 243 513 ++ pctEncoded 253 520 ++ pctEncoded 256 255 ++ pctEncoded 258 523 ++
  ipLiteral 222 512 ++ afterTwo 229 245 512 516 (absoluteEnds 514) ++
  dotted (named 258 523 (absoluteEnds 514)) 524 233 523 ++
  dotted (named 253 520 (atSign 522 :: absoluteEnds 521)) 543 233 520 ++ absoluteStates

/-- The rows of uri.cpp. -/
def rows : Table UriAction := tailRows ++ relativeRows ++ absoluteRows

/-- The actions at the end of the text, for ranges of states. -/
def eofRows : List (List (Nat × Nat) × List UriAction) :=
  [([(462, 462), (489, 489)], [.savePort]),
    ([(460, 460), (463, 467), (470, 488), (490, 507)], [.saveHost]),
    ([(513, 513)], [.savePath]),
    ([(457, 457)], [.saveQuery]),
    ([(454, 454)], [.saveFragment]),
    ([(456, 456)], [.markU, .saveQuery]),
    ([(453, 453)], [.markU, .saveFragment]),
    ([(461, 461), (468, 468)], [.markH, .savePort]),
    ([(459, 459), (469, 469)], [.markH, .saveHost]),
    ([(514, 514), (521, 521)], [.markH, .savePort, .savePath]),
    ([(511, 511), (522, 522)], [.markH, .saveHost, .savePath]),
    ([(515, 515), (542, 542)], [.savePort, .markH, .savePath]),
    ([(512, 512), (516, 520), (523, 541), (543, 560)], [.saveHost, .markH, .savePath])]

/-- The actions at the end of the text in state `q`. -/
def eofActions (q : Nat) : List UriAction :=
  ((eofRows.find? fun e => e.1.any fun c => c.1 ≤ q && q ≤ c.2).map Prod.snd).getD []

end UriTable

/-- The automaton of uri.rl; none of its actions ends the scan. -/
def scanner : Scanner UriAction := ⟨UriTable.rows, false, fun _ => false⟩

/-- The final states, those from `uri_parser_first_final` on. -/
def isFinal (cs : Nat) : Bool := Nat.ble 451 cs

end Mingo.Uri
