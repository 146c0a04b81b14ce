import Mingo.Lib.Scanner

/-!
# The automaton of http11_parser.rl

The transitions of the scanner that Ragel generates from http11_parser.rl, one
row per `case` of http11_parser.rl.cpp.  The rows keep the generated numbers of
the states: 1 is the start, 0 the error, 348 the end of an HTTP request and 349
that of a socket message (the states 194 to 347 scan only those).

The byte classes bear the names of the grammar.  A class that holds bytes an
earlier rule of its row takes is written out in full, as the first rule that
fits counts.  `moreDelims` is read only when `uri_relaxed` is set.
-/

namespace Mingo.Http

open Scanner (on byte whenSet digit xdigit)

/-- The actions of http11_parser.rl. -/
inductive RequestAction
  | mark
  | startField
  | writeField
  | startValue
  | writeValue
  | requestMethod
  | requestUri
  | fragment
  | startQuery
  | queryString
  | httpVersion
  | requestPath
  | done
  | xml
  | json
  deriving DecidableEq, Repr

namespace RequestTable

def hexLetter : List (Nat × Nat) := [(65, 70), (97, 102)]

def alpha : List (Nat × Nat) := [(65, 90), (97, 122)]

def alphanumeric : List (Nat × Nat) := [(45, 46), (48, 57), (65, 90), (97, 122)]

def methodChar : List (Nat × Nat) := [(48, 57), (65, 90)]

def schemeChar : List (Nat × Nat) := [(43, 43), (45, 46), (48, 57), (65, 90), (97, 122)]

/-- `{`, `}` and `^`. -/
def moreDelims : List (Nat × Nat) := [(94, 94), (123, 123), (125, 125)]

/-- `unreserved | sub_delims`. -/
def regName : List (Nat × Nat) :=
  [(33, 33), (36, 36), (38, 46), (48, 57), (59, 59), (61, 61), (65, 90), (95, 95), (97, 122),
    (126, 126)]

/-- `regName | ":"`. -/
def userinfo : List (Nat × Nat) :=
  [(33, 33), (36, 36), (38, 46), (48, 59), (61, 61), (65, 90), (95, 95), (97, 122), (126, 126)]

/-- `regName | "@"`. -/
def segmentNc : List (Nat × Nat) :=
  [(33, 33), (36, 36), (38, 46), (48, 57), (59, 59), (61, 61), (64, 90), (95, 95), (97, 122),
    (126, 126)]

/-- `(any -- ascii) | regName | ":" | "@"`. -/
def pchar : List (Nat × Nat) :=
  [(33, 33), (36, 36), (38, 46), (48, 59), (61, 61), (64, 90), (95, 95), (97, 122), (126, 126),
    (128, 255)]

/-- `pchar | "/"`. -/
def pathChar : List (Nat × Nat) :=
  [(33, 33), (36, 36), (38, 59), (61, 61), (64, 90), (95, 95), (97, 122), (126, 126),
    (128, 255)]

/-- `pchar | "/" | "?"`. -/
def queryChar : List (Nat × Nat) :=
  [(33, 33), (36, 36), (38, 59), (61, 61), (63, 90), (95, 95), (97, 122), (126, 126),
    (128, 255)]

/-- The bytes of a header name.  Ragel reads the `0 - 31` of `HTTP_CTL` as a
difference, so only NUL, DEL and the separators are left out. -/
def token : List (Nat × Nat) :=
  [(1, 8), (10, 31), (33, 33), (35, 39), (42, 43), (45, 46), (48, 57), (65, 90), (94, 122),
    (124, 124), (126, 126)]

/-- The bytes of a header value. -/
def content : List (Nat × Nat) := [(1, 126), (128, 255)]

/-- The rows of http11_parser.rl.cpp. -/
def rows : Scanner.Table RequestAction :=
  [(1, [byte 60 [.mark] 194, byte 64 [.mark] 198, on methodChar [.mark] 2]),
    (2, [byte 32 [.requestMethod] 3, on methodChar [] 175]),
    (3, [byte 32 [.mark, .requestPath, .requestUri] 4,
        byte 35 [.mark, .requestPath, .requestUri] 20, byte 37 [.mark] 24,
        byte 47 [.mark] 33, byte 63 [.mark, .requestPath] 29, on alpha [.mark] 173,
        on segmentNc [.mark] 19, whenSet moreDelims [.mark] 19]),
    (4, [byte 72 [.mark] 5]),
    (5, [byte 84 [] 6]),
    (6, [byte 84 [] 7]),
    (7, [byte 80 [] 8]),
    (8, [byte 47 [] 9]),
    (9, [byte 49 [] 10]),
    (10, [byte 46 [] 11]),
    (11, [on [(48, 49)] [] 12]),
    (12, [byte 10 [.httpVersion] 13, byte 13 [.httpVersion] 17]),
    (13, [byte 10 [.startField, .done] 348, byte 13 [.startField] 18,
        on token [.startField] 14]),
    (14, [byte 58 [.writeField] 15, on token [] 14]),
    (15, [byte 10 [.startValue, .writeValue] 13, byte 13 [.startValue, .writeValue] 17,
        on [(9, 9), (32, 32)] [.startValue] 15, on content [.startValue] 16]),
    (16, [byte 10 [.writeValue] 13, byte 13 [.writeValue] 17, on content [] 16]),
    (17, [byte 10 [] 13]),
    (18, [byte 10 [.done] 348, byte 58 [.writeField] 15, on token [] 14]),
    (19, [byte 32 [.requestPath, .requestUri] 4, byte 35 [.requestPath, .requestUri] 20,
        byte 37 [] 24, byte 47 [] 26, byte 63 [.requestPath] 29, on segmentNc [] 19,
        whenSet moreDelims [] 19]),
    (20, [byte 32 [.mark, .fragment] 4, byte 37 [.mark] 22, on queryChar [.mark] 21,
        whenSet moreDelims [.mark] 21]),
    (21, [byte 32 [.fragment] 4, byte 37 [] 22, on queryChar [] 21,
        whenSet moreDelims [] 21]),
    (22, [on xdigit [] 23]),
    (23, [on xdigit [] 21]),
    (24, [on xdigit [] 25]),
    (25, [on xdigit [] 19]),
    (26, [byte 32 [.requestPath, .requestUri] 4, byte 35 [.requestPath, .requestUri] 20,
        byte 37 [] 27, byte 63 [.requestPath] 29, on pathChar [] 26,
        whenSet moreDelims [] 26]),
    (27, [on xdigit [] 28]),
    (28, [on xdigit [] 26]),
    (29, [byte 32 [.startQuery, .queryString, .requestUri] 4,
        byte 35 [.startQuery, .queryString, .requestUri] 20, byte 37 [.startQuery] 31,
        on queryChar [.startQuery] 30, whenSet moreDelims [.startQuery] 30]),
    (30, [byte 32 [.queryString, .requestUri] 4, byte 35 [.queryString, .requestUri] 20,
        byte 37 [] 31, on queryChar [] 30, whenSet moreDelims [] 30]),
    (31, [on xdigit [] 32]),
    (32, [on xdigit [] 30]),
    (33, [byte 32 [.requestPath, .requestUri] 4, byte 35 [.requestPath, .requestUri] 20,
        byte 37 [] 27, byte 47 [] 34, byte 63 [.requestPath] 29, on pchar [] 26,
        whenSet moreDelims [] 26]),
    (34, [byte 32 [.requestPath, .requestUri] 4, byte 35 [.requestPath, .requestUri] 20,
        byte 37 [] 36, byte 47 [] 26, byte 58 [] 38, byte 63 [.requestPath] 29,
        byte 64 [] 42, byte 91 [] 47, on regName [] 35, whenSet moreDelims [] 35]),
    (35, [byte 32 [.requestPath, .requestUri] 4, byte 35 [.requestPath, .requestUri] 20,
        byte 37 [] 36, byte 47 [] 26, byte 58 [] 38, byte 63 [.requestPath] 29,
        byte 64 [] 42, on regName [] 35, whenSet moreDelims [] 35]),
    (36, [on xdigit [] 37]),
    (37, [on xdigit [] 35]),
    (38, [byte 32 [.requestPath, .requestUri] 4, byte 35 [.requestPath, .requestUri] 20,
        byte 37 [] 40, byte 47 [] 26, byte 63 [.requestPath] 29, byte 64 [] 42,
        on digit [] 38, on userinfo [] 39, whenSet moreDelims [] 39]),
    (39, [byte 37 [] 40, byte 64 [] 42, on userinfo [] 39, whenSet moreDelims [] 39]),
    (40, [on xdigit [] 41]),
    (41, [on xdigit [] 39]),
    (42, [byte 32 [.requestPath, .requestUri] 4, byte 35 [.requestPath, .requestUri] 20,
        byte 37 [] 44, byte 47 [] 26, byte 58 [] 46, byte 63 [.requestPath] 29,
        byte 91 [] 47, on regName [] 43, whenSet moreDelims [] 43]),
    (43, [byte 32 [.requestPath, .requestUri] 4, byte 35 [.requestPath, .requestUri] 20,
        byte 37 [] 44, byte 47 [] 26, byte 58 [] 46, byte 63 [.requestPath] 29,
        on regName [] 43, whenSet moreDelims [] 43]),
    (44, [on xdigit [] 45]),
    (45, [on xdigit [] 43]),
    (46, [byte 32 [.requestPath, .requestUri] 4, byte 35 [.requestPath, .requestUri] 20,
        byte 47 [] 26, byte 63 [.requestPath] 29, on digit [] 46]),
    (47, [byte 6 [] 48, byte 58 [] 167, byte 118 [] 169, on xdigit [] 91]),
    (48, [on xdigit [] 49]),
    (49, [byte 58 [] 53, on xdigit [] 50]),
    (50, [byte 58 [] 53, on xdigit [] 51]),
    (51, [byte 58 [] 53, on xdigit [] 52]),
    (52, [byte 58 [] 53]),
    (53, [byte 49 [] 84, byte 50 [] 87, on [(48, 48), (51, 57)] [] 54, on hexLetter [] 90]),
    (54, [byte 46 [] 55, byte 58 [] 80, on xdigit [] 77]),
    (55, [byte 49 [] 72, byte 50 [] 74, on [(48, 48), (51, 57)] [] 56]),
    (56, [byte 46 [] 57]),
    (57, [byte 49 [] 67, byte 50 [] 69, on [(48, 48), (51, 57)] [] 58]),
    (58, [byte 46 [] 59]),
    (59, [byte 49 [] 62, byte 50 [] 64, on [(48, 48), (51, 57)] [] 60]),
    (60, [byte 93 [] 61]),
    (61, [byte 32 [.requestPath, .requestUri] 4, byte 35 [.requestPath, .requestUri] 20,
        byte 47 [] 26, byte 58 [] 46, byte 63 [.requestPath] 29]),
    (62, [byte 93 [] 61, on digit [] 63]),
    (63, [byte 93 [] 61, on digit [] 60]),
    (64, [byte 48 [] 65, byte 53 [] 66, byte 93 [] 61]),
    (65, [on digit [] 60]),
    (66, [byte 48 [] 60]),
    (67, [byte 46 [] 59, on digit [] 68]),
    (68, [byte 46 [] 59, on digit [] 58]),
    (69, [byte 46 [] 59, byte 48 [] 70, byte 53 [] 71]),
    (70, [on digit [] 58]),
    (71, [byte 48 [] 58]),
    (72, [byte 46 [] 57, on digit [] 73]),
    (73, [byte 46 [] 57, on digit [] 56]),
    (74, [byte 46 [] 57, byte 48 [] 75, byte 53 [] 76]),
    (75, [on digit [] 56]),
    (76, [byte 48 [] 56]),
    (77, [byte 58 [] 80, on xdigit [] 78]),
    (78, [byte 58 [] 80, on xdigit [] 79]),
    (79, [byte 58 [] 80]),
    (80, [on xdigit [] 81]),
    (81, [byte 93 [] 61, on xdigit [] 82]),
    (82, [byte 93 [] 61, on xdigit [] 83]),
    (83, [byte 93 [] 61, on xdigit [] 60]),
    (84, [byte 46 [] 55, byte 58 [] 80, on digit [] 85, on hexLetter [] 77]),
    (85, [byte 46 [] 55, byte 58 [] 80, on digit [] 86, on hexLetter [] 78]),
    (86, [byte 46 [] 55, byte 58 [] 80, on xdigit [] 79]),
    (87, [byte 46 [] 55, byte 48 [] 88, byte 53 [] 89, byte 58 [] 80, on xdigit [] 77]),
    (88, [byte 58 [] 80, on digit [] 86, on hexLetter [] 78]),
    (89, [byte 48 [] 86, byte 58 [] 80, on xdigit [] 78]),
    (90, [byte 58 [] 80, on xdigit [] 77]),
    (91, [byte 58 [] 95, on xdigit [] 92]),
    (92, [byte 58 [] 95, on xdigit [] 93]),
    (93, [byte 58 [] 95, on xdigit [] 94]),
    (94, [byte 58 [] 95]),
    (95, [byte 58 [] 166, on xdigit [] 96]),
    (96, [byte 58 [] 100, on xdigit [] 97]),
    (97, [byte 58 [] 100, on xdigit [] 98]),
    (98, [byte 58 [] 100, on xdigit [] 99]),
    (99, [byte 58 [] 100]),
    (100, [byte 58 [] 165, on xdigit [] 101]),
    (101, [byte 58 [] 105, on xdigit [] 102]),
    (102, [byte 58 [] 105, on xdigit [] 103]),
    (103, [byte 58 [] 105, on xdigit [] 104]),
    (104, [byte 58 [] 105]),
    (105, [byte 58 [] 164, on xdigit [] 106]),
    (106, [byte 58 [] 110, on xdigit [] 107]),
    (107, [byte 58 [] 110, on xdigit [] 108]),
    (108, [byte 58 [] 110, on xdigit [] 109]),
    (109, [byte 58 [] 110]),
    (110, [byte 58 [] 163, on xdigit [] 111]),
    (111, [byte 58 [] 115, on xdigit [] 112]),
    (112, [byte 58 [] 115, on xdigit [] 113]),
    (113, [byte 58 [] 115, on xdigit [] 114]),
    (114, [byte 58 [] 115]),
    (115, [byte 58 [] 151, on xdigit [] 116]),
    (116, [byte 58 [] 120, on xdigit [] 117]),
    (117, [byte 58 [] 120, on xdigit [] 118]),
    (118, [byte 58 [] 120, on xdigit [] 119]),
    (119, [byte 58 [] 120]),
    (120, [byte 58 [] 150, on xdigit [] 121]),
    (121, [byte 58 [] 125, on xdigit [] 122]),
    (122, [byte 58 [] 125, on xdigit [] 123]),
    (123, [byte 58 [] 125, on xdigit [] 124]),
    (124, [byte 58 [] 125]),
    (125, [byte 58 [] 126, on xdigit [] 121]),
    (126, [byte 49 [] 143, byte 50 [] 146, byte 93 [] 61, on [(2, 3)] [] 48,
        on [(48, 48), (51, 57)] [] 127, on hexLetter [] 149]),
    (127, [byte 46 [] 55, byte 58 [] 131, byte 93 [] 61, on xdigit [] 128]),
    (128, [byte 58 [] 131, byte 93 [] 61, on xdigit [] 129]),
    (129, [byte 58 [] 131, byte 93 [] 61, on xdigit [] 130]),
    (130, [byte 58 [] 131, byte 93 [] 61]),
    (131, [byte 49 [] 136, byte 50 [] 139, on [(48, 48), (51, 57)] [] 132,
        on hexLetter [] 142]),
    (132, [byte 46 [] 55, byte 58 [] 80, byte 93 [] 61, on xdigit [] 133]),
    (133, [byte 58 [] 80, byte 93 [] 61, on xdigit [] 134]),
    (134, [byte 58 [] 80, byte 93 [] 61, on xdigit [] 135]),
    (135, [byte 58 [] 80, byte 93 [] 61]),
    (136, [byte 46 [] 55, byte 58 [] 80, byte 93 [] 61, on digit [] 137,
        on hexLetter [] 133]),
    (137, [byte 46 [] 55, byte 58 [] 80, byte 93 [] 61, on digit [] 138,
        on hexLetter [] 134]),
    (138, [byte 46 [] 55, byte 58 [] 80, byte 93 [] 61, on xdigit [] 135]),
    (139, [byte 46 [] 55, byte 48 [] 140, byte 53 [] 141, byte 58 [] 80, byte 93 [] 61,
        on xdigit [] 133]),
    (140, [byte 58 [] 80, byte 93 [] 61, on digit [] 138, on hexLetter [] 134]),
    (141, [byte 48 [] 138, byte 58 [] 80, byte 93 [] 61, on xdigit [] 134]),
    (142, [byte 58 [] 80, byte 93 [] 61, on xdigit [] 133]),
    (143, [byte 46 [] 55, byte 58 [] 131, byte 93 [] 61, on digit [] 144,
        on hexLetter [] 128]),
    (144, [byte 46 [] 55, byte 58 [] 131, byte 93 [] 61, on digit [] 145,
        on hexLetter [] 129]),
    (145, [byte 46 [] 55, byte 58 [] 131, byte 93 [] 61, on xdigit [] 130]),
    (146, [byte 46 [] 55, byte 48 [] 147, byte 53 [] 148, byte 58 [] 131, byte 93 [] 61,
        on xdigit [] 128]),
    (147, [byte 58 [] 131, byte 93 [] 61, on digit [] 145, on hexLetter [] 129]),
    (148, [byte 48 [] 145, byte 58 [] 131, byte 93 [] 61, on xdigit [] 129]),
    (149, [byte 58 [] 131, byte 93 [] 61, on xdigit [] 128]),
    (150, [byte 49 [] 143, byte 50 [] 146, on [(2, 3)] [] 48,
        on [(48, 48), (51, 57)] [] 127, on hexLetter [] 149]),
    (151, [byte 49 [] 156, byte 50 [] 159, on [(2, 3)] [] 48,
        on [(48, 48), (51, 57)] [] 152, on hexLetter [] 162]),
    (152, [byte 46 [] 55, byte 58 [] 131, on xdigit [] 153]),
    (153, [byte 58 [] 131, on xdigit [] 154]),
    (154, [byte 58 [] 131, on xdigit [] 155]),
    (155, [byte 58 [] 131]),
    (156, [byte 46 [] 55, byte 58 [] 131, on digit [] 157, on hexLetter [] 153]),
    (157, [byte 46 [] 55, byte 58 [] 131, on digit [] 158, on hexLetter [] 154]),
    (158, [byte 46 [] 55, byte 58 [] 131, on xdigit [] 155]),
    (159, [byte 46 [] 55, byte 48 [] 160, byte 53 [] 161, byte 58 [] 131, on xdigit [] 153]),
    (160, [byte 58 [] 131, on digit [] 158, on hexLetter [] 154]),
    (161, [byte 48 [] 158, byte 58 [] 131, on xdigit [] 154]),
    (162, [byte 58 [] 131, on xdigit [] 153]),
    (163, [on [(2, 3)] [] 48, on xdigit [] 49]),
    (164, [on [(2, 3)] [] 48]),
    (165, [byte 3 [] 48]),
    (166, [byte 4 [] 48]),
    (167, [byte 58 [] 168]),
    (168, [byte 49 [] 143, byte 50 [] 146, byte 93 [] 61, on [(2, 5)] [] 48,
        on [(48, 48), (51, 57)] [] 127, on hexLetter [] 149]),
    (169, [on xdigit [] 170]),
    (170, [byte 46 [] 171, on xdigit [] 170]),
    (171, [on userinfo [] 172, whenSet moreDelims [] 172]),
    (172, [byte 93 [] 61, on userinfo [] 172, whenSet moreDelims [] 172]),
    (173, [byte 32 [.requestPath, .requestUri] 4, byte 35 [.requestPath, .requestUri] 20,
        byte 37 [] 24, byte 47 [] 26, byte 58 [] 174, byte 63 [.requestPath] 29,
        on schemeChar [] 173, on segmentNc [] 19, whenSet moreDelims [] 19]),
    (174, [byte 32 [.mark, .requestPath, .requestUri] 4,
        byte 35 [.mark, .requestPath, .requestUri] 20, byte 37 [.mark] 27,
        byte 47 [.mark] 33, byte 63 [.mark, .requestPath] 29, on pchar [.mark] 26,
        whenSet moreDelims [.mark] 26]),
    (175, [byte 32 [.requestMethod] 3, on methodChar [] 176]),
    (176, [byte 32 [.requestMethod] 3, on methodChar [] 177]),
    (177, [byte 32 [.requestMethod] 3, on methodChar [] 178]),
    (178, [byte 32 [.requestMethod] 3, on methodChar [] 179]),
    (179, [byte 32 [.requestMethod] 3, on methodChar [] 180]),
    (180, [byte 32 [.requestMethod] 3, on methodChar [] 181]),
    (181, [byte 32 [.requestMethod] 3, on methodChar [] 182]),
    (182, [byte 32 [.requestMethod] 3, on methodChar [] 183]),
    (183, [byte 32 [.requestMethod] 3, on methodChar [] 184]),
    (184, [byte 32 [.requestMethod] 3, on methodChar [] 185]),
    (185, [byte 32 [.requestMethod] 3, on methodChar [] 186]),
    (186, [byte 32 [.requestMethod] 3, on methodChar [] 187]),
    (187, [byte 32 [.requestMethod] 3, on methodChar [] 188]),
    (188, [byte 32 [.requestMethod] 3, on methodChar [] 189]),
    (189, [byte 32 [.requestMethod] 3, on methodChar [] 190]),
    (190, [byte 32 [.requestMethod] 3, on methodChar [] 191]),
    (191, [byte 32 [.requestMethod] 3, on methodChar [] 192]),
    (192, [byte 32 [.requestMethod] 3, on methodChar [] 193]),
    (193, [byte 32 [.requestMethod] 3]),
    (194, [on alphanumeric [] 195]),
    (195, [on [(9, 13), (32, 32), (47, 47), (62, 62)] [.requestPath] 196,
        on alphanumeric [] 195]),
    (196, [byte 62 [] 197, on [(0, 61), (63, 255)] [] 196]),
    (197, [byte 0 [.xml, .done] 349, byte 62 [] 197, on [(1, 61), (63, 255)] [] 196]),
    (198, [byte 32 [.requestPath] 199, byte 37 [] 203, byte 47 [] 208, on segmentNc [] 202,
        whenSet moreDelims [] 202]),
    (199, [byte 123 [.mark] 200]),
    (200, [byte 125 [] 201, on [(0, 124), (126, 255)] [] 200]),
    (201, [byte 0 [.json, .done] 349, byte 125 [] 201, on [(1, 124), (126, 255)] [] 200]),
    (202, [byte 32 [.requestPath] 199, byte 37 [] 203, byte 47 [] 205, on segmentNc [] 202,
        whenSet moreDelims [] 202]),
    (203, [on xdigit [] 204]),
    (204, [on xdigit [] 202]),
    (205, [byte 32 [.requestPath] 199, byte 37 [] 206, on pathChar [] 205,
        whenSet moreDelims [] 205]),
    (206, [on xdigit [] 207]),
    (207, [on xdigit [] 205]),
    (208, [byte 32 [.requestPath] 199, byte 37 [] 206, byte 47 [] 209, on pchar [] 205,
        whenSet moreDelims [] 205]),
    (209, [byte 32 [.requestPath] 199, byte 37 [] 211, byte 47 [] 205, byte 58 [] 213,
        byte 64 [] 217, byte 91 [] 222, on regName [] 210, whenSet moreDelims [] 210]),
    (210, [byte 32 [.requestPath] 199, byte 37 [] 211, byte 47 [] 205, byte 58 [] 213,
        byte 64 [] 217, on regName [] 210, whenSet moreDelims [] 210]),
    (211, [on xdigit [] 212]),
    (212, [on xdigit [] 210]),
    (213, [byte 32 [.requestPath] 199, byte 37 [] 215, byte 47 [] 205, byte 64 [] 217,
        on digit [] 213, on userinfo [] 214, whenSet moreDelims [] 214]),
    (214, [byte 37 [] 215, byte 64 [] 217, on userinfo [] 214, whenSet moreDelims [] 214]),
    (215, [on xdigit [] 216]),
    (216, [on xdigit [] 214]),
    (217, [byte 32 [.requestPath] 199, byte 37 [] 219, byte 47 [] 205, byte 58 [] 221,
        byte 91 [] 222, on regName [] 218, whenSet moreDelims [] 218]),
    (218, [byte 32 [.requestPath] 199, byte 37 [] 219, byte 47 [] 205, byte 58 [] 221,
        on regName [] 218, whenSet moreDelims [] 218]),
    (219, [on xdigit [] 220]),
    (220, [on xdigit [] 218]),
    (221, [byte 32 [.requestPath] 199, byte 47 [] 205, on digit [] 221]),
    (222, [byte 6 [] 223, byte 58 [] 342, byte 118 [] 344, on xdigit [] 266]),
    (223, [on xdigit [] 224]),
    (224, [byte 58 [] 228, on xdigit [] 225]),
    (225, [byte 58 [] 228, on xdigit [] 226]),
    (226, [byte 58 [] 228, on xdigit [] 227]),
    (227, [byte 58 [] 228]),
    (228, [byte 49 [] 259, byte 50 [] 262, on [(48, 48), (51, 57)] [] 229,
        on hexLetter [] 265]),
    (229, [byte 46 [] 230, byte 58 [] 255, on xdigit [] 252]),
    (230, [byte 49 [] 247, byte 50 [] 249, on [(48, 48), (51, 57)] [] 231]),
    (231, [byte 46 [] 232]),
    (232, [byte 49 [] 242, byte 50 [] 244, on [(48, 48), (51, 57)] [] 233]),
    (233, [byte 46 [] 234]),
    (234, [byte 49 [] 237, byte 50 [] 239, on [(48, 48), (51, 57)] [] 235]),
    (235, [byte 93 [] 236]),
    (236, [byte 32 [.requestPath] 199, byte 47 [] 205, byte 58 [] 221]),
    (237, [byte 93 [] 236, on digit [] 238]),
    (238, [byte 93 [] 236, on digit [] 235]),
    (239, [byte 48 [] 240, byte 53 [] 241, byte 93 [] 236]),
    (240, [on digit [] 235]),
    (241, [byte 48 [] 235]),
    (242, [byte 46 [] 234, on digit [] 243]),
    (243, [byte 46 [] 234, on digit [] 233]),
    (244, [byte 46 [] 234, byte 48 [] 245, byte 53 [] 246]),
    (245, [on digit [] 233]),
    (246, [byte 48 [] 233]),
    (247, [byte 46 [] 232, on digit [] 248]),
    (248, [byte 46 [] 232, on digit [] 231]),
    (249, [byte 46 [] 232, byte 48 [] 250, byte 53 [] 251]),
    (250, [on digit [] 231]),
    (251, [byte 48 [] 231]),
    (252, [byte 58 [] 255, on xdigit [] 253]),
    (253, [byte 58 [] 255, on xdigit [] 254]),
    (254, [byte 58 [] 255]),
    (255, [on xdigit [] 256]),
    (256, [byte 93 [] 236, on xdigit [] 257]),
    (257, [byte 93 [] 236, on xdigit [] 258]),
    (258, [byte 93 [] 236, on xdigit [] 235]),
    (259, [byte 46 [] 230, byte 58 [] 255, on digit [] 260, on hexLetter [] 252]),
    (260, [byte 46 [] 230, byte 58 [] 255, on digit [] 261, on hexLetter [] 253]),
    (261, [byte 46 [] 230, byte 58 [] 255, on xdigit [] 254]),
    (262, [byte 46 [] 230, byte 48 [] 263, byte 53 [] 264, byte 58 [] 255, on xdigit [] 252]),
    (263, [byte 58 [] 255, on digit [] 261, on hexLetter [] 253]),
    (264, [byte 48 [] 261, byte 58 [] 255, on xdigit [] 253]),
    (265, [byte 58 [] 255, on xdigit [] 252]),
    (266, [byte 58 [] 270, on xdigit [] 267]),
    (267, [byte 58 [] 270, on xdigit [] 268]),
    (268, [byte 58 [] 270, on xdigit [] 269]),
    (269, [byte 58 [] 270]),
    (270, [byte 58 [] 341, on xdigit [] 271]),
    (271, [byte 58 [] 275, on xdigit [] 272]),
    (272, [byte 58 [] 275, on xdigit [] 273]),
    (273, [byte 58 [] 275, on xdigit [] 274]),
    (274, [byte 58 [] 275]),
    (275, [byte 58 [] 340, on xdigit [] 276]),
    (276, [byte 58 [] 280, on xdigit [] 277]),
    (277, [byte 58 [] 280, on xdigit [] 278]),
    (278, [byte 58 [] 280, on xdigit [] 279]),
    (279, [byte 58 [] 280]),
    (280, [byte 58 [] 339, on xdigit [] 281]),
    (281, [byte 58 [] 285, on xdigit [] 282]),
    (282, [byte 58 [] 285, on xdigit [] 283]),
    (283, [byte 58 [] 285, on xdigit [] 284]),
    (284, [byte 58 [] 285]),
    (285, [byte 58 [] 338, on xdigit [] 286]),
    (286, [byte 58 [] 290, on xdigit [] 287]),
    (287, [byte 58 [] 290, on xdigit [] 288]),
    (288, [byte 58 [] 290, on xdigit [] 289]),
    (289, [byte 58 [] 290]),
    (290, [byte 58 [] 326, on xdigit [] 291]),
    (291, [byte 58 [] 295, on xdigit [] 292]),
    (292, [byte 58 [] 295, on xdigit [] 293]),
    (293, [byte 58 [] 295, on xdigit [] 294]),
    (294, [byte 58 [] 295]),
    (295, [byte 58 [] 325, on xdigit [] 296]),
    (296, [byte 58 [] 300, on xdigit [] 297]),
    (297, [byte 58 [] 300, on xdigit [] 298]),
    (298, [byte 58 [] 300, on xdigit [] 299]),
    (299, [byte 58 [] 300]),
    (300, [byte 58 [] 301, on xdigit [] 296]),
    (301, [byte 49 [] 318, byte 50 [] 321, byte 93 [] 236, on [(2, 3)] [] 223,
        on [(48, 48), (51, 57)] [] 302, on hexLetter [] 324]),
    (302, [byte 46 [] 230, byte 58 [] 306, byte 93 [] 236, on xdigit [] 303]),
    (303, [byte 58 [] 306, byte 93 [] 236, on xdigit [] 304]),
    (304, [byte 58 [] 306, byte 93 [] 236, on xdigit [] 305]),
    (305, [byte 58 [] 306, byte 93 [] 236]),
    (306, [byte 49 [] 311, byte 50 [] 314, on [(48, 48), (51, 57)] [] 307,
        on hexLetter [] 317]),
    (307, [byte 46 [] 230, byte 58 [] 255, byte 93 [] 236, on xdigit [] 308]),
    (308, [byte 58 [] 255, byte 93 [] 236, on xdigit [] 309]),
    (309, [byte 58 [] 255, byte 93 [] 236, on xdigit [] 310]),
    (310, [byte 58 [] 255, byte 93 [] 236]),
    (311, [byte 46 [] 230, byte 58 [] 255, byte 93 [] 236, on digit [] 312,
        on hexLetter [] 308]),
    (312, [byte 46 [] 230, byte 58 [] 255, byte 93 [] 236, on digit [] 313,
        on hexLetter [] 309]),
    (313, [byte 46 [] 230, byte 58 [] 255, byte 93 [] 236, on xdigit [] 310]),
    (314, [byte 46 [] 230, byte 48 [] 315, byte 53 [] 316, byte 58 [] 255, byte 93 [] 236,
        on xdigit [] 308]),
    (315, [byte 58 [] 255, byte 93 [] 236, on digit [] 313, on hexLetter [] 309]),
    (316, [byte 48 [] 313, byte 58 [] 255, byte 93 [] 236, on xdigit [] 309]),
    (317, [byte 58 [] 255, byte 93 [] 236, on xdigit [] 308]),
    (318, [byte 46 [] 230, byte 58 [] 306, byte 93 [] 236, on digit [] 319,
        on hexLetter [] 303]),
    (319, [byte 46 [] 230, byte 58 [] 306, byte 93 [] 236, on digit [] 320,
        on hexLetter [] 304]),
    (320, [byte 46 [] 230, byte 58 [] 306, byte 93 [] 236, on xdigit [] 305]),
    (321, [byte 46 [] 230, byte 48 [] 322, byte 53 [] 323, byte 58 [] 306, byte 93 [] 236,
        on xdigit [] 303]),
    (322, [byte 58 [] 306, byte 93 [] 236, on digit [] 320, on hexLetter [] 304]),
    (323, [byte 48 [] 320, byte 58 [] 306, byte 93 [] 236, on xdigit [] 304]),
    (324, [byte 58 [] 306, byte 93 [] 236, on xdigit [] 303]),
    (325, [byte 49 [] 318, byte 50 [] 321, on [(2, 3)] [] 223,
        on [(48, 48), (51, 57)] [] 302, on hexLetter [] 324]),
    (326, [byte 49 [] 331, byte 50 [] 334, on [(2, 3)] [] 223,
        on [(48, 48), (51, 57)] [] 327, on hexLetter [] 337]),
    (327, [byte 46 [] 230, byte 58 [] 306, on xdigit [] 328]),
    (328, [byte 58 [] 306, on xdigit [] 329]),
    (329, [byte 58 [] 306, on xdigit [] 330]),
    (330, [byte 58 [] 306]),
    (331, [byte 46 [] 230, byte 58 [] 306, on digit [] 332, on hexLetter [] 328]),
    (332, [byte 46 [] 230, byte 58 [] 306, on digit [] 333, on hexLetter [] 329]),
    (333, [byte 46 [] 230, byte 58 [] 306, on xdigit [] 330]),
    (334, [byte 46 [] 230, byte 48 [] 335, byte 53 [] 336, byte 58 [] 306, on xdigit [] 328]),
    (335, [byte 58 [] 306, on digit [] 333, on hexLetter [] 329]),
    (336, [byte 48 [] 333, byte 58 [] 306, on xdigit [] 329]),
    (337, [byte 58 [] 306, on xdigit [] 328]),
    (338, [on [(2, 3)] [] 223, on xdigit [] 224]),
    (339, [on [(2, 3)] [] 223]),
    (340, [byte 3 [] 223]),
    (341, [byte 4 [] 223]),
    (342, [byte 58 [] 343]),
    (343, [byte 49 [] 318, byte 50 [] 321, byte 93 [] 236, on [(2, 5)] [] 223,
        on [(48, 48), (51, 57)] [] 302, on hexLetter [] 324]),
    (344, [on xdigit [] 345]),
    (345, [byte 46 [] 346, on xdigit [] 345]),
    (346, [on userinfo [] 347, whenSet moreDelims [] 347]),
    (347, [byte 93 [] 236, on userinfo [] 347, whenSet moreDelims [] 347]),
    (348, [byte 58 [.writeField] 15, on token [] 14]),
    (349, [])]

end RequestTable

end Mingo.Http
