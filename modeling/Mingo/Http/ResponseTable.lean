import Mingo.Lib.Scanner

/-!
# The automaton of httpclient_parser.rl

The transitions of the scanner that Ragel generates from httpclient_parser.rl,
one row per `case` of httpclient_parser.rl.cpp, with the generated numbers of
the states: 1 is the start of a response and of the size line of a chunk, 0 the
error, and a scan ends in one of the states 120 to 123.  The first rule of a row
that fits counts.
-/

namespace Mingo.Http

open Scanner (on byte digit xdigit)

/-- The actions of httpclient_parser.rl. -/
inductive ResponseAction
  | mark
  | startField
  | writeField
  | startValue
  | writeContentLen
  | writeConnectionClose
  | writeValue
  | reasonPhrase
  | statusCode
  | httpVersion
  | chunkSize
  | transChunked
  | done
  deriving DecidableEq, Repr

namespace ResponseTable

/-- A letter in either case, given by its capital. -/
def letter (c : Nat) : List (Nat × Nat) := [(c, c), (c + 32, c + 32)]

/-- The blanks of the C locale. -/
def space : List (Nat × Nat) := [(9, 13), (32, 32)]

/-- The bytes of a token: all but controls and separators. -/
def token : List (Nat × Nat) :=
  [(33, 33), (35, 39), (42, 43), (45, 46), (48, 57), (65, 90), (94, 122), (124, 124),
    (126, 126)]

/-- Every byte. -/
def any : List (Nat × Nat) := [(0, 255)]

/-- The rows of httpclient_parser.rl.cpp. -/
def rows : Scanner.Table ResponseAction :=
  [(1, [byte 72 [.mark] 8, on xdigit [.mark] 2]),
    (2, [byte 10 [.chunkSize, .done] 120, byte 13 [.chunkSize] 3, byte 59 [.chunkSize] 4,
        on xdigit [] 2]),
    (3, [byte 10 [.done] 120]),
    (4, [on token [.startField] 5]),
    (5, [byte 10 [.writeField, .startValue, .writeValue, .done] 120,
        byte 13 [.writeField, .startValue, .writeValue] 3,
        byte 59 [.writeField, .startValue, .writeValue] 4,
        byte 61 [.writeField, .startValue] 6, on token [] 5]),
    (6, [on token [.startValue] 7]),
    (7, [byte 10 [.writeValue, .done] 120, byte 13 [.writeValue] 3,
        byte 59 [.writeValue] 4, on token [] 7]),
    (8, [byte 84 [] 9]),
    (9, [byte 84 [] 10]),
    (10, [byte 80 [] 11]),
    (11, [byte 47 [] 12]),
    (12, [on digit [] 13]),
    (13, [byte 46 [] 14, on digit [] 13]),
    (14, [on digit [] 15]),
    (15, [byte 32 [.httpVersion] 16, on digit [] 15]),
    (16, [on digit [.mark] 17]),
    (17, [byte 32 [.statusCode] 18, on digit [] 17]),
    (18, [on [(0, 9), (11, 255)] [.mark] 19]),
    (19, [byte 10 [.reasonPhrase] 20, byte 13 [.reasonPhrase] 24, on any [] 19]),
    (20, [byte 10 [.done] 120, byte 13 [] 3, on (letter 67) [.startField] 25,
        on (letter 84) [.startField] 44, on token [.startField] 21]),
    (21, [byte 58 [.writeField] 22, on token [] 21]),
    (22, [byte 10 [.startValue, .writeValue] 20, byte 13 [.startValue, .writeValue] 24,
        on space [.startValue] 22, on any [.startValue] 23]),
    (23, [byte 10 [.writeValue] 20, byte 13 [.writeValue] 24, on any [] 23]),
    (24, [byte 10 [] 20]),
    (25, [byte 58 [.writeField] 22, on (letter 79) [] 26, on token [] 21]),
    (26, [byte 58 [.writeField] 22, on (letter 78) [] 27, on token [] 21]),
    (27, [byte 58 [.writeField] 22, on (letter 78) [] 28, on (letter 84) [] 101,
        on token [] 21]),
    (28, [byte 58 [.writeField] 22, on (letter 69) [] 29, on token [] 21]),
    (29, [byte 58 [.writeField] 22, on (letter 67) [] 30, on token [] 21]),
    (30, [byte 58 [.writeField] 22, on (letter 84) [] 31, on token [] 21]),
    (31, [byte 58 [.writeField] 22, on (letter 73) [] 32, on token [] 21]),
    (32, [byte 58 [.writeField] 22, on (letter 79) [] 33, on token [] 21]),
    (33, [byte 58 [.writeField] 22, on (letter 78) [] 34, on token [] 21]),
    (34, [byte 58 [.writeField] 35, on token [] 21]),
    (35, [byte 10 [.startValue, .writeValue] 36, byte 13 [.startValue, .writeValue] 95,
        on (letter 67) [.startValue] 96, on space [.startValue] 35, on any [.startValue] 23]),
    (36, [byte 10 [.done] 122, byte 13 [] 89, on (letter 67) [.startField] 90,
        on (letter 84) [.startField] 44, on space [] 37, on token [.startField] 21]),
    (37, [on (letter 67) [] 38, on space [] 37]),
    (38, [on (letter 76) [] 39]),
    (39, [on (letter 79) [] 40]),
    (40, [on (letter 83) [] 41]),
    (41, [on (letter 69) [] 42]),
    (42, [byte 10 [] 43, byte 13 [] 88]),
    (43, [byte 10 [.writeConnectionClose, .done] 120, byte 13 [.writeConnectionClose] 3,
        on (letter 67) [.writeConnectionClose, .startField] 25,
        on (letter 84) [.writeConnectionClose, .startField] 44,
        on token [.writeConnectionClose, .startField] 21]),
    (44, [byte 58 [.writeField] 22, on (letter 82) [] 45, on token [] 21]),
    (45, [byte 58 [.writeField] 22, on (letter 65) [] 46, on token [] 21]),
    (46, [byte 58 [.writeField] 22, on (letter 78) [] 47, on token [] 21]),
    (47, [byte 58 [.writeField] 22, on (letter 83) [] 48, on token [] 21]),
    (48, [byte 58 [.writeField] 22, on (letter 70) [] 49, on token [] 21]),
    (49, [byte 58 [.writeField] 22, on (letter 69) [] 50, on token [] 21]),
    (50, [byte 58 [.writeField] 22, on (letter 82) [] 51, on token [] 21]),
    (51, [byte 45 [] 52, byte 58 [.writeField] 22, on token [] 21]),
    (52, [byte 58 [.writeField] 22, on (letter 69) [] 53, on token [] 21]),
    (53, [byte 58 [.writeField] 22, on (letter 78) [] 54, on token [] 21]),
    (54, [byte 58 [.writeField] 22, on (letter 67) [] 55, on token [] 21]),
    (55, [byte 58 [.writeField] 22, on (letter 79) [] 56, on token [] 21]),
    (56, [byte 58 [.writeField] 22, on (letter 68) [] 57, on token [] 21]),
    (57, [byte 58 [.writeField] 22, on (letter 73) [] 58, on token [] 21]),
    (58, [byte 58 [.writeField] 22, on (letter 78) [] 59, on token [] 21]),
    (59, [byte 58 [.writeField] 22, on (letter 71) [] 60, on token [] 21]),
    (60, [byte 58 [.writeField] 61, on token [] 21]),
    (61, [byte 10 [.startValue, .writeValue] 62, byte 13 [.startValue, .writeValue] 80,
        on (letter 67) [.startValue] 81, on space [.startValue] 61, on any [.startValue] 23]),
    (62, [byte 10 [.done] 121, byte 13 [] 72, on (letter 67) [.startValue, .startField] 73,
        on (letter 84) [.startField] 44, on space [] 63, on token [.startField] 21]),
    (63, [on (letter 67) [.startValue] 64, on space [] 63]),
    (64, [on (letter 72) [] 65]),
    (65, [on (letter 85) [] 66]),
    (66, [on (letter 78) [] 67]),
    (67, [on (letter 75) [] 68]),
    (68, [on (letter 69) [] 69]),
    (69, [on (letter 68) [] 70]),
    (70, [byte 10 [.writeValue, .transChunked] 20, byte 13 [.writeValue] 71]),
    (71, [byte 10 [.transChunked] 20]),
    (72, [byte 10 [.done] 121, on (letter 67) [.startValue] 64, on space [] 63]),
    (73, [byte 58 [.writeField] 22, on (letter 72) [] 74, on (letter 79) [] 26,
        on token [] 21]),
    (74, [byte 58 [.writeField] 22, on (letter 85) [] 75, on token [] 21]),
    (75, [byte 58 [.writeField] 22, on (letter 78) [] 76, on token [] 21]),
    (76, [byte 58 [.writeField] 22, on (letter 75) [] 77, on token [] 21]),
    (77, [byte 58 [.writeField] 22, on (letter 69) [] 78, on token [] 21]),
    (78, [byte 58 [.writeField] 22, on (letter 68) [] 79, on token [] 21]),
    (79, [byte 10 [.writeValue, .transChunked] 20, byte 13 [.writeValue] 71,
        byte 58 [.writeField] 22, on token [] 21]),
    (80, [byte 10 [] 62, on (letter 67) [.startValue] 64, on space [] 63]),
    (81, [byte 10 [.writeValue] 20, byte 13 [.writeValue] 24, on (letter 72) [] 82,
        on any [] 23]),
    (82, [byte 10 [.writeValue] 20, byte 13 [.writeValue] 24, on (letter 85) [] 83,
        on any [] 23]),
    (83, [byte 10 [.writeValue] 20, byte 13 [.writeValue] 24, on (letter 78) [] 84,
        on any [] 23]),
    (84, [byte 10 [.writeValue] 20, byte 13 [.writeValue] 24, on (letter 75) [] 85,
        on any [] 23]),
    (85, [byte 10 [.writeValue] 20, byte 13 [.writeValue] 24, on (letter 69) [] 86,
        on any [] 23]),
    (86, [byte 10 [.writeValue] 20, byte 13 [.writeValue] 24, on (letter 68) [] 87,
        on any [] 23]),
    (87, [byte 10 [.writeValue, .transChunked] 20, byte 13 [.writeValue] 71, on any [] 23]),
    (88, [byte 10 [] 43]),
    (89, [byte 10 [.done] 122, on (letter 67) [] 38, on space [] 37]),
    (90, [byte 58 [.writeField] 22, on (letter 76) [] 91, on (letter 79) [] 26,
        on token [] 21]),
    (91, [byte 58 [.writeField] 22, on (letter 79) [] 92, on token [] 21]),
    (92, [byte 58 [.writeField] 22, on (letter 83) [] 93, on token [] 21]),
    (93, [byte 58 [.writeField] 22, on (letter 69) [] 94, on token [] 21]),
    (94, [byte 10 [] 43, byte 13 [] 88, byte 58 [.writeField] 22, on token [] 21]),
    (95, [byte 10 [] 36, on (letter 67) [] 38, on space [] 37]),
    (96, [byte 10 [.writeValue] 20, byte 13 [.writeValue] 24, on (letter 76) [] 97,
        on any [] 23]),
    (97, [byte 10 [.writeValue] 20, byte 13 [.writeValue] 24, on (letter 79) [] 98,
        on any [] 23]),
    (98, [byte 10 [.writeValue] 20, byte 13 [.writeValue] 24, on (letter 83) [] 99,
        on any [] 23]),
    (99, [byte 10 [.writeValue] 20, byte 13 [.writeValue] 24, on (letter 69) [] 100,
        on any [] 23]),
    (100, [byte 10 [.writeValue] 43, byte 13 [.writeValue] 88, on any [] 23]),
    (101, [byte 58 [.writeField] 22, on (letter 69) [] 102, on token [] 21]),
    (102, [byte 58 [.writeField] 22, on (letter 78) [] 103, on token [] 21]),
    (103, [byte 58 [.writeField] 22, on (letter 84) [] 104, on token [] 21]),
    (104, [byte 45 [] 105, byte 58 [.writeField] 22, on token [] 21]),
    (105, [byte 58 [.writeField] 22, on (letter 76) [] 106, on token [] 21]),
    (106, [byte 58 [.writeField] 22, on (letter 69) [] 107, on token [] 21]),
    (107, [byte 58 [.writeField] 22, on (letter 78) [] 108, on token [] 21]),
    (108, [byte 58 [.writeField] 22, on (letter 71) [] 109, on token [] 21]),
    (109, [byte 58 [.writeField] 22, on (letter 84) [] 110, on token [] 21]),
    (110, [byte 58 [.writeField] 22, on (letter 72) [] 111, on token [] 21]),
    (111, [byte 58 [.writeField] 112, on token [] 21]),
    (112, [byte 10 [.startValue, .writeValue] 113, byte 13 [.startValue, .writeValue] 118,
        on space [.startValue] 112, on digit [.startValue] 119, on any [.startValue] 23]),
    (113, [byte 10 [.done] 123, byte 13 [] 116, on (letter 67) [.startField] 25,
        on (letter 84) [.startField] 44, on space [] 114,
        on digit [.startValue, .startField] 117, on token [.startField] 21]),
    (114, [on space [] 114, on digit [.startValue] 115]),
    (115, [byte 10 [.writeContentLen, .writeValue] 20,
        byte 13 [.writeContentLen, .writeValue] 24, on digit [] 115]),
    (116, [byte 10 [.done] 123, on space [] 114, on digit [.startValue] 115]),
    (117, [byte 10 [.writeContentLen, .writeValue] 20,
        byte 13 [.writeContentLen, .writeValue] 24, byte 58 [.writeField] 22,
        on digit [] 117, on token [] 21]),
    (118, [byte 10 [] 113, on space [] 114, on digit [.startValue] 115]),
    (119, [byte 10 [.writeContentLen, .writeValue] 20,
        byte 13 [.writeContentLen, .writeValue] 24, on digit [] 119, on any [] 23]),
    (120, []),
    (121, [on (letter 67) [.startValue] 64, on space [] 63]),
    (122, [on (letter 67) [] 38, on space [] 37]),
    (123, [on space [] 114, on digit [.startValue] 115])]

end ResponseTable

end Mingo.Http
