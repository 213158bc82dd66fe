/-
Ranges of character codes, as the Unicode standard publishes them.

A property of characters is a list of ranges.  The lists below hold the ranges
beyond the first 128 codes only; the modules that use them state the rule for
those directly.  The tables are kept as lines of entries with a blank between two,
and all numbers are in hexadecimal.
-/
import ReactiveMarkup.Text.Quoted

namespace ReactiveMarkup.Text

def inRanges (ranges : List (Nat × Nat)) (n : Nat) : Bool :=
  ranges.any fun r => r.1 ≤ n && n ≤ r.2

structure Run where
  first : Nat
  last : Nat
  step : Nat

def Run.has (r : Run) (n : Nat) : Bool :=
  r.first ≤ n && n ≤ r.last && (n - r.first) % r.step == 0

/-! ### How the tables are written -/

def hexNumber (digits : List Char) : Nat :=
  digits.foldl (fun n c => n * 16 + (hexValue? c).getD 0) 0

def tableEntries (lines : List String) : List (List Char) :=
  lines.flatMap fun line => splitBy (· == ' ') line.toList

/-- Ranges in turn, after the code `last`.  An entry says how far the first code of a range is from
the last one before it, and how many more there are after a hyphen. -/
def rangesAfter : Nat → List (List Char) → List (Nat × Nat)
  | _, [] => []
  | last, entry :: rest =>
    let first := last + hexNumber (entry.takeWhile (· != '-'))
    let last := first + hexNumber ((entry.dropWhile (· != '-')).drop 1)
    (first, last) :: rangesAfter last rest

/-- Runs in turn, likewise.  A second hyphen comes before the step of a run, if it is not 1. -/
def runsAfter : Nat → List (List Char) → List Run
  | _, [] => []
  | last, entry :: rest =>
    let numbers := (splitBy (· == '-') entry).map hexNumber
    let first := last + numbers.headD 0
    let last := first + numbers.getD 1 0
    ⟨first, last, numbers.getD 2 1⟩ :: runsAfter last rest

/-- Runs with how far down or up their codes are to be moved, and the codes that follow then. -/
def changes (entries : List (List Char)) : List (Run × Int × List Nat) :=
  let isRun : Char → Bool := fun c => c != '<' && c != '>'
  (runsAfter 0 (entries.map (·.takeWhile isRun))).zip <| entries.map fun entry =>
    match (splitBy (· == '+') (entry.dropWhile isRun)).map fun s => (s, hexNumber s) with
    | (mark, n) :: more => (if mark.head? = some '<' then -n else n, more.map Prod.snd)
    | [] => (0, [])

/-! ### The tables -/

def identifierStarts : List (Nat × Nat) := rangesAfter 0 <| tableEntries [
  "aa b 5 6-16 2-1e 2-1c9 5-b f-4 8 2 82-4 2-1 3-3 2 7 2-2 2 2-13 2-52 2-8a 9-a5 2-25 3 7-28",
  "48-1a 5-3 2e-2a 24-1 2-62 2 10-1 8-1 b-2 3 11 2-1d 1e-58 c 19-20 a-1 5 6-15 5 a 4 18-18 8-a",
  "6-17 2-6 11-29 3b-35 4 13 8-9 10-f 5-7 3-1 3-15 2-6 2 4-3 4 11 e-1 2-2 f-1 b 9-5 5-1 3-15 2-6",
  "2-1 2-1 2-1 20-3 2 14-2 11-8 2-2 2-15 2-6 2-1 2-4 4 13 10-1 18 c-7 3-1 3-15 2-6 2-1 2-4 4",
  "1f-1 2-2 10 12 2-5 4-2 2-3 4-1 2 2-1 4-1 4-2 4-b 17 35-7 2-2 2-16 2-f 4 1b-2 2-1 3-1 1f 5-7",
  "2-2 2-16 2-9 2-4 4 1f-2 2-1 10-1 12-8 2-2 2-28 3 11 6-2 9-2 19-5 6-11 4-17 2-8 2 3-6 3b-2f",
  "2-1 d-6 3b-1 2 2-4 2-17 2 2-9 2-1 a 3-4 2 16-3 21 40-7 2-23 1c-4 74-2a 15 11-5 5-3 4 4-1 8-2",
  "5-c d 12-25 2 6 3-2a 2-14c 2-3 3-6 2 2-3 3-28 2-3 3-20 2-3 3-6 2 2-3 3-e 2-38 2-3 3-42 26-f",
  "11-55 3-5 4-26b 3-10 2-19 6-4a 4-a 8-11 e-12 f-11 f-c 2-2 10-33 24 5 44-58 8-28 2 6-45 b-1e",
  "32-1d 3-4 c-2b 5-19 37-16 a-34 53 5e-2e 12-7 37-1d e-1 b-2b 1b-23 2a-2 b-23 3-a 6-2a 3-2 2a-3",
  "2-5 2-1 4 6-bf 41-115 3-5 3-25 3-5 3-7 2 2 2 2-1e 3-34 2-6 2 4-2 2-6 4-3 3-5 5-c 6-2 2-6 75 e",
  "11-c 66 5 3-9 2 3-5 7 2 2 2-f 3-3 6-4 5 12-28 a78-e4 7-3 4-1 d-25 2 6 3-37 8 11-16 a-6 2-6",
  "2-6 2-6 2-6 2-6 2-6 2-6 227-2 1a-8 8-4 3-4 5-55 5-4 2-59 2-3 6-2a 2-5d 12-1f 31-f 201-19bf",
  "41-568c 44-2d 3-10c 4-f b-1 15-2e 11-1e 3-4f 28-8 3-66 3-51 15-10 2-2 2-3 2-16 1e-33 f-31",
  "3f-5 4 2-1 c-1b b-16 1a-1c 8-2e 1d 11-4 2-9 b-4 2-28 18-2 2-7 15-16 4 4-31 2 4-1 3-4 3 2 19-2",
  "3-a 8-2 d-5 3-5 3-5 a-6 2-6 2-2a 2-d 7-72 1e-2ba3 d-16 5-30 2105-16d 3-69 27-6 d-4 6 2-9 2-c",
  "2-4 2 2-1 2-1 2-6b 22-16a 13-3f 3-35 29-b 75-4 2-86 25-19 7-19 c-58 4-5 3-5 3-5 3-2 24-b 2-19",
  "2-12 2-1 2-e 3-d 23-7a 46-34 10c-1c 4-30 30-1f e-1d 6-25 b-1d 3-23 5-7 2-4 2b-9d 13-23 5-23",
  "5-27 9-33 d-a 2-e 2-6 2-1 2-a 2-e 2-6 2-1 4-33 d-136 a-15 b-7 19-5 2-29 2-8 46-5 3 2-2b 2-1 4",
  "3-16 b-16 a-1e 42-12 2-1 b-15 b-19 7-19 27-37 7-1 41 10-3 2-2 2-1c 2b-1c 4-1c 24-7 2-1b 1c-35",
  "b-15 b-12 e-11 6f-48 38-32 e-32 e-23 27-1b a-16 fb-29 7-1 11-5 39-1c b 9-15 2b-11 2f-14 1c-16",
  "d-34 3a-1 3 e-2c 21-18 1b-23 1e 3 9-22 4 d-2f f-3 16 2 24-11 2-18 14-1 40-6 2 2-3 2-e 2-9",
  "8-2e 27-7 3-1 3-15 2-6 2-1 2-4 4 13 d-4 1f-9 2 3 2-25 2 1a 2 2d-34 13-3 15-2 1f-2f 15-1 2",
  "b9-2e 2a-3 25-2f 15 3c-2a e 48-1a 26-6 ba-2b 75-3f 20-7 3 3-7 2-1 2-17 10 2 5f-7 3-26 11 2 1d",
  "b-27 8 16 c-2d 14 13-48 c8-20 20-8 2-24 12 32-1d 71-6 2-1 2-25 16 1a-5 2-1 2-1f f 18-2b",
  "105-12 10 2-c 2-21 7d 50-399 67-6e 12-c3 a4d-60 10-42f 12-5 1a-f9a 6-246 1aba-1d 6e3-238 8-1e",
  "12-4e 12-1d 13-2f 11-3 20-14 6-12 1b1-2c d4-3f 21-18 3-18 2d-4a 6 43-c 41-1 2 f-4 a-1cd5",
  "2a-1f 62-72 21fe-3 2-6 2-1 2-122 10 1e-2 3 f-3 9-18b 905-6a 6-c 4-8 8-9 1767-54 2-46 2-1 3",
  "3-1 3-3 2-b 2 2-6 2-40 2-3 3-7 2-6 2-1b 2-3 2-4 2 4-6 2-153 3-18 2-18 2-1e 2-18 2-1e 2-18",
  "2-1e 2-18 2-1e 2-18 2-7 735-1e 7-5 106-3d 93-2c b-6 11 142-1d 13-2b 1e5-1b e5-1d 3 d0-1e 2-2",
  "2-1 2-6 3-4 a-1 e1-6 2-3 2-1 2-e 2-c4 3c-43 8 4b5-3 2-1a 2-1 2 3 2-9 2-3 2 2 7 5 2 2 2-2 2-1",
  "2 3 2 2 2 2 2-1 2 3-3 2-6 2-3 2-3 2 2-9 2-10 6-2 2-4 2-10 1145-a6df 21-111d 3-168d 3-1d30",
  "10-26d 9a3-21d 5e3-134a 6-2129"]

def identifierParts : List (Nat × Nat) := rangesAfter 0 <| tableEntries [
  "b7 249-6f 18 fc-4 10a-2c 2 2-1 2-1 2 49-a 31-1e 7 66-6 3-5 3-1 2-3 3-9 18 1f-1a 5c-a 10-9",
  "22-8 a 19-3 2-8 2-2 2-4 2c-2 3c-8 2b-17 2-20 37-2 2-11 2-6 b-1 3-9 12-2 39 2-6 3-1 3-2 a b-1",
  "3-9 f 3-2 39 2-4 5-1 3-2 4 15-b 4 c-2 39 2-7 2-2 2-2 15-1 3-9 b-5 2-2 39 2-6 3-1 3-2 8-2 b-1",
  "3-9 13 3c-4 4-2 2-3 a f-9 11-4 38 2-6 2-2 2-3 8-1 c-1 3-9 12-2 39 2-6 2-2 2-3 8-1 c-1 3-9 4",
  "d-3 38-1 2-6 2-2 2-3 a b-1 3-9 12-2 47 5-5 2 2-7 7-9 3-1 3e 3-6 d-7 2-9 58 3-8 c-6 2-9 3f-1",
  "7-9 c 2 2 5-1 32-13 2-1 6-a 2-23 a 65-13 2-9 d-3 5-2 2-2 3-6 4-3 e-b 2-e 2c0-2 a-8 3a1-3 1d-2",
  "1e-1 1f-1 41-1f a 3-9 22-2 2-a 90 77-b 5-b b-9 81-a 3d-4 3a-9 2-1c 3-a 7-9 17-d 2-1e 3-b 15-4",
  "30-10 c-9 12-8 d-2 1f-c 3-9 2d-d 31-13 9-9 7-9 77-2 2-14 5 7 3-2 c7-3f 20d-1 32-1 14 7c-c 5",
  "4-b bff-2 8e 61-1f 22b-5 6a-1 61 7525-9 46 5-9 21-1 51-1 111 4 5 18-4 5 54-1 33-11 b-9 7-11",
  "e-a 1d-7 1a-c 2d-3 30-d 10-9 c b-9 30-d d 9-1 3-9 22-2 33 2-2 3-1 6-1 2 2a-4 6-1 ed-7 2-1 3-9",
  "4f25 2e2-f 11-f 4-1 19-2 c1-9 26 26 298 e3 96-4 126-9 558-2 2-1 6-3 29-2 5 a6-1 23e-3 9-9 7-9",
  "20-4 13e-1 4e-5 47-a 32-3 7b-2 36-e 20-a 3-1 b-3 2e-a 8 2e-9 7-2 25-d 2-9 6-1 2d d-2 31-d 9-3",
  "2-b 53-b 7 3 9e-b 6-9 7-3 38-1 2-6 3-1 3-2 a b-1 3-6 4-4 44-8 2 3 2-3 2-4 2 f-1 53-11 a-9 5",
  "52-13 d-9 d6-6 3-8 1c-1 53-10 10-9 52-c 9-9 7-13 3a-e 5-9 f3-e a6-9 47-5 2-1 3-3 2 2-1 d-9",
  "78-6 3-6 4 1d-9 29-6 2-3 9 a-a 2f-f c7-7 89-9 36-7 2-7 11-9 39-15 2-d 7b-5 4 2-1 2-6 2 9-9",
  "31-4 2-1 2-4 9-9 37-9 10a-3 a-1 2 31-6 4-4 e-a 14e6 7-e 2cc9-1b 927-9 57-9 27-4 3c-6 1a-9",
  "217-9 1d6 2-36 8-3 52 c-1 4cac-1 1052-9 207-2d 3-16 21f-4 4-5 9-7 3-6 1f-3 95-2 58a-31 201-36",
  "5-31 9 f 17-4 2-e 551-6 2-10 3-6 2-1 2-4 65 a1-6 a-9 165 3e-d 1f3-d f5-1 2-9 e9 3 8-1 6 1db-6",
  "6e-6 6-9 1297-9 c0507-ef"]

/-- Word characters that no name may hold. -/
def wordsOnly : List (Nat × Nat) := rangesAfter 0 <| tableEntries [
  "488-1 1635 61f-3 2-2 3d2-33 946 7841-2 14abe-19 7-19 7-19"]

/-- Characters of names that are no word characters. -/
def notWords : List (Nat × Nat) := rangesAfter 0 <| tableEntries [
  "b7 2d0 fe2-8 669 73e 16 f6d-1 5f ce6a"]

def capitals : List Run := runsAfter 0 <| tableEntries [
  "c0-16 2-6 22-36-2 3-e-2 3-2c-2 2-1 2-2-2 4-1 2 2-1 2-2 3-3 2-1 2-2 4-1 2-1 2-2-2 2-1 2 3 2-1",
  "2-2 2 2-1 4 8 3 3 3-e-2 3-10-2 3 3 2-2 2-38-2 8-1 2-1 3 2-3 2-6-2 122-2-2 4 9 7 2-2 2 2-1 2-10",
  "2-8 24 3-2 4-16-2 6 3 2-1 3-32 31-20-2 a-34-2 2-1 2-a-2 3-5e-2 3-25 b4a-25 2 6 2d3-55 894 7-2a",
  "3-2 141-94-2 a-60-2 a-7 9-5 b-7 9-7 9-5 c-6-2 9-7 49-3 d-3 d-3 d-4 c-3 107 5 4-2 3-2 3 4-4",
  "7-4-2 2-3 3-3 b-1 6 1b-f 14 333-19 731-2f 31 2-2 3-4-2 2-3 2 3 9-2 2-60-2 9-2-2 5 794e-2c-2",
  "14-1a-2 88-c-2 4-3c-2 b-2-2 2-1 2-6-2 5-2-2 3-2-2 4-12-2 2-4 2-4 2-c-2 2-3 2 2-1 2-e-2 19",
  "572c-19 4c6-27 89-23 9d-a 2-e 2-6 2-1 6eb-32 9e-15 b3b-1f 5581-1f 41-18 6548-19 1b-19 1b-19 1b",
  "2-1 3 3-1 3-3 2-7 1b-19 1b-1 2-3 3-7 2-6 1c-1 2-3 2-4 2 4-6 1c-19 1b-19 1b-19 1b-19 1b-19 1b-19",
  "1f-18 22-18 22-18 22-18 22-18 22 1136-21 80f-19 7-19 7-19"]

/-- Characters whose upper case is another text. -/
def capitalTexts : List (Run × Int × List Nat) := changes <| tableEntries [
  "b5>2e7 2a<8c+53 1-16<20 2-6<20 1>79 2-2e-2<1 2<e8 2-4-2<1 3-e-2<1 1>173+4e 2-2c-2<1 3-4-2<1",
  "1<12c 1>c3 3-2-2<1 3<1 4<1 6<1 3>61 4<1 1>a3 1>a641 3>82 3-4-2<1 3<1 5<1 3<1 4-2-2<1 3<1 4<1",
  "2>38 6<1 1<2 2<1 1<2 2<1 1<2 2-e-2<1 1<4f 2-10-2<1 1<1a6+30c 2<1 1<2 2<1 4-26-2<1 4-10-2<1 9<1",
  "3-1>2a3f 2<1 5-8-2<1 1>2a1f 1>2a1c 1>2a1e 1<d2 1<ce 2-1<cd 2<ca 2<cb 1>a54f 4<cd 1>a54b 2<cf",
  "1>a567 1>a528 1>a544 2<d1 1<d3 1>a544 1>29f7 1>a541 3<d3 2>29fd 1<d5 3<d6 8>29e7 3<da 2>a543",
  "1<da 4>a52a 1<da 1<45 1-1<d9 1<47 6<db b>a515 1>a512 a7>54 2c-2-2<1 4<1 4-2>82 13>9+308+301",
  "1c<26 1-2<25 1<b+308+301 1-10<20 1<1f 1-8<20 1<40 1-1<3f 2<3e 1<39 4<2f 1<36 1<8 2-16-2<1 1<56",
  "1<50 1>7 1<74 2<60 3<1 3<1 35-1f<20 1-f<50 2-20-2<1 a-34-2<1 3-c-2<1 1<f 2-5e-2<1 32-25<30",
  "1<52+552 b49-2a>bc0 3-2>bc0 2f9-5<8 883<186e 1<186d 1<1864 1-1<1862 1<1863 1<185c 1<1825 1>89c2",
  "2<1 ef>8a04 4>ee6 11>8a38 73-94-2<1 1<1e4e+331 1<1e43+308 1<1e41+30a 1<1e40+30a 1<1e59+2be 1<3b",
  "6-5e-2<1 1-7>8 9-5>8 b-7>8 9-7>8 9-5>8 b<1bab+313 1>8 1<1bad+313+300 1>8 1<1baf+313+301 1>8",
  "1<1bb1+313+342 1>8 9-7>8 9-1>4a 1-3>56 1-1>64 1-1>80 1-1>70 1-1>7e 3-7<78+399 1-7<80+399",
  "1-7<68+399 1-7<70+399 1-7<38+399 1-7<40+399 1-1>8 1>8+399 1<1c22+399 1<1c2e+399 2<1c25+342",
  "1<1c26+342+399 5<1c2b+399 2<1c25 4>8+399 1<1c2c+399 1<1c3b+399 2<1c2f+342 1<1c30+342+399",
  "5<1c35+399 4-1>8 1<1c39+308+300 1<1c3a+308+301 3<1c3d+342 1<1c3e+308+342 9-1>8 1<1c3d+308+300",
  "1<1c3e+308+301 1<1c43+313 1>7 1<1c41+342 1<1c42+308+342 b>8+399 1<1c4a+399 1<1c65+399",
  "2<1c4d+342 1<1c4e+342+399 5<1c53+399 152<1c 22-f<10 5<1 34c-19<1a 747-2f<30 2<1 4<2a2b 1<2a28",
  "2-4-2<1 7<1 3<1 b-62-2<1 9-2-2<1 5<1 d-25<1c60 2<1c60 6<1c60 7914-2c-2<1 14-1a-2<1 88-c-2<1",
  "4-3c-2<1 b-2-2<1 3-8-2<1 5<1 5-2-2<1 1>30 3-12-2<1 c-e-2<1 5-2-2<1 3-e-2<1 1b<1 35d<3a0",
  "1d-4f<97d0 4f41<faba+46 1<fabb+49 1<fabc+4c 1<fabd+46+49 1<fabe+46+4c 1<fab2+54 1<fab3+54",
  "d<f5cf+546 1<f5d0+535 1<f5d1+53b 1<f5c8+546 1<f5d3+53d 42a-19<20 4ce-27<28 89-23<28 9c-a<27",
  "2-e<27 2-6<27 2-1<27 704-32<40 7e-15<20 b3b-1f<20 5581-1f<20 3c-18<1b 7a4f-21<22"]

end ReactiveMarkup.Text
