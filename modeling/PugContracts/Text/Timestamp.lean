import PugContracts.Text.Blank
import PugContracts.Text.Decimal

/-!
# Points in time as text

A saved document carries the time of its writing, `2025-01-31T12:00:00.250Z`. Nothing is done with
it but to check that it is a time. The reader is lenient: a blank may stand for the `T` and around
the numbers, the year may carry a sign, and any offset from UTC may be given.
-/

namespace PugContracts.Text

/-! ### The calendar -/

/-- Whether a year has 366 days. -/
def isLeapYear (year : Int) : Bool :=
  year % 4 == 0 && (year % 100 != 0 || year % 400 == 0)

/-- The lengths of the months of a year. -/
def monthLengths (leap : Bool) : List Nat :=
  [31, if leap then 29 else 28, 31, 30, 31, 30, 31, 31, 30, 31, 30, 31]

/-- Whether a date exists. -/
def isDate (year : Int) (month day : Nat) : Bool :=
  match month with
  | 0 => false
  | month + 1 =>
    match (monthLengths (isLeapYear year))[month]? with
    | none => false
    | some length => 1 ≤ day && day ≤ length

/-- The month and the day, both counted from one, of a day of the year. -/
def monthAndDay (month day : Nat) : List Nat → Nat × Nat
  | [] => (month, day + 1)
  | length :: rest =>
    if day < length then (month, day + 1) else monthAndDay (month + 1) (day - length) rest

/-- The number of days of a year. -/
def yearLength (year : Nat) : Nat :=
  if isLeapYear year then 366 else 365

theorem yearLength_pos (year : Nat) : 0 < yearLength year := by
  unfold yearLength
  split <;> omega

/-- The year, the month and the day of a number of days after the first day of `year`. -/
def dateAfter (year days : Nat) : Nat × Nat × Nat :=
  if days < yearLength year then (year, monthAndDay 1 days (monthLengths (isLeapYear year)))
  else dateAfter (year + 1) (days - yearLength year)
termination_by days
decreasing_by
  have := yearLength_pos year
  omega

/-! ### Writing -/

/-- The digits of a number, filled up with zeros. -/
def zeroPadded (width n : Nat) : String :=
  let digits := toString n
  String.ofList (List.replicate (width - digits.length) '0') ++ digits

/-- The time that is a number of milliseconds after the start of 1970. -/
def timestamp (milliseconds : Nat) : String :=
  let seconds := milliseconds / 1000
  let fraction := milliseconds % 1000
  let (year, month, day) := dateAfter 1970 (seconds / 86400)
  (if year < 10000 then "" else "+") ++ zeroPadded 4 year ++ "-" ++ zeroPadded 2 month ++ "-" ++
    zeroPadded 2 day ++ "T" ++ zeroPadded 2 (seconds / 3600 % 24) ++ ":" ++
    zeroPadded 2 (seconds / 60 % 60) ++ ":" ++ zeroPadded 2 (seconds % 60) ++
    (if fraction = 0 then "" else "." ++ zeroPadded 3 fraction) ++ "Z"

/-! ### Reading -/

/-- A number of at most `width` digits after blanks, and the text after it. -/
def fieldNumber? (width : Nat) (cs : List Char) : Option (Nat × List Char) :=
  let cs := trimStart cs
  let digits := (cs.take width).takeWhile Char.isDigit
  if digits.isEmpty then none else some (digitsValue digits, cs.drop digits.length)

/-- A year, and the text after it. Only a year with a sign may have more than four digits. -/
def year? (cs : List Char) : Option (Int × List Char) :=
  let signed (sign : Int) (rest : List Char) : Option (Int × List Char) :=
    let digits := rest.takeWhile Char.isDigit
    if digits.isEmpty then none else some (sign * digitsValue digits, rest.drop digits.length)
  match trimStart cs with
  | '-' :: rest => signed (-1) rest
  | '+' :: rest => signed 1 rest
  | _ => (fieldNumber? 4 cs).map fun (year, rest) => ((year : Int), rest)

/-- The text after blanks and a mark. -/
def afterMark? (mark : Char) (cs : List Char) : Option (List Char) :=
  afterPrefix? [mark] (trimStart cs)

/-- The first and the last year that can be told. -/
def isYear (year : Int) : Bool :=
  -262143 ≤ year && year ≤ 262142

/-- The text after a date. -/
def afterDate? (cs : List Char) : Option (List Char) := do
  let (year, cs) ← year? cs
  let (month, cs) ← fieldNumber? 2 (← afterMark? '-' cs)
  let (day, cs) ← fieldNumber? 2 (← afterMark? '-' cs)
  if isYear year && isDate year month day then return cs else none

/-- The text after a fraction of a second, if there is one. -/
def afterFraction? (cs : List Char) : Option (List Char) :=
  match cs with
  | '.' :: rest => if rest.head?.any Char.isDigit then some (rest.dropWhile Char.isDigit) else none
  | _ => some cs

/-- The text after a time of the day. -/
def afterTime? (cs : List Char) : Option (List Char) := do
  let (hour, cs) ← fieldNumber? 2 cs
  let (minute, cs) ← fieldNumber? 2 (← afterMark? ':' cs)
  let (second, cs) ← fieldNumber? 2 (← afterMark? ':' cs)
  let cs ← afterFraction? cs
  if hour < 24 && minute < 60 && second ≤ 60 then return cs else none

/-- The text after an offset from UTC. -/
def afterOffset? (cs : List Char) : Option (List Char) :=
  match cs with
  | 'Z' :: rest | 'z' :: rest => some rest
  | sign :: h :: h' :: rest =>
    if sign.toLower == 'u' && h.toLower == 't' && h'.toLower == 'c' then some rest
    else if sign == '+' || sign == '-' || sign == '\u2212' then
      match rest.dropWhile fun c => c == ':' || isBlank c with
      | m :: m' :: rest =>
        let digits := [h, h', m, m'].all Char.isDigit
        if digits && digitsValue [h, h'] < 24 && digitsValue [m, m'] < 60 then some rest else none
      | _ => none
    else none
  | _ => none

/-- Whether a text is a point in time. -/
def isTimestamp (text : String) : Bool :=
  let remainder : Option (List Char) := do
    match ← afterDate? text.toList with
    | [] => none
    | mark :: rest =>
      if mark == 't' || mark == 'T' || mark == ' ' then
        afterOffset? (trimStart (← afterTime? rest))
      else none
  remainder.any isAllBlank

end PugContracts.Text
