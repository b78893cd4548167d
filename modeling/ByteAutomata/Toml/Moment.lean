import ByteAutomata.Toml.Number

/-! # Dates and times

A moment is a date, a time of day, or both with the offset of a time zone or without. -/
namespace ByteAutomata.Toml.Moment

def number? (text : List Char) : Option Nat :=
  if text.all Char.isDigit then some (digitsValue 10 text) else none

def isLeapYear (year : Nat) : Bool := year % 4 = 0 && (year % 100 != 0 || year % 400 = 0)

def daysOf (year month : Nat) : Nat :=
  if month = 2 then if isLeapYear year then 29 else 28
  else if month = 4 ∨ month = 6 ∨ month = 9 ∨ month = 11 then 30
  else 31

def afterDate? : List Char → Option (List Char)
  | y :: y' :: y'' :: y''' :: '-' :: m :: m' :: '-' :: d :: d' :: rest => do
    let year ← number? [y, y', y'', y''']
    let month ← number? [m, m']
    let day ← number? [d, d']
    if 1 ≤ month ∧ month ≤ 12 ∧ 1 ≤ day ∧ day ≤ daysOf year month then some rest else none
  | _ => none

/-- What follows a fraction of a second, if there is one. -/
def afterFraction? (text : List Char) : Option (List Char) :=
  match text with
  | '.' :: d :: rest => if d.isDigit then some (rest.dropWhile Char.isDigit) else none
  | '.' :: [] => none
  | _ => some text

/-- What follows a time of day; a minute may have a leap second. -/
def afterTime? : List Char → Option (List Char)
  | h :: h' :: ':' :: m :: m' :: ':' :: s :: s' :: rest => do
    let hour ← number? [h, h']
    let minute ← number? [m, m']
    let second ← number? [s, s']
    if hour < 24 ∧ minute < 60 ∧ second ≤ 60 then afterFraction? rest else none
  | _ => none

def isOffset : List Char → Bool
  | ['Z'] => true
  | ['z'] => true
  | [sign, h, h', ':', m, m'] =>
    (sign == '+' || sign == '-') && (number? [h, h']).any (· < 24) && (number? [m, m']).any (· < 60)
  | _ => false

def isZonedTime (text : List Char) : Bool :=
  (afterTime? text).any fun rest => rest.isEmpty || isOffset rest

def isDate (text : List Char) : Bool := afterDate? text == some []

def isTime (text : List Char) : Bool := afterTime? text == some []

/-- Whether a text is a moment, where the letter between date and time is `T`. -/
def isMoment (text : List Char) : Bool :=
  isTime text ||
    match afterDate? text with
    | none => false
    | some [] => true
    | some (t :: time) => (t == 'T' || t == 't') && isZonedTime time

end ByteAutomata.Toml.Moment
