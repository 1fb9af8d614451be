/-!
# TOML scalars

Numbers, dates and times of a TOML document. Each function takes the whole spelling of a scalar,
which ends at a blank, a comma, a closing bracket or a comment.
-/

namespace StyleAudit.Toml

/-- The value of a digit in a base up to sixteen. -/
def digit? (base : Nat) (c : Char) : Option Nat :=
  let n := c.toNat
  let value :=
    if 48 ≤ n ∧ n ≤ 57 then n - 48
    else if 97 ≤ n ∧ n ≤ 102 then n - 87
    else if 65 ≤ n ∧ n ≤ 70 then n - 55
    else base
  if value < base then some value else none

/-- The number that digits stand for, after a number `acc` that ends in a digit or not. A `_` may
stand between two digits. -/
def digitsFrom (base : Nat) : (acc : Nat) → (afterDigit : Bool) → List Char → Option Nat
  | acc, afterDigit, [] => if afterDigit then some acc else none
  | acc, afterDigit, c :: cs =>
    if c = '_' then if afterDigit then digitsFrom base acc false cs else none
    else do digitsFrom base (acc * base + (← digit? base c)) true cs

def digits? (base : Nat) (cs : List Char) : Option Nat := digitsFrom base 0 false cs

/-- The number that decimal digits without a leading zero stand for. -/
def decimal? : List Char → Option Nat
  | ['0'] => some 0
  | '0' :: _ => none
  | cs => digits? 10 cs

/-- The sign of a number and what follows it. -/
def signed : List Char → Bool × List Char
  | '-' :: cs => (true, cs)
  | '+' :: cs => (false, cs)
  | cs => (false, cs)

/-- Integers are smaller than this, and not smaller than its negative. -/
def integerBound : Int := 9223372036854775808

/-- An integer of 64 bits. -/
def inRange? (n : Int) : Option Int :=
  if -integerBound ≤ n ∧ n < integerBound then some n else none

/-- An integer: decimal with an optional sign, or in base sixteen, eight or two without one. -/
def integer? : List Char → Option Int
  | '0' :: 'x' :: cs => (digits? 16 cs).bind fun n => inRange? n
  | '0' :: 'o' :: cs => (digits? 8 cs).bind fun n => inRange? n
  | '0' :: 'b' :: cs => (digits? 2 cs).bind fun n => inRange? n
  | cs =>
    let (negative, cs) := signed cs
    (decimal? cs).bind fun n => inRange? (if negative then -n else n)

/-- The number that an exponent raises ten to. -/
def exponent? : List Char → Option Int
  | c :: cs =>
    if c = 'e' || c = 'E' then
      let (negative, cs) := signed cs
      (digits? 10 cs).map fun n => if negative then -n else n
    else none
  | [] => none

/-- The least number that is nearer to infinity than to a finite number of 64 bits. -/
def infinityBound : Nat := Nat.pow 2 1024 - Nat.pow 2 970

/-- The decimal digits of `infinityBound`. -/
def infinityDigits : Int := 309

/-- Whether the number of the digits `cs`, times ten to the power of `scale`, rounds to infinity.
Only a number with as many digits as the bound has to be compared with it. -/
def isInfinite (cs : List Char) (scale : Int) : Bool :=
  let cs := (cs.filter Char.isDigit).dropWhile (· = '0')
  match digits? 10 cs with
  | none => false
  | some n =>
    let length := cs.length + scale
    if length = infinityDigits then
      n * Nat.pow 10 scale.toNat ≥ infinityBound * Nat.pow 10 (-scale).toNat
    else length > infinityDigits

/-- Characters of a run of digits. -/
def inDigits (c : Char) : Bool := c.isDigit || c = '_'

/-- Whether `cs` is a number with a fraction or an exponent, or one of the words for infinity and
for no number. A number that is too large is refused, but one that is too small is not. -/
def isFloat (cs : List Char) : Bool :=
  let (negative, cs) := signed cs
  if cs = "inf".toList || cs = "nan".toList then true
  else
    let (whole, rest) := cs.span inDigits
    let (point, fraction, rest) := match rest with
      | '.' :: rest => (true, rest.span inDigits)
      | rest => (false, [], rest)
    let exponent := if point && rest.isEmpty then some 0 else exponent? rest
    (decimal? whole).isSome && (!point || (digits? 10 fraction).isSome) &&
      exponent.any fun e =>
        negative || !isInfinite (whole ++ fraction) (e - (fraction.filter Char.isDigit).length)

/-- A number of exactly `count` digits at the start, and what follows. -/
def fixed? (count : Nat) (cs : List Char) : Option (Nat × List Char) :=
  let head := cs.take count
  if head.length = count ∧ head.all Char.isDigit then
    (digits? 10 head).map fun n => (n, cs.drop count)
  else none

/-- What follows the character `c` at the start. -/
def skip? (c : Char) : List Char → Option (List Char)
  | d :: cs => if c = d then some cs else none
  | [] => none

def isLeapYear (year : Nat) : Bool := year % 4 = 0 && (year % 100 ≠ 0 || year % 400 = 0)

def daysIn (year month : Nat) : Nat :=
  if month = 2 then if isLeapYear year then 29 else 28
  else if [4, 6, 9, 11].contains month then 30
  else 31

/-- What follows a date at the start. -/
def afterDate? (cs : List Char) : Option (List Char) := do
  let (year, cs) ← fixed? 4 cs
  let (month, cs) ← fixed? 2 (← skip? '-' cs)
  let (day, cs) ← fixed? 2 (← skip? '-' cs)
  if 1 ≤ month ∧ month ≤ 12 ∧ 1 ≤ day ∧ day ≤ daysIn year month then some cs else none

/-- What follows a time of day at the start. -/
def afterTime? (cs : List Char) : Option (List Char) := do
  let (hour, cs) ← fixed? 2 cs
  let (minute, cs) ← fixed? 2 (← skip? ':' cs)
  let (second, cs) ← fixed? 2 (← skip? ':' cs)
  if hour ≤ 23 ∧ minute ≤ 59 ∧ second ≤ 60 then
    match cs with
    | '.' :: rest =>
      let fraction := rest.takeWhile Char.isDigit
      if fraction.isEmpty then none else some (rest.drop fraction.length)
    | cs => some cs
  else none

/-- Whether `cs` is empty or an offset from universal time. -/
def isOffset : List Char → Bool
  | [] | ['Z'] | ['z'] => true
  | c :: cs =>
    (c = '+' || c = '-') && (do
      let (hour, cs) ← fixed? 2 cs
      let (minute, cs) ← fixed? 2 (← skip? ':' cs)
      if hour ≤ 23 ∧ minute ≤ 59 ∧ cs.isEmpty then some () else none).isSome

/-- Whether `cs` is a time of day, with an offset if `zoned`. -/
def isTime (zoned : Bool) (cs : List Char) : Bool :=
  match afterTime? cs with
  | some rest => if zoned then isOffset rest else rest.isEmpty
  | none => false

/-- Whether `cs` is a date, alone or with a time of day after it. -/
def isDate (cs : List Char) : Bool :=
  match afterDate? cs with
  | some [] => true
  | some (c :: time) => (c = 'T' || c = 't') && isTime true time
  | none => false

/-- Whether `cs` is a date without a time. -/
def isPlainDate (cs : List Char) : Bool := afterDate? cs = some []

end StyleAudit.Toml
