import StyleAudit.Uri.Domain
import StyleAudit.Uri.Encoding

/-!
# Hosts

The host of an address is a name or a number. On the web, a name whose last label is a number is
an IPv4 address, in any of its spellings, and brackets enclose an IPv6 address.
-/

namespace StyleAudit.Uri

/-- Why a text is not an address. -/
inductive Fault
  | noScheme
  | emptyHost
  | invalidDomain
  | invalidHostCharacter
  | invalidIpv4
  | invalidIpv6
  | invalidService
  deriving Repr, DecidableEq

def Fault.message : Fault → String
  | noScheme => "relative URL without a base"
  | emptyHost => "empty host"
  | invalidDomain => "invalid international domain name"
  | invalidHostCharacter => "invalid domain character"
  | invalidIpv4 => "invalid IPv4 address"
  | invalidIpv6 => "invalid IPv6 address"
  | invalidService => "invalid port number"

inductive Host
  | name (text : String)
  | ipv4 (address : Nat)
  /-- Eight groups of 16 bits. -/
  | ipv6 (groups : List Nat)
  deriving Repr, DecidableEq

/-! ### IPv4 -/

/-- The number that digits of a base stand for. Without digits it is zero. -/
def digitsValue? (base : Nat) (cs : List Char) : Option Nat :=
  cs.foldlM (fun n c => do
    let d ← hexValue? c
    if d < base then some (n * base + d) else none) 0

/-- The value of a part of an IPv4 address: hexadecimal after `0x`, octal after another `0`. -/
def ipv4Number? : List Char → Option Nat
  | [] => none
  | ['0'] => some 0
  | '0' :: 'x' :: cs | '0' :: 'X' :: cs => digitsValue? 16 cs
  | '0' :: cs => digitsValue? 8 cs
  | cs => digitsValue? 10 cs

/-- The labels of a name without an empty last one. -/
def properLabels (cs : List Char) : List (List Char) :=
  let labels := Domain.labels cs
  if labels.length > 1 && labels.getLast? = some [] then labels.dropLast else labels

/-- Whether the last label of a name is a number. -/
def endsInNumber (cs : List Char) : Bool :=
  (properLabels cs).getLast?.any fun label =>
    (!label.isEmpty && label.all Char.isDigit) || (ipv4Number? label).isSome

/-- The address with the given parts. The last part fills all bytes that are left. -/
def ipv4OfParts? (size : Nat) : (parts : List Nat) → Option Nat
  | [] => none
  | [last] => if last < size then some last else none
  | part :: more =>
    if part < 256 then (ipv4OfParts? (size / 256) more).map (part * (size / 256) + ·) else none

/-- An IPv4 address of one to four parts. -/
def ipv4? (cs : List Char) : Option Nat := do
  let parts ← (properLabels cs).mapM ipv4Number?
  if parts.length ≤ 4 then ipv4OfParts? 4294967296 parts else none

/-- The spelling of an IPv4 address. -/
def ipv4Text (n : Nat) : String :=
  s!"{n / 16777216}.{n / 65536 % 256}.{n / 256 % 256}.{n % 256}"

/-! ### IPv6 -/

def ipv6Group? (cs : List Char) : Option Nat :=
  if cs.isEmpty || cs.length > 4 then none else digitsValue? 16 cs

/-- A byte in decimal, without leading zeros. -/
def decimalByte? (cs : List Char) : Option Nat := do
  let n ← digitsValue? 10 cs
  if cs ≠ [] ∧ n < 256 ∧ (cs.length = 1 ∨ cs.head? ≠ some '0') then some n else none

/-- An IPv4 address at the end of an IPv6 address, as its last two groups. -/
def ipv6Tail? (cs : List Char) : Option (List Nat) := do
  match ← (Domain.labels cs).mapM decimalByte? with
  | [a, b, c, d] => some [a * 256 + b, c * 256 + d]
  | _ => none

/-- The groups of parts of an IPv6 address. The last part may be an IPv4 address if `tail`. -/
def ipv6Groups? (tail : Bool) : List (List Char) → Option (List Nat)
  | [] => some []
  | [last] => (ipv6Group? last).map ([·]) <|> if tail then ipv6Tail? last else none
  | part :: more => do return (← ipv6Group? part) :: (← ipv6Groups? tail more)

/-- The groups of a text, which may be empty. -/
def ipv6Side? (tail : Bool) (cs : List Char) : Option (List Nat) :=
  if cs.isEmpty then some [] else ipv6Groups? tail (Text.splitBy (· = ':') cs)

/-- The eight groups of an IPv6 address. Two colons stand for at least one group of zero. -/
def ipv6? (cs : List Char) : Option (List Nat) := do
  match Text.breakOn "::".toList cs with
  | (before, ':' :: ':' :: after) =>
    let before ← ipv6Side? false before
    let after ← ipv6Side? true after
    let missing := 8 - (before.length + after.length)
    if missing = 0 then none else some (before ++ List.replicate missing 0 ++ after)
  | _ =>
    let groups ← ipv6Side? true cs
    if groups.length = 8 then some groups else none

/-- The length of the run of zeros at the start. -/
def zeroRun (groups : List Nat) : Nat := (groups.takeWhile (· = 0)).length

/-- The place and the length of the first longest run of zeros, when the run of length `length` at
`place` is known and `groups` start at `offset`. -/
def longestZeroRun (place length offset : Nat) : (groups : List Nat) → Nat × Nat
  | [] => (place, length)
  | g :: groups =>
    let run := zeroRun (g :: groups)
    if length < run then longestZeroRun offset run (offset + 1) groups
    else longestZeroRun place length (offset + 1) groups

def groupsText (groups : List Nat) : String :=
  String.intercalate ":" (groups.map fun g => String.ofList (Nat.toDigits 16 g))

/-- The spelling of an IPv6 address. The longest run of at least two zeros is left out. -/
def ipv6Text (groups : List Nat) : String :=
  let (place, length) := longestZeroRun 0 1 0 groups
  if length < 2 then groupsText groups
  else groupsText (groups.take place) ++ "::" ++ groupsText (groups.drop (place + length))

/-! ### All hosts -/

def Host.text : Host → String
  | name text => text
  | ipv4 address => ipv4Text address
  | ipv6 groups => "[" ++ ipv6Text groups ++ "]"

/-- The IPv6 address that `cs` holds before a closing bracket at its end. -/
def bracketed (cs : List Char) : Except Fault Host :=
  match cs.reverse with
  | ']' :: inner =>
    match ipv6? inner.reverse with
    | some groups => .ok (.ipv6 groups)
    | none => .error .invalidIpv6
  | _ => .error .invalidIpv6

def Host.ofWeb (cs : List Char) : Except Fault Host :=
  match cs with
  | '[' :: rest => bracketed rest
  | cs =>
    match (decode? cs).bind Domain.ascii? with
    | none => .error .invalidDomain
    | some [] => .error .emptyHost
    | some domain =>
      if endsInNumber domain then
        match ipv4? domain with
        | some address => .ok (.ipv4 address)
        | none => .error .invalidIpv4
      else .ok (.name (String.ofList domain))

/-- Whether no host has the character. -/
def isForbiddenHostChar (c : Char) : Bool :=
  ['\x00', '\t', '\n', '\r', ' ', '#', '/', ':', '<', '>', '?', '@', '[', '\\', ']', '^', '|']
    |>.contains c

/-- A host of a scheme outside of the web, which is kept as it is written. -/
def Host.ofOther (cs : List Char) : Except Fault Host :=
  match cs with
  | '[' :: rest => bracketed rest
  | cs =>
    if cs.any isForbiddenHostChar then .error .invalidHostCharacter
    else .ok (.name (String.ofList (encode isGraphic cs)))

end StyleAudit.Uri
