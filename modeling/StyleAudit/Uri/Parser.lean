import StyleAudit.Uri.Basic
import StyleAudit.Uri.Segment

/-!
# Reading addresses

Two spellings of one address become one: the scheme and the hosts of the web in lower case, dots
in paths resolved, services that go without saying left out, and characters that may not stand for
themselves percent-encoded. Addresses of the web take a backslash for a slash. An address of
another scheme need not have segments, and its path is then taken as it is.
-/

namespace StyleAudit.Uri

open Text

/-- Schemes of the web and the numbers of their services. -/
def webServices : List (String × Nat) :=
  [("http", 80), ("https", 443), ("ws", 80), ("wss", 443), ("ftp", 21)]

/-- The scheme of files on disk. -/
def fileScheme : String := "file"

/-- How addresses are read. -/
inductive Family
  | web
  | file
  | other
  deriving Repr, DecidableEq

def Family.ofScheme (scheme : String) : Family :=
  if scheme = fileScheme then .file
  else if (webServices.lookup scheme).isSome then .web
  else .other

/-- Whether a character is a slash in a family of addresses. -/
def Family.isSlash (f : Family) (c : Char) : Bool := c = '/' || (c = '\\' && f ≠ .other)

/-! ### Authorities -/

/-- Splits a text after the last `@`, if there is one. -/
def splitLastAt (cs : List Char) : Option (List Char × List Char) :=
  match cs.reverse.span (· ≠ '@') with
  | (after, _ :: before) => some (before.reverse, after.reverse)
  | (_, []) => none

/-- The spelling of a user name and a password. An empty password goes without its colon. -/
def credentials (cs : List Char) : String :=
  let (user, password) := cs.span (· ≠ ':')
  let password := password.drop 1
  String.ofList (encode isCredentialChar user ++
    if password.isEmpty then [] else ':' :: encode isCredentialChar password)

/-- Splits off a host, which ends at a slash or at a colon outside of brackets. -/
def splitHost (f : Family) : (bracketed : Bool) → List Char → List Char × List Char
  | _, [] => ([], [])
  | bracketed, c :: cs =>
    if f.isSlash c || (c = ':' && !bracketed) then ([], c :: cs)
    else
      let (host, rest) := splitHost f (c = '[' || (bracketed && c ≠ ']')) cs
      (c :: host, rest)

def maxService : Nat := 65535

/-- Reads the number of a service after its colon. That of the scheme goes without saying. -/
def service? (scheme : String) (cs : List Char) : Except Fault (Option Nat × List Char) := do
  let (digits, rest) := cs.span Char.isDigit
  unless rest.head?.all fun c => c = '/' || c = '\\' do throw .invalidService
  match digitsValue? 10 digits with
  | some n =>
    if maxService < n then throw .invalidService
    return (if digits.isEmpty || webServices.lookup scheme = some n then none else some n, rest)
  | none => throw .invalidService

/-- Reads a host and a service. Only addresses outside of the web may be without a host. -/
def hostAndService (scheme : String) (cs : List Char) :
    Except Fault (Option Host × Option Nat × List Char) := do
  let family := Family.ofScheme scheme
  let (text, rest) := splitHost family false cs
  if text.isEmpty then
    if family ≠ .other || rest.head? = some ':' then throw .emptyHost
    return (none, none, rest)
  let host ← if family = .other then Host.ofOther text else Host.ofWeb text
  match rest with
  | ':' :: rest =>
    let (service, rest) ← service? scheme rest
    return (some host, service, rest)
  | rest => return (some host, none, rest)

/-- Reads an authority. `more` says whether a query or a fragment follows. -/
def readAuthority (scheme : String) (more : Bool) (cs : List Char) :
    Except Fault (Authority × List Char) := do
  let (text, rest) := cs.span (!(Family.ofScheme scheme).isSlash ·)
  match splitLastAt text with
  | none =>
    let (host, service, rest) ← hostAndService scheme cs
    return (⟨"", host, service⟩, rest)
  | some (user, after) =>
    if user.isEmpty && after.isEmpty && (more || !rest.isEmpty) then throw .emptyHost
    let credentials := credentials user
    let (host, service, rest) ← hostAndService scheme (after ++ rest)
    if host.isNone && credentials ≠ "" then throw .emptyHost
    return (⟨credentials, host, service⟩, rest)

/-! ### Paths -/

/-- What follows a slash at the start. -/
def dropSlash (f : Family) : List Char → List Char
  | [] => []
  | c :: cs => if f.isSlash c then cs else c :: cs

/-- The path of the segments in `cs`. -/
def trail (f : Family) (cs : List Char) : Trail :=
  Trail.empty.addAll (f = .file) (splitBy f.isSlash cs)

/-- The path after an authority. Outside of the web it may be empty. -/
def pathAfterAuthority (f : Family) (cs : List Char) : String :=
  if f = .other && cs.isEmpty then "" else (trail f (dropSlash f cs)).text

/-! ### Families -/

/-- An address without its query and its fragment. -/
abbrev Body := Option Authority × String

/-- The path to a file without a host. -/
def localFile (cs : List Char) : Body := (some .blank, (trail .file cs).dropEmpty.text)

/-- Reads the address of a file from its host on. A drive in place of the host starts the path,
and a path on a drive has no host. -/
def fileFromHost (cs : List Char) : Except Fault Body := do
  let (text, rest) := cs.span (!Family.file.isSlash ·)
  if Segment.isDrive text then return localFile cs
  if text.isEmpty then return localFile rest
  let host ← Host.ofWeb text
  if host = .name "localhost" then return localFile rest
  let path := trail .file (dropSlash .file rest)
  return (some { Authority.blank with host := if path.onDrive then none else some host },
    path.dropEmpty.text)

/-- Reads the address of a file. -/
def fileBody (cs : List Char) : Except Fault Body :=
  match cs with
  | a :: b :: rest =>
    if Family.file.isSlash a && Family.file.isSlash b then fileFromHost rest
    else .ok (localFile (dropSlash .file cs))
  | cs => .ok (localFile (dropSlash .file cs))

/-- Reads an address from its authority on. -/
def authorityBody (scheme : String) (more : Bool) (cs : List Char) : Except Fault Body := do
  let (authority, rest) ← readAuthority scheme more cs
  return (some authority, pathAfterAuthority (.ofScheme scheme) rest)

/-- Reads what stands between the scheme and the query. -/
def body (scheme : String) (more : Bool) (cs : List Char) : Except Fault Body :=
  match Family.ofScheme scheme with
  | .file => fileBody cs
  | .web => authorityBody scheme more (cs.dropWhile Family.web.isSlash)
  | .other =>
    match cs with
    | '/' :: '/' :: rest => authorityBody scheme more rest
    | '/' :: rest => .ok (none, (trail .other rest).text)
    | cs => .ok (none, String.ofList (encode isGraphic cs))

/-- Reads an address with the given scheme, from what follows the colon. -/
def ofScheme (scheme : String) (cs : List Char) : Except Fault Uri := do
  let (main, suffix) := cs.span fun c => c ≠ '?' && c ≠ '#'
  let (query, fragment) := suffix.span (· ≠ '#')
  let (authority, path) ← body scheme (!suffix.isEmpty) main
  let isWeb := Family.ofScheme scheme ≠ .other
  let part (keep : Char → Bool) : List Char → Option String
    | [] => none
    | _ :: cs => some (String.ofList (encode keep cs))
  return ⟨scheme, authority, path, part (isQueryChar isWeb) query, part isFragmentChar fragment⟩

def isSchemeChar (c : Char) : Bool := c.isAlphanum || c = '+' || c = '-' || c = '.'

/-- Reads an address. Blanks around it and breaks within it do not count. -/
def parse (text : String) : Except Fault Uri :=
  let cs := (trim (fun c => c.toNat ≤ 32) text.toList).filter fun c =>
    !(['\t', '\n', '\r'].contains c)
  match cs.span isSchemeChar with
  | (c :: scheme, ':' :: rest) =>
    if c.isAlpha then ofScheme (String.ofList (toAsciiLower (c :: scheme))) rest
    else .error .noScheme
  | _ => .error .noScheme

end StyleAudit.Uri
