import StyleAudit.Path
import StyleAudit.Uri.Host

/-!
# Addresses of documents

Editors name documents by their addresses. An address is kept in parts, each in its one spelling.
-/

namespace StyleAudit

/-- Who and where, in an address that says so. -/
structure Uri.Authority where
  /-- The user name, with the password after a colon. -/
  credentials : String
  host : Option Uri.Host
  /-- The number of the service at the host, unless it is that of the scheme. -/
  service : Option Nat
  deriving Repr, DecidableEq

/-- The address of a document. -/
structure Uri where
  scheme : String
  authority : Option Uri.Authority
  path : String
  query : Option String
  fragment : Option String
  deriving Repr, DecidableEq

namespace Uri

/-- An authority that says nothing. -/
def Authority.blank : Authority := ⟨"", none, none⟩

def Authority.text (a : Authority) : String :=
  (if a.credentials = "" then "" else a.credentials ++ "@") ++
    (a.host.map Host.text).getD "" ++
    (a.service.map fun n => s!":{n}").getD ""

/-- The spelling of an address. Without an authority, a path with an empty first segment has a dot
before it, so that the segment is not taken for an authority. -/
def text (u : Uri) : String :=
  let start := match u.authority with
    | some authority => "//" ++ authority.text
    | none => if "//".toList.isPrefixOf u.path.toList then "/." else ""
  u.scheme ++ ":" ++ start ++ u.path ++
    (u.query.map ("?" ++ ·)).getD "" ++ (u.fragment.map ("#" ++ ·)).getD ""

/-- Whether an address is about this machine: its host is not given, or is its own name. -/
def isLocal (u : Uri) : Bool :=
  match u.authority.bind (·.host) with
  | none => true
  | some host => host = .name "localhost"

/-- Whether a byte is an ASCII letter. -/
def isLetter (b : UInt8) : Bool := (65 ≤ b && b ≤ 90) || (97 ≤ b && b ≤ 122)

/-- The place on disk that a path of segments names. Its bytes need not be a text. A drive at the
end is a directory. -/
def placeOf (path : List Char) : Path :=
  let decoded := decodeBytes path
  let drive := match decoded.reverse with
    | mark :: b :: _ :: _ => (mark = 58 || mark = 124) && isLetter b
    | _ => false
  ⟨if drive then decoded ++ [Path.separator] else decoded⟩

/-- The place on disk that an address names, if it has a path of segments on this machine. -/
def filePath? (u : Uri) : Option Path :=
  if u.isLocal && u.path.toList.head? = some '/' then some (placeOf u.path.toList) else none

end Uri

end StyleAudit
