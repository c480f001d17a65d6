import Runbook.Url.Address
import Runbook.Url.Domain
import Runbook.Numeric.Decimal

/-!
# Addresses of the web

Absolute addresses by the URL standard: blanks and line ends are cleaned away, the well-known schemes need a host and take
backslashes for slashes, dots in paths are resolved, and each part is percent-encoded. There is no base, so a relative address
is an error.
-/

namespace Runbook

inductive UrlError where
  | relative
  | emptyHost
  | invalidPort
  | invalidIpv4
  | invalidIpv6
  | invalidDomain
  | invalidHostChar
  deriving DecidableEq, Repr

def UrlError.message : UrlError → String
  | relative => "relative URL without a base"
  | emptyHost => "empty host"
  | invalidPort => "invalid port number"
  | invalidIpv4 => "invalid IPv4 address"
  | invalidIpv6 => "invalid IPv6 address"
  | invalidDomain => "invalid international domain name"
  | invalidHostChar => "invalid domain character"

/-- An absolute address. The path of an address that is not hierarchical is one opaque text. -/
structure Url where
  scheme : List Char
  username : List Char
  password : List Char
  host : Option (List Char)
  port : Option Nat
  path : List Char
  query : Option (List Char)
  fragment : Option (List Char)
  deriving DecidableEq, Repr

namespace Url

/-- The default ports of the schemes with a host of their own kind; `file` has none. -/
def defaultPort? (scheme : List Char) : Option Nat :=
  if scheme = "http".toList || scheme = "ws".toList then some 80
  else if scheme = "https".toList || scheme = "wss".toList then some 443
  else if scheme = "ftp".toList then some 21
  else none

def isFile (scheme : List Char) : Bool := scheme = "file".toList

/-- The schemes that the standard knows. -/
def isSpecial (scheme : List Char) : Bool := (defaultPort? scheme).isSome || isFile scheme

/-- Controls and spaces, which are cut off at both ends. -/
def isControlOrSpace (c : Char) : Bool := c.toNat ≤ 0x20

/-- The characters that are dropped wherever they stand. -/
def isTabOrNewline (c : Char) : Bool := c = '\t' || c = '\n' || c = '\r'

def clean (s : List Char) : List Char :=
  ((s.dropWhile isControlOrSpace).reverse.dropWhile isControlOrSpace).reverse.filter (!isTabOrNewline ·)

def isSchemeChar (c : Char) : Bool := c.isAlphanum || c = '+' || c = '-' || c = '.'

/-- The scheme in lower case, and what follows its colon. -/
def cutScheme? (s : List Char) : Option (List Char × List Char) :=
  match s with
  | c :: _ =>
    if c.isAlpha then
      match s.span isSchemeChar with
      | (scheme, ':' :: rest) => some (scheme.map Char.toLower, rest)
      | _ => none
    else none
  | [] => none

/-- A slash, or for a special scheme also a backslash. -/
def isSlash (special : Bool) (c : Char) : Bool := c = '/' || (special && c = '\\')

/-- The end of the part that names the server. -/
def endsAuthority (special : Bool) (c : Char) : Bool := isSlash special c || c = '?' || c = '#'

/-- The host without brackets around an IPv6 address. -/
def hostOf (special : Bool) (s : List Char) : Except UrlError (List Char) :=
  match s with
  | '[' :: inner =>
    if inner.getLast? = some ']' then
      match ipv6? inner.dropLast with
      | some pieces => .ok ('[' :: ipv6Text pieces ++ [']'])
      | none => .error .invalidIpv6
    else .error .invalidIpv6
  | s =>
    if special then
      match (String.fromUTF8? ⟨(percentDecode s).toArray⟩).bind fun name => domainToAscii? name.toList with
      | none => .error .invalidDomain
      | some [] => .error .emptyHost
      | some name =>
        if endsInNumber name then
          match ipv4? name with
          | some address => .ok (ipv4Text address)
          | none => .error .invalidIpv4
        else .ok name
    else if s.any isForbiddenInHost then .error .invalidHostChar
    else .ok (percentEncode inControlSet s)
where
  /-- The characters that no host of any scheme may hold. -/
  isForbiddenInHost (c : Char) : Bool :=
    ['\x00', '\t', '\n', '\r', ' ', '#', '/', ':', '<', '>', '?', '@', '[', '\\', ']', '^', '|'].contains c

/-- The host up to a colon outside of brackets, and the rest. -/
def cutHost (bracketed : Bool) : List Char → List Char × List Char
  | [] => ([], [])
  | c :: rest =>
    if c = ':' && !bracketed then ([], c :: rest)
    else
      let bracketed := if c = '[' then true else if c = ']' then false else bracketed
      let (host, rest) := cutHost bracketed rest
      (c :: host, rest)

/-- The port after a colon, none when there are no digits. -/
def portOf (s : List Char) : Except UrlError (Option Nat) :=
  if s.all Char.isDigit then
    if s.isEmpty then .ok none
    else
      let n := Decimal.natOfDigits s
      if n < 2 ^ 16 then .ok (some n) else .error .invalidPort
  else .error .invalidPort

/-- Splits the part before the last `@` off, if there is one. -/
def cutUserinfo (s : List Char) : Option (List Char) × List Char :=
  match s.reverse.span (· != '@') with
  | (_, []) => (none, s)
  | (host, _ :: user) => (some user.reverse, host.reverse)

/-- The segments of a path between slashes. -/
def splitSlashes (special : Bool) (s : List Char) : List (List Char) :=
  match s with
  | [] => [[]]
  | c :: rest =>
    if isSlash special c then [] :: splitSlashes special rest
    else match splitSlashes special rest with
      | part :: parts => (c :: part) :: parts
      | [] => [[c]]

/-- A segment for the directory itself. -/
def isSingleDot (s : List Char) : Bool := s = ['.'] || s.map Char.toLower = "%2e".toList

/-- A segment for the directory above. -/
def isDoubleDot (s : List Char) : Bool :=
  let s := s.map Char.toLower
  s = "..".toList || s = "%2e.".toList || s = ".%2e".toList || s = "%2e%2e".toList

/-- Adds segments to a path; `..` takes the last one away, and a dot at the end leaves an empty segment. -/
def resolveDots (done : List (List Char)) : List (List Char) → List (List Char)
  | [] => done
  | s :: rest =>
    let last := rest.isEmpty
    if isDoubleDot s then resolveDots (done.dropLast ++ if last then [[]] else []) rest
    else if isSingleDot s then resolveDots (done ++ if last then [[]] else []) rest
    else resolveDots (done ++ [s]) rest

/-- The path of an address with slashes. -/
def pathText (special : Bool) (s : List Char) : List Char :=
  match s with
  | [] => if special then ['/'] else []
  | c :: rest =>
    let body := if isSlash special c then rest else c :: rest
    let segments := resolveDots [] ((splitSlashes special body).map (percentEncode inPathSet))
    segments.flatMap ('/' :: ·)

/-- Cuts a text at the first of some characters, which stays with the second part. -/
def cutAt (cs : List Char) (s : List Char) : List Char × List Char := s.span fun c => !cs.contains c

/-- Reads path, query and fragment into an address. -/
def withRest (u : Url) (path : List Char → List Char) (s : List Char) : Url :=
  let special := isSpecial u.scheme
  let (rawPath, rest) := cutAt ['?', '#'] s
  let (query, rest) := match rest with
    | '?' :: r => let (q, r) := cutAt ['#'] r; (some q, r)
    | r => (none, r)
  let fragment := match rest with
    | '#' :: r => some r
    | _ => none
  { u with
    path := path rawPath
    query := query.map (percentEncode (if special then inSpecialQuerySet else inQuerySet))
    fragment := fragment.map (percentEncode inFragmentSet) }

/-- An address of which only the scheme is known. -/
def ofScheme (scheme : List Char) : Url := ⟨scheme, [], [], none, none, [], none, none⟩

/-- Reads what follows the two slashes of an address with a server. -/
def withServer (scheme s : List Char) : Except UrlError Url := do
  let special := isSpecial scheme
  let (authority, rest) := s.span (!endsAuthority special ·)
  let (userinfo, server) := cutUserinfo authority
  if userinfo = some [] && server.isEmpty && !rest.isEmpty then throw .emptyHost
  let (username, password) := match (userinfo.getD []).span (· != ':') with
    | (name, _ :: password) => (name, password)
    | (name, []) => (name, [])
  let (hostText, portText) := cutHost false server
  if hostText.isEmpty && (special || !username.isEmpty || !password.isEmpty) then throw .emptyHost
  let host ← hostOf special hostText
  if host.isEmpty && !portText.isEmpty then throw .emptyHost
  let port ← portOf (portText.drop 1)
  let u := { ofScheme scheme with
    username := percentEncode inUserinfoSet username
    password := percentEncode inUserinfoSet password
    host := some host
    port := if port = defaultPort? scheme then none else port }
  return u.withRest (pathText special) rest

/-- A letter and a colon or bar, which is no host of a file. -/
def isDriveLetter (s : List Char) : Bool :=
  match s with
  | [c, d] => c.isAlpha && (d = ':' || d = '|')
  | _ => false

/-- Whether a path begins with a drive letter. -/
def startsWithDrive (path : List Char) : Bool :=
  path.head?.any (isSlash true) && isDriveLetter ((path.drop 1).takeWhile (!endsAuthority true ·))

/-- Reads an address of a file; its host may be missing. `localhost` counts as missing, and so does any host of a path that begins
with a drive letter. -/
def ofFile (scheme s : List Char) : Except UrlError Url := do
  let u := { ofScheme scheme with host := some [] }
  match s with
  | a :: b :: rest =>
    if isSlash true a && isSlash true b then
      let (name, path) := rest.span (!endsAuthority true ·)
      if name.isEmpty || isDriveLetter name then return u.withRest (pathText true) rest
      else
        let host ← hostOf true name
        let missing := host = "localhost".toList || startsWithDrive path
        return { u with host := some (if missing then [] else host) }.withRest (pathText true) path
    else return u.withRest (pathText true) s
  | s => return u.withRest (pathText true) s

/-- The absolute address that a text spells. -/
def parse (text : String) : Except UrlError Url :=
  match cutScheme? (clean text.toList) with
  | none => .error .relative
  | some (scheme, rest) =>
    if isFile scheme then ofFile scheme rest
    else if isSpecial scheme then withServer scheme (rest.dropWhile (isSlash true))
    else match rest with
      | '/' :: '/' :: rest => withServer scheme rest
      | '/' :: _ => .ok ((ofScheme scheme).withRest (pathText false) rest)
      | rest => .ok ((ofScheme scheme).withRest (percentEncode inControlSet) rest)

/-- The host as it appears in the address, none when it is missing or empty. -/
def hostText? (u : Url) : Option String :=
  match u.host with
  | none | some [] => none
  | some h => some (String.ofList h)

/-- The text of an address without user name and password. -/
def text (u : Url) : String :=
  String.ofList (u.scheme ++ ':' :: (match u.host with
    | some h => '/' :: '/' :: h ++ (match u.port with
      | some p => ':' :: Nat.toDigits 10 p
      | none => [])
    | none => if (u.path.take 2) = ['/', '/'] then ['/', '.'] else [])
    ++ u.path
    ++ (match u.query with
      | some q => '?' :: q
      | none => [])
    ++ (match u.fragment with
      | some f => '#' :: f
      | none => []))

/-- Adds pairs to the query, each name and value in the form of query pairs. -/
def addPairs (u : Url) (pairs : List (String × String)) : Url :=
  let encoded := pairs.map fun (k, v) => formEncode k.toList ++ '=' :: formEncode v.toList
  let given := match u.query with
    | some q => if q.isEmpty then [] else [q]
    | none => []
  { u with query := some (['&'].intercalate (given ++ encoded)) }

/-- A reader of addresses. -/
class Reader where
  read : String → Except UrlError Url

/-- What reads addresses unless another reader is given. -/
instance : Reader := ⟨parse⟩

end Url

end Runbook
