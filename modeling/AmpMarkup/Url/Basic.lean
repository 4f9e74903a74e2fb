import AmpMarkup.Text.Space
import AmpMarkup.Url.Address
import AmpMarkup.Url.Domain

/-! What kind of reference a URL value is: none, a relative one, or an absolute one with its scheme.
An absolute one is read as far as its host and port, since nothing after them can be wrong. -/

namespace AmpMarkup.Url

/-- Why a value is no URL. -/
inductive Fault where
  | emptyHost
  | invalidPort
  | invalidIpv4
  | invalidIpv6
  | invalidHostCharacter
  | invalidDomain
deriving DecidableEq, Repr, Inhabited

/-- The wording of a fault. -/
def Fault.message : Fault → Text
  | emptyHost => "empty host"
  | invalidPort => "invalid port number"
  | invalidIpv4 => "invalid IPv4 address"
  | invalidIpv6 => "invalid IPv6 address"
  | invalidHostCharacter => "invalid domain character"
  | invalidDomain => "invalid international domain name"

/-- What a value is as a URL. -/
inductive Kind where
  | empty
  | relative
  | absolute (scheme : Text)
  | invalid (fault : Fault)
deriving DecidableEq, Repr, Inhabited

/-- How a scheme treats what follows it. -/
inductive SchemeKind where
  | file
  | special
  | plain
deriving DecidableEq, Repr, Inhabited

/-- The kind of a scheme in lower case. -/
def SchemeKind.ofScheme (scheme : Text) : SchemeKind :=
  if scheme = "file" then .file
  else if scheme = "http" ∨ scheme = "https" ∨ scheme = "ws" ∨ scheme = "wss" ∨ scheme = "ftp" then
    .special
  else .plain

/-- Whether a character can stand in a scheme after its first letter. -/
def isSchemeChar (c : Char) : Bool :=
  c.isAlphanum || c == '+' || c == '-' || c == '.'

/-- The scheme of a text in lower case, and what follows the colon after it. -/
def splitScheme? (t : Text) : Option (Text × Text) :=
  match t.takeWhile isSchemeChar, t.dropWhile isSchemeChar with
  | c :: scheme, ':' :: rest => if c.isAlpha then some (Text.lower (c :: scheme), rest) else none
  | _, _ => none

/-- The part of a text before the first character of a class, and the text from there on. -/
def breakAt (p : Char → Bool) (t : Text) : Text × Text :=
  (t.takeWhile fun c => !p c, t.dropWhile fun c => !p c)

/-- Whether a character ends the part of a URL that names a server. -/
def endsAuthority (kind : SchemeKind) (c : Char) : Bool :=
  c == '/' || c == '?' || c == '#' || (kind != .plain && c == '\\')

/-- The host at the front of a text, up to a colon outside of brackets, and the rest. -/
def splitHost (brackets : Bool) : Text → Text × Text
  | [] => ([], [])
  | c :: t =>
    if c = ':' ∧ !brackets then ([], c :: t)
    else
      let (host, rest) := splitHost (c == '[' || (brackets && c != ']')) t
      (c :: host, rest)

/-- Whether a host of a scheme without special rules may not contain a character. -/
def isForbiddenInHost (c : Char) : Bool :=
  "\x00\t\n\r #/:<>?@[\\]^|".toList.contains c

/-- A fault of an IPv6 address in brackets. -/
def bracketFault? (host : Text) : Option Fault :=
  match host with
  | '[' :: inner =>
    if inner.getLast? = some ']' ∧ isIpv6 inner.dropLast then none else some .invalidIpv6
  | _ => some .invalidIpv6

/-- A fault of a host that is an address or a domain name. -/
def hostFault? (host : Text) : Option Fault :=
  if host.head? = some '[' then bracketFault? host
  else
    match domain? (percentDecoded host) with
    | none => some .invalidDomain
    | some [] => some .emptyHost
    | some name => if endsInNumber name && !isIpv4 name then some .invalidIpv4 else none

/-- A fault of a host of a scheme without special rules. -/
def plainHostFault? (host : Text) : Option Fault :=
  if host.head? = some '[' then bracketFault? host
  else if host.any isForbiddenInHost then some .invalidHostCharacter
  else none

/-- A fault of what follows a host: a colon and a port of 16 bits, which may be missing. -/
def portFault? (rest : Text) : Option Fault :=
  match rest with
  | ':' :: rest =>
    let (port, _) := breakAt (fun c => c == '/' || c == '\\' || c == '?' || c == '#') rest
    if port.all Char.isDigit && Text.numeral 10 port < UInt16.size then none else some .invalidPort
  | _ => none

/-- The text after the last `@`, and the text before it. -/
def splitUser (authority : Text) : Option Text × Text :=
  if authority.any (· == '@') then
    let host := (authority.reverse.takeWhile (· != '@')).reverse
    (some (authority.take (authority.length - host.length - 1)), host)
  else (none, authority)

/-- A fault of the part of a URL that names a server: a user, a host and a port. A user without a
host is a fault, unless there is nothing to the user but a colon. -/
def authorityFault? (kind : SchemeKind) (t : Text) : Option Fault :=
  let (authority, path) := breakAt (endsAuthority kind) t
  let (user, server) := splitUser authority
  let (host, port) := splitHost false server
  if user = some [] ∧ server.isEmpty ∧ !path.isEmpty then some .emptyHost
  else if kind = .special ∧ host.isEmpty then some .emptyHost
  else
    match if kind = .plain then plainHostFault? host else hostFault? host with
    | some fault => some fault
    | none =>
      if host.isEmpty ∧ !port.isEmpty then some .emptyHost
      else
        match portFault? (port ++ path) with
        | some fault => some fault
        | none =>
          if host.isEmpty ∧ user.any (fun u => u != [] && u != [':']) then some .emptyHost
          else none

/-- Whether a host is the letter of a drive. -/
def isDrive (host : Text) : Bool :=
  match host with
  | [c, mark] => c.isAlpha && (mark == ':' || mark == '|')
  | _ => false

/-- A fault of what follows the scheme of a file. -/
def fileFault? (rest : Text) : Option Fault :=
  match rest with
  | a :: b :: rest =>
    if (a == '/' || a == '\\') && (b == '/' || b == '\\') then
      let (host, _) := breakAt (endsAuthority .file) rest
      if host.isEmpty || isDrive host then none else hostFault? host
    else none
  | _ => none

/-- A fault of what follows a scheme. -/
def fault? (kind : SchemeKind) (rest : Text) : Option Fault :=
  match kind with
  | .file => fileFault? rest
  | .special => authorityFault? .special (rest.dropWhile fun c => c == '/' || c == '\\')
  | .plain =>
    match rest with
    | '/' :: '/' :: rest => authorityFault? .plain rest
    | _ => none

/-- What a text is as a URL, given that it is not blank. Control characters and spaces around it do
not count, tabs and line ends nowhere. -/
def classifyText (t : Text) : Kind :=
  let t := (t.trim fun c => c.toNat ≤ 0x20).filter fun c => c != '\t' && c != '\n' && c != '\r'
  match splitScheme? t with
  | none => .relative
  | some (scheme, rest) =>
    match fault? (.ofScheme scheme) rest with
    | some fault => .invalid fault
    | none => .absolute scheme

/-- What a value is as a URL. -/
def classify (value : Text) : Kind :=
  if value.trimSpace.isEmpty then .empty else classifyText value.trimSpace

end AmpMarkup.Url
