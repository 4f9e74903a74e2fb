import AmpMarkup.Text.Numeral

/-! Numeric addresses of hosts in their written forms. -/

namespace AmpMarkup.Url

/-- The number of a part of an IPv4 address: decimal, octal after a zero, or hexadecimal after `0x`.
The bare marks of octal and hexadecimal are zero. -/
def partNumber? (t : Text) : Option Nat :=
  let read (base : Nat) (p : Char → Bool) (digits : Text) : Option Nat :=
    if digits.all p then some (Text.numeral base digits) else none
  match t with
  | [] => none
  | '0' :: 'x' :: digits | '0' :: 'X' :: digits => read 16 isHexDigit digits
  | '0' :: c :: digits => read 8 (fun c => '0' ≤ c && c ≤ '7') (c :: digits)
  | digits => read 10 Char.isDigit digits

/-- The parts of a host between dots. An empty last part is left out. -/
def hostParts (host : Text) : List Text :=
  let parts := Text.splitOn '.' host
  if 1 < parts.length ∧ parts.getLast? = some [] then parts.dropLast else parts

/-- Whether the last part of a host is a number, which makes the host an IPv4 address. -/
def endsInNumber (host : Text) : Bool :=
  match (hostParts host).getLast? with
  | none => false
  | some last => (!last.isEmpty && last.all Char.isDigit) || (partNumber? last).isSome

/-- Whether a host is an IPv4 address: at most four numbers, the last of which fills the bytes that
the others leave. -/
def isIpv4 (host : Text) : Bool :=
  match (hostParts host).mapM partNumber? with
  | none => false
  | some numbers =>
    numbers.length ≤ 4 && numbers.dropLast.all (· < 256) &&
      numbers.getLast?.any (· < Nat.pow 256 (5 - numbers.length))

/-- Whether a text is four decimal numbers of one byte each, without leading zeros. -/
def isDottedQuad (t : Text) : Bool :=
  let parts := Text.splitOn '.' t
  parts.length == 4 && parts.all fun part =>
    !part.isEmpty && part.all Char.isDigit && (part.length == 1 || part.head? != some '0') &&
      Text.numeral 10 part < 256

/-- Whether a text continues an IPv6 address of which `count` pieces have been read. Once in an
address, two colons stand for all pieces that are missing (`gap`). `bound` is at least the length of
the text. -/
def continuesIpv6 : (bound count : Nat) → (gap : Bool) → Text → Bool
  | _, count, gap, [] => gap || count == 8
  | 0, _, _, _ :: _ => false
  | bound + 1, count, gap, c :: t =>
    if count == 8 then false
    else if c = ':' then !gap && continuesIpv6 bound (count + 1) true t
    else
      let digits := ((c :: t).take 4).takeWhile isHexDigit
      match (c :: t).drop digits.length with
      | [] => gap || count == 7
      | ':' :: rest => !rest.isEmpty && continuesIpv6 bound (count + 1) gap rest
      | '.' :: _ =>
        !digits.isEmpty && count ≤ 6 && isDottedQuad (c :: t) && (gap || count == 6)
      | _ => false

/-- Whether a text is an IPv6 address. -/
def isIpv6 (t : Text) : Bool :=
  match t with
  | ':' :: ':' :: rest => continuesIpv6 t.length 1 true rest
  | ':' :: _ => false
  | t => 2 ≤ t.length && continuesIpv6 t.length 0 false t

end AmpMarkup.Url
