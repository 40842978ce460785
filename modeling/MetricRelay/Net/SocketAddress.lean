import MetricRelay.Number.Numeral
import MetricRelay.Text.Segments

/-!
# Socket addresses

An internet address of either version with a port. Written addresses are
read in their strict form first, `1.2.3.4:80` or `[::1]:80`; what is not
of that form is split at its last colon into a host, which must be a
numeric address, and a port. Addresses of version 6 are printed in their
compressed form.
-/

namespace MetricRelay.Net

/-- An internet address. -/
inductive Ip where
  /-- Four bytes. -/
  | v4 (bytes : List Nat)
  /-- Eight groups of 16 bits, and the number of the scope. -/
  | v6 (groups : List Nat) (scope : Nat)
deriving Repr, DecidableEq

structure SocketAddress where
  ip : Ip
  port : Nat
deriving Repr, DecidableEq

/-- Why a text is no socket address. -/
inductive AddressFault where
  /-- There is no colon before a port. -/
  | noPort
  /-- The text after the last colon is no port. -/
  | badPort
  /-- The host is no numeric address. -/
  | unknownHost
deriving Repr, DecidableEq

namespace AddressFault

def message : AddressFault → String
  | noPort => "invalid socket address"
  | badPort => "invalid port value"
  | unknownHost => "failed to lookup address information: Name or service not known"

end AddressFault

/-! ## Reading -/

/-- The value of a digit to the base `radix`. -/
def digitValue? (radix : Nat) (c : Char) : Option Nat :=
  let n :=
    if c.isDigit then c.toNat - '0'.toNat
    else if 'a' ≤ c ∧ c ≤ 'z' then c.toNat - 'a'.toNat + 10
    else if 'A' ≤ c ∧ c ≤ 'Z' then c.toNat - 'A'.toNat + 10
    else radix
  if n < radix then some n else none

/-- The digits at the beginning, read as one number after `before`: the
number, how many digits there were, and the rest. -/
def readDigits (radix : Nat) (before count : Nat) : List Char → Nat × Nat × List Char
  | [] => (before, count, [])
  | c :: cs =>
    match digitValue? radix c with
    | some d => readDigits radix (before * radix + d) (count + 1) cs
    | none => (before, count, c :: cs)

/-- What is asked of a number. -/
structure NumberRule where
  /-- The base. -/
  radix : Nat
  /-- The most digits. -/
  digits : Nat
  /-- More digits may follow a zero. -/
  zeros : Bool
  /-- The number is below this bound. -/
  bound : Nat

/-- Reads a number by a rule. -/
def readNumber? (rule : NumberRule) (cs : List Char) : Option (Nat × List Char) :=
  let (n, count, rest) := readDigits rule.radix 0 0 cs
  let leadingZero := cs.head? == some '0' && 1 < count
  if count = 0 ∨ rule.digits < count ∨ rule.bound ≤ n ∨ (leadingZero ∧ !rule.zeros) then none
  else some (n, rest)

/-- A byte of an address of version 4. -/
def byteRule : NumberRule := ⟨10, 3, false, 256⟩

/-- A group of an address of version 6. -/
def groupRule : NumberRule := ⟨16, 4, true, 65536⟩

/-- A port, with any number of digits. -/
def portRule (length : Nat) : NumberRule := ⟨10, length, true, 65536⟩

/-- A scope, with any number of digits. -/
def scopeRule (length : Nat) : NumberRule := ⟨10, length, true, 4294967296⟩

/-- Reads `count` bytes separated by dots. -/
def readBytes? : (count : Nat) → List Char → Option (List Nat × List Char)
  | 0, cs => some ([], cs)
  | 1, cs => (readNumber? byteRule cs).map fun (b, cs) => ([b], cs)
  | count + 2, cs =>
    match readNumber? byteRule cs with
    | some (b, '.' :: cs) => (readBytes? (count + 1) cs).map fun (bs, cs) => (b :: bs, cs)
    | _ => none

/-- Reads up to `limit` groups separated by colons, of which the last two
may be written as four bytes: the groups, whether bytes ended them, and
the rest. -/
def readGroups : (limit : Nat) → (first : Bool) → List Char → List Nat × Bool × List Char
  | 0, _, cs => ([], false, cs)
  | limit + 1, first, cs =>
    let opened :=
      match first, cs with
      | true, cs => some cs
      | false, ':' :: cs => some cs
      | false, _ => none
    match opened with
    | none => ([], false, cs)
    | some rest =>
      match if limit = 0 then none else readBytes? 4 rest with
      | some ([a, b, c, d], rest) => ([a * 256 + b, c * 256 + d], true, rest)
      | _ =>
        match readNumber? groupRule rest with
        | some (g, rest) =>
          let (gs, bytes, rest) := readGroups limit false rest
          (g :: gs, bytes, rest)
        | none => ([], false, cs)

/-- Reads the groups of an address of version 6: all eight, or fewer
around `::`, which stands for the missing ones. -/
def readV6? (cs : List Char) : Option (List Nat × List Char) :=
  match readGroups 8 true cs with
  | (front, bytes, rest) =>
    if front.length = 8 then some (front, rest)
    else if bytes then none
    else
      match rest with
      | ':' :: ':' :: rest =>
        let (back, _, rest) := readGroups (7 - front.length) true rest
        some (front ++ List.replicate (8 - front.length - back.length) 0 ++ back, rest)
      | _ => none

/-- Reads a colon and a port up to the end. -/
def readPort? : List Char → Option Nat
  | ':' :: cs =>
    match readNumber? (portRule cs.length) cs with
    | some (port, []) => some port
    | _ => none
  | _ => none

/-- Reads a scope behind a percent sign, if there is one. -/
def readScope? : List Char → Option (Nat × List Char)
  | '%' :: cs => readNumber? (scopeRule cs.length) cs
  | cs => some (0, cs)

/-- Reads an address and a port in their strict form. -/
def readStrict? (cs : List Char) : Option SocketAddress :=
  match cs with
  | '[' :: cs => do
    let (groups, cs) ← readV6? cs
    let (scope, cs) ← readScope? cs
    match cs with
    | ']' :: cs => (readPort? cs).map (⟨.v6 groups scope, ·⟩)
    | _ => none
  | cs => do
    let (bytes, cs) ← readBytes? 4 cs
    (readPort? cs).map (⟨.v4 bytes, ·⟩)

/-! ## Hosts -/

/-- Reads one part of a numeric host: decimal, octal behind `0`, or
hexadecimal behind `0x`. -/
def hostPart? (cs : List Char) : Option Nat :=
  let (radix, digits) :=
    match cs with
    | '0' :: 'x' :: cs => (16, cs)
    | '0' :: 'X' :: cs => (16, cs)
    | '0' :: c :: cs => (8, c :: cs)
    | cs => (10, cs)
  match readDigits radix 0 0 digits with
  | (n, count, []) => if count = 0 then none else some n
  | _ => none

/-- The bytes of a host of one to four parts, the last of which fills all
bytes that are left. -/
def hostBytes? : (left : Nat) → List Nat → Option (List Nat)
  | left, [n] =>
    if n < 256 ^ left then
      some ((List.range left).map fun i => n / 256 ^ (left - 1 - i) % 256)
    else none
  | left + 1, n :: ns => if n < 256 then (hostBytes? left ns).map (n :: ·) else none
  | _, _ => none

/-- Reads a numeric host. -/
def readHost? (cs : List Char) : Option Ip :=
  match readV6? cs with
  | some (groups, []) => some (.v6 groups 0)
  | _ =>
    match (Text.cut '.' cs).mapM hostPart? with
    | some parts => (hostBytes? 4 parts).map .v4
    | none => none

/-- The text before the last colon, and the text behind it. -/
def splitLast (cs : List Char) : Option (List Char × List Char) :=
  match cs.reverse.span (· != ':') with
  | (port, _ :: host) => some (host.reverse, port.reverse)
  | (_, []) => none

/-- Reads a port, which may have a plus sign. -/
def readLoosePort? (cs : List Char) : Option Nat :=
  (Number.readNatural? cs).filter (· < 65536)

namespace SocketAddress

/-- The socket address that a text names. -/
def read (s : String) : Except AddressFault SocketAddress :=
  match readStrict? s.toList with
  | some a => .ok a
  | none =>
    match splitLast s.toList with
    | none => .error .noPort
    | some (host, port) =>
      match readLoosePort? port, readHost? host with
      | none, _ => .error .badPort
      | some _, none => .error .unknownHost
      | some port, some ip => .ok ⟨ip, port⟩

end SocketAddress

/-! ## Printing -/

/-- The length of the run of zeros at the beginning. -/
def zeroRun : List Nat → Nat
  | 0 :: gs => zeroRun gs + 1
  | _ => 0

/-- The first longest run of zeros from the place `i` on: its place and
length. -/
def longestRun (i : Nat) : List Nat → Nat × Nat
  | [] => (i, 0)
  | g :: gs =>
    let here := zeroRun (g :: gs)
    let later := longestRun (i + 1) gs
    if here < later.2 then later else (i, here)

/-- The groups in hexadecimal digits with colons between them. -/
def groupText (groups : List Nat) : String :=
  ":".intercalate (groups.map fun g => String.ofList (Nat.toDigits 16 g))

/-- The bytes in decimal digits with dots between them. -/
def byteText (bytes : List Nat) : String :=
  ".".intercalate (bytes.map Number.natural)

/-- The text of the groups of an address. An address of version 4 within
version 6 ends in its bytes; the first longest run of more than one zero
group is left out. -/
def v6Text (groups : List Nat) : String :=
  match groups with
  | [0, 0, 0, 0, 0, 0xFFFF, g, h] =>
    "::ffff:" ++ byteText [g / 256, g % 256, h / 256, h % 256]
  | _ =>
    let (place, length) := longestRun 0 groups
    if 1 < length then
      groupText (groups.take place) ++ "::" ++ groupText (groups.drop (place + length))
    else groupText groups

namespace SocketAddress

def text (a : SocketAddress) : String :=
  match a.ip with
  | .v4 bytes => byteText bytes ++ ":" ++ Number.natural a.port
  | .v6 groups scope =>
    let zone := if scope = 0 then "" else "%" ++ Number.natural scope
    "[" ++ v6Text groups ++ zone ++ "]:" ++ Number.natural a.port

end SocketAddress

end MetricRelay.Net
