import MetricRelay.Yaml.Cell

/-!
# Block scalars

A block scalar is a header and the lines below it that are indented. In
the literal style line ends stand for themselves, in the folded style a
line end between two lines that begin with no blank becomes a space. The
header says what becomes of the line ends behind the last line and may
give the indentation, which else is that of the first line.
-/

namespace MetricRelay.Yaml

/-- What becomes of the line ends at the end. -/
inductive Chomping where
  /-- None is kept. -/
  | strip
  /-- The first one is kept. -/
  | clip
  /-- All are kept. -/
  | keep
deriving Repr, DecidableEq

/-- The chomping that a sign stands for. -/
def chomping? (c : Char) : Option Chomping :=
  if c = '+' then some .keep
  else if c = '-' then some .strip
  else none

/-- The indentation that a digit stands for. Zero is no indentation. -/
def increment? (c : Char) : Option Nat :=
  if c.isDigit && c != '0' then some (c.toNat - '0'.toNat) else none

/-- Reads a header: the chomping, the indentation if it is given, and the
cells behind it. -/
def readHeader (cs : List Cell) : Chomping × Option Nat × List Cell :=
  match cs with
  | a :: b :: rest =>
    match chomping? a.char, increment? a.char with
    | some chomping, _ =>
      match increment? b.char with
      | some n => (chomping, some n, rest)
      | none => (chomping, none, b :: rest)
    | none, some n =>
      match chomping? b.char with
      | some chomping => (chomping, some n, rest)
      | none => (.clip, some n, b :: rest)
    | none, none => (.clip, none, cs)
  | [a] =>
    match chomping? a.char, increment? a.char with
    | some chomping, _ => (chomping, none, [])
    | none, some n => (.clip, some n, [])
    | none, none => (.clip, none, cs)
  | [] => (.clip, none, [])

/-- Reads the empty lines before the first line when the indentation is
not known: the widest indentation so far, the line ends, the last one
first, and the cells from the first line on. -/
def readLead? : (widest : Nat) → (breaks : List Char) → List Cell →
    Option (Nat × List Char × List Cell)
  | widest, breaks, [] => some (widest, breaks, [])
  | widest, breaks, c :: cs =>
    if c.char = ' ' then readLead? widest breaks cs
    else
      let widest := max widest c.column
      if c.char = '\t' then none
      else if isBreak c.char then readLead? widest (c.char :: breaks) cs
      else some (widest, breaks, c :: cs)

/-- The lines of a block scalar as far as they are read. Texts are kept
with the last character first. -/
structure BlockText where
  text : List Char
  /-- The end of the last line. -/
  lineEnd : List Char
  /-- The ends of the empty lines behind it. -/
  empties : List Char
  /-- The last line began with a blank. -/
  blank : Bool

namespace BlockText

/-- No line has been read but empty ones with these ends. -/
def start (empties : List Char) : BlockText := ⟨[], [], empties, false⟩

/-- The text before a line that begins with a blank or not. -/
def openLine (literal : Bool) (b : BlockText) (blank : Bool) : BlockText :=
  let joint :=
    if !literal && b.lineEnd = ['\n'] && !b.blank && !blank then
      if b.empties.isEmpty then [' '] else []
    else b.lineEnd
  ⟨b.empties ++ joint ++ b.text, [], [], blank⟩

/-- The text when no line follows. -/
def finish (chomping : Chomping) (b : BlockText) : List Char :=
  match chomping with
  | .strip => b.text.reverse
  | .clip => (b.lineEnd ++ b.text).reverse
  | .keep => (b.empties ++ b.lineEnd ++ b.text).reverse

end BlockText

/-- Reads the lines that are indented by `indent`: the text, and the cells
behind it. `inLine` says that a line has begun. -/
def readLines? (literal : Bool) (indent : Nat) : (inLine : Bool) → BlockText → List Cell →
    Option (BlockText × List Cell)
  | _, b, [] => some (b, [])
  | true, b, c :: cs =>
    if isBreak c.char then readLines? literal indent false { b with lineEnd := [c.char] } cs
    else readLines? literal indent true { b with text := c.char :: b.text } cs
  | false, b, c :: cs =>
    if isBreak c.char then
      readLines? literal indent false { b with empties := c.char :: b.empties } cs
    else if c.column < indent then
      if c.char = ' ' then readLines? literal indent false b cs
      else if c.char = '\t' then none
      else some (b, c :: cs)
    else
      let b := b.openLine literal (isBlank c.char)
      readLines? literal indent true { b with text := c.char :: b.text } cs

/-- Reads a block scalar behind its indicator, within a block that is
indented by `parent`: its text, and the cells behind it. -/
def readBlock? (literal : Bool) (parent : Int) (cs : List Cell) :
    Option (List Char × List Cell) := do
  let (chomping, increment, cs) := readHeader cs
  let cs ← Cell.endLine? cs
  match increment with
  | some n =>
    let indent := (max parent 0).toNat + n
    let (b, cs) ← readLines? literal indent false (.start []) cs
    return (b.finish chomping, cs)
  | none =>
    let (widest, empties, cs) ← readLead? 0 [] cs
    let indent := max (max widest (parent + 1).toNat) 1
    let (b, cs) ← readLines? literal indent false (.start empties) cs
    return (b.finish chomping, cs)

end MetricRelay.Yaml
