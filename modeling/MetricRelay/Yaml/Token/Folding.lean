import MetricRelay.Yaml.Cell

/-!
# Gaps in scalars

Within a plain or quoted scalar blanks and line ends form gaps. A gap
within a line stands for itself; of a gap with line ends the first one
becomes a space, or nothing where more line ends follow.
-/

namespace MetricRelay.Yaml

/-- Blanks and line ends between the characters of a scalar. Texts are
kept with the last character first. -/
structure Gap where
  /-- A line has ended. -/
  broken : Bool
  /-- The blanks before a line has ended. -/
  blanks : List Char
  /-- The first line end. -/
  first : List Char
  /-- The other line ends. -/
  more : List Char

namespace Gap

def none : Gap := ⟨false, [], [], []⟩

/-- The gap behind a line end that stands for nothing. -/
def escaped : Gap := ⟨true, [], [], []⟩

def addBlank (g : Gap) (c : Char) : Gap :=
  if g.broken then g else { g with blanks := c :: g.blanks }

def addBreak (g : Gap) (c : Char) : Gap :=
  if g.broken then { g with more := c :: g.more } else ⟨true, [], [c], []⟩

def add (g : Gap) (c : Char) : Gap :=
  if isBreak c then g.addBreak c else g.addBlank c

/-- What the gap stands for, the last character first. -/
def text (g : Gap) : List Char :=
  if g.broken then
    if g.first = ['\n'] then if g.more.isEmpty then [' '] else g.more
    else g.more ++ g.first
  else g.blanks

end Gap

end MetricRelay.Yaml
