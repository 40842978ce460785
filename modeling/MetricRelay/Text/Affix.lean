/-!
# Beginnings, endings and parts of texts

Tests on the beginning (`startsWith`), the inside (`holds`) and the end
of a text, and the text that is left once a beginning or trailing
characters are taken away.
-/

namespace MetricRelay.Text

/-- What is left of `cs` after the beginning `p`. -/
def dropBeginning? : (p cs : List Char) → Option (List Char)
  | [], cs => some cs
  | _ :: _, [] => none
  | a :: p, c :: cs => if a = c then dropBeginning? p cs else none

theorem dropBeginning?_eq_some_iff {p cs rest : List Char} :
    dropBeginning? p cs = some rest ↔ cs = p ++ rest := by
  induction p generalizing cs with
  | nil => simp [dropBeginning?]
  | cons a p ih =>
    cases cs with
    | nil => simp [dropBeginning?]
    | cons c cs =>
      by_cases h : a = c
      · simp [dropBeginning?, h, ih]
      · simp [dropBeginning?, h, Ne.symm h]

/-- What is left of `s` after the beginning `p`. -/
def stripBeginning? (s p : String) : Option String :=
  (dropBeginning? p.toList s.toList).map String.ofList

def startsWith (s p : String) : Bool :=
  (dropBeginning? p.toList s.toList).isSome

/-- `p` begins somewhere in `cs`. -/
def occursIn (p : List Char) : List Char → Bool
  | [] => p.isEmpty
  | c :: cs => (dropBeginning? p (c :: cs)).isSome || occursIn p cs

/-- `p` stands somewhere in `s`. -/
def holds (s p : String) : Bool :=
  occursIn p.toList s.toList

/-- The text without the characters `c` at its end. -/
def dropTrailing (c : Char) (cs : List Char) : List Char :=
  (cs.reverse.dropWhile (· == c)).reverse

/-- `s` without the characters `c` at its end. -/
def trimTrailing (c : Char) (s : String) : String :=
  String.ofList (dropTrailing c s.toList)

def endsWithChar (s : String) (c : Char) : Bool :=
  s.toList.getLast? == some c

/-- ASCII letters of `s` in lower case, all else as it is. -/
def lowerAscii (s : String) : String :=
  String.ofList (s.toList.map Char.toLower)

/-- `s` moved to the right end of a field of `width` characters. -/
def alignRight (width : Nat) (s : String) : String :=
  String.ofList (List.replicate (width - s.length) ' ') ++ s

end MetricRelay.Text
