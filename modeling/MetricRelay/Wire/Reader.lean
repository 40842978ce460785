import MetricRelay.Metric
import MetricRelay.Number.Scaled
import MetricRelay.Wire.NumberToken
import MetricRelay.Wire.TextToken

/-!
# Reading payloads

A payload is an object with the members `name`, `value` and `timestamp`,
or an array of these in this order; the timestamp may be missing. Other
members are skipped, of whatever depth.

A `Reader` has read some bytes of a payload. `Reader.feed` takes one byte
more, so that a fault depends only on what stands before it, and
`Reader.finish` gives the metric when all bytes are read. `decode` reads
a whole payload.
-/

namespace MetricRelay.Wire

/-- The two forms of a payload. -/
inductive Form where
  | array
  | object
deriving Repr, DecidableEq

/-- The parts of a metric. -/
inductive Field where
  | name
  | value
  | timestamp
deriving Repr, DecidableEq

namespace Field

def key : Field → String
  | name => "name"
  | value => "value"
  | timestamp => "timestamp"

def ofKey? (key : String) : Option Field :=
  if key = "name" then some name
  else if key = "value" then some value
  else if key = "timestamp" then some timestamp
  else none

/-- The part that follows in an array. -/
def following? : Field → Option Field
  | name => some value
  | value => some timestamp
  | timestamp => none

end Field

/-- The brackets around a skipped value. -/
inductive Bracket where
  /-- `[` and `]`. -/
  | square
  /-- `{` and `}`. -/
  | curly
deriving Repr, DecidableEq

/-- What a value is read as. -/
inductive Slot where
  /-- The payload itself. -/
  | document
  /-- A part of the metric. -/
  | field (form : Form) (field : Field)
  /-- Nothing; the value stands within these brackets of the skipped
  member, the innermost first. -/
  | skipped (within : List Bracket)
deriving Repr, DecidableEq

/-- What the next byte belongs to. -/
inductive Phase where
  /-- A value that has not begun. -/
  | value (slot : Slot)
  | text (slot : Slot) (token : TextToken)
  | number (slot : Slot) (token : NumberToken)
  /-- A word, of which these bytes are missing. -/
  | word (slot : Slot) (rest : List UInt8)
  /-- The array behind its opening bracket. -/
  | firstElement
  /-- The array behind an element. -/
  | afterElement (field : Field)
  /-- The object behind its opening bracket. -/
  | firstMember
  /-- The object behind a comma. -/
  | nextMember
  /-- The object behind a member. -/
  | afterMember
  | key (token : TextToken)
  | colon (slot : Slot)
  /-- A skipped value behind its opening bracket. -/
  | skipFirst (bracket : Bracket) (within : List Bracket)
  /-- A skipped object behind a comma. -/
  | skipNext (within : List Bracket)
  /-- A skipped value behind one of its parts. -/
  | skipAfter (bracket : Bracket) (within : List Bracket)
  /-- A key of a skipped object. -/
  | skipKey (token : TextToken) (within : List Bracket)
  | closed
deriving Repr, DecidableEq

/-- The parts of a metric that have been read. -/
structure Draft where
  name : Option String
  value : Option Float
  timestamp : Option Instant
deriving DecidableEq

namespace Draft

def blank : Draft := ⟨none, none, none⟩

def has (d : Draft) : Field → Bool
  | .name => d.name.isSome
  | .value => d.value.isSome
  | .timestamp => d.timestamp.isSome

/-- The metric of the parts; one without a timestamp was observed
`now`. -/
def metric? (d : Draft) (now : Instant) : Option Metric :=
  match d.name, d.value with
  | some name, some value => some ⟨name, value, d.timestamp.getD now⟩
  | _, _ => none

end Draft

/-- A payload of which some bytes have been read. -/
structure Reader where
  draft : Draft
  phase : Phase
deriving DecidableEq

/-! ## Bytes -/

/-- Space, tab and the two line ends may stand between the tokens. -/
def isBlank (b : UInt8) : Bool :=
  b = 0x20 || b = 0x09 || b = 0x0A || b = 0x0D

namespace Bracket

def closing : Bracket → UInt8
  | square => 0x5D
  | curly => 0x7D

/-- The bracket that a byte opens. -/
def opened? (b : UInt8) : Option Bracket :=
  if b = 0x5B then some square
  else if b = 0x7B then some curly
  else none

end Bracket

/-- What is missing of the word that a byte begins: `null`, `true` or
`false`. -/
def wordRest? (b : UInt8) : Option (List UInt8) :=
  if b = 0x6E then some [0x75, 0x6C, 0x6C]
  else if b = 0x74 then some [0x72, 0x75, 0x65]
  else if b = 0x66 then some [0x61, 0x6C, 0x73, 0x65]
  else none

namespace Slot

/-- The content of a text in this slot matters. -/
def isStrict : Slot → Bool
  | skipped _ => false
  | _ => true

/-- What follows a value in this slot. -/
def after : Slot → Phase
  | document => .closed
  | field .array f => .afterElement f
  | field .object _ => .afterMember
  | skipped [] => .afterMember
  | skipped (bracket :: within) => .skipAfter bracket within

end Slot

namespace Reader

def start : Reader := ⟨.blank, .value .document⟩

def goTo (r : Reader) (phase : Phase) : Except Fault Reader :=
  .ok { r with phase }

/-! ## Complete tokens -/

/-- A bracket opens where a value was due. -/
def openBracket (r : Reader) (slot : Slot) (bracket : Bracket) : Except Fault Reader :=
  match slot, bracket with
  | .document, .square => r.goTo .firstElement
  | .document, .curly => r.goTo .firstMember
  | .field _ _, _ => .error .mistyped
  | .skipped within, bracket => r.goTo (.skipFirst bracket within)

def settleText (r : Reader) (slot : Slot) (content : List UInt8) : Except Fault Reader :=
  match slot with
  | .skipped _ => r.goTo slot.after
  | _ => do
    let text ← TextToken.textOf content
    match slot with
    | .field _ .name =>
      if text = "" then .error .emptyName
      else .ok ⟨{ r.draft with name := some text }, slot.after⟩
    | _ => .error .mistyped

def settleNumber (r : Reader) (slot : Slot) (token : NumberToken) : Except Fault Reader :=
  match slot with
  | .skipped _ => r.goTo slot.after
  | _ =>
    let value := token.numeral.scaled
    if value.isFinite then
      match slot with
      | .field _ .value => .ok ⟨{ r.draft with value := some value }, slot.after⟩
      | .field _ .timestamp =>
        match token.integer?.bind Instant.ofMillis? with
        | some t => .ok ⟨{ r.draft with timestamp := some t }, slot.after⟩
        | none => .error .mistyped
      | _ => .error .mistyped
    else .error .malformed

def settleWord (r : Reader) (slot : Slot) : Except Fault Reader :=
  match slot with
  | .skipped _ => r.goTo slot.after
  | _ => .error .mistyped

/-- A key of the object is complete. -/
def settleKey (r : Reader) (content : List UInt8) : Except Fault Reader := do
  let key ← TextToken.textOf content
  match Field.ofKey? key with
  | none => r.goTo (.colon (.skipped []))
  | some f => if r.draft.has f then .error .mistyped else r.goTo (.colon (.field .object f))

/-- The payload's closing bracket: the metric must be complete. -/
def close (r : Reader) : Except Fault Reader :=
  if r.draft.has .name && r.draft.has .value then r.goTo .closed else .error .mistyped

/-! ## One byte -/

/-- A byte where a value is due. -/
def feedValue (r : Reader) (slot : Slot) (b : UInt8) : Except Fault Reader :=
  if isBlank b then r.goTo (.value slot)
  else if b = 0x22 then r.goTo (.text slot (.start slot.isStrict))
  else
    match NumberToken.start? b, wordRest? b, Bracket.opened? b with
    | some token, _, _ => r.goTo (.number slot token)
    | none, some rest, _ => r.goTo (.word slot rest)
    | none, none, some bracket => r.openBracket slot bracket
    | none, none, none => .error .malformed

def feedWord (r : Reader) (slot : Slot) (rest : List UInt8) (b : UInt8) :
    Except Fault Reader :=
  match rest with
  | c :: rest =>
    if b = c then
      match rest with
      | [] => r.settleWord slot
      | _ => r.goTo (.word slot rest)
    else .error .malformed
  | [] => .error .malformed

def feedKeyStart (r : Reader) (phase : Phase) (key : Phase) (b : UInt8) :
    Except Fault Reader :=
  if isBlank b then r.goTo phase
  else if b = 0x22 then r.goTo key
  else .error .malformed

/-- A byte between the tokens of a skipped value, behind one of its
parts. -/
def feedSkipAfter (r : Reader) (bracket : Bracket) (within : List Bracket) (b : UInt8) :
    Except Fault Reader :=
  if isBlank b then r.goTo (.skipAfter bracket within)
  else if b = bracket.closing then r.goTo (Slot.skipped within).after
  else if b = 0x2C then
    match bracket with
    | .square => r.goTo (.value (.skipped (.square :: within)))
    | .curly => r.goTo (.skipNext within)
  else .error .malformed

/-- A byte behind the opening bracket of a skipped value. -/
def feedSkipFirst (r : Reader) (bracket : Bracket) (within : List Bracket) (b : UInt8) :
    Except Fault Reader :=
  if isBlank b then r.goTo (.skipFirst bracket within)
  else if b = bracket.closing then r.goTo (Slot.skipped within).after
  else
    match bracket with
    | .square => r.feedValue (.skipped (.square :: within)) b
    | .curly =>
      r.feedKeyStart (.skipFirst .curly within) (.skipKey (.start false) within) b

def feedAfterElement (r : Reader) (f : Field) (b : UInt8) : Except Fault Reader :=
  if isBlank b then r.goTo (.afterElement f)
  else if b = 0x5D then r.close
  else if b = 0x2C then
    match f.following? with
    | some g => r.goTo (.value (.field .array g))
    | none => .error .malformed
  else .error .malformed

def feedAfterMember (r : Reader) (b : UInt8) : Except Fault Reader :=
  if isBlank b then r.goTo .afterMember
  else if b = 0x7D then r.close
  else if b = 0x2C then r.goTo .nextMember
  else .error .malformed

/-- A byte in any phase but that of a number. -/
def feedToken (r : Reader) (phase : Phase) (b : UInt8) : Except Fault Reader :=
  match phase with
  | .value slot => r.feedValue slot b
  | .text slot token => do
    match ← token.feed b with
    | .goes token => r.goTo (.text slot token)
    | .closed content => r.settleText slot content
  | .number slot token => r.goTo (.number slot token)
  | .word slot rest => r.feedWord slot rest b
  | .firstElement =>
    if isBlank b then r.goTo .firstElement
    else if b = 0x5D then r.close
    else r.feedValue (.field .array .name) b
  | .afterElement f => r.feedAfterElement f b
  | .firstMember =>
    if b = 0x7D then r.close else r.feedKeyStart .firstMember (.key (.start true)) b
  | .nextMember => r.feedKeyStart .nextMember (.key (.start true)) b
  | .afterMember => r.feedAfterMember b
  | .key token => do
    match ← token.feed b with
    | .goes token => r.goTo (.key token)
    | .closed content => r.settleKey content
  | .colon slot =>
    if isBlank b then r.goTo (.colon slot)
    else if b = 0x3A then r.goTo (.value slot)
    else .error .malformed
  | .skipFirst bracket within => r.feedSkipFirst bracket within b
  | .skipNext within =>
    r.feedKeyStart (.skipNext within) (.skipKey (.start false) within) b
  | .skipAfter bracket within => r.feedSkipAfter bracket within b
  | .skipKey token within => do
    match ← token.feed b with
    | .goes token => r.goTo (.skipKey token within)
    | .closed _ => r.goTo (.colon (.skipped (.curly :: within)))
  | .closed => if isBlank b then r.goTo .closed else .error .malformed

/-- Reads one byte. The byte that ends a number belongs to what follows
the number. -/
def feed (r : Reader) (b : UInt8) : Except Fault Reader :=
  match r.phase with
  | .number slot token =>
    match token.feed b with
    | .goes token => r.goTo (.number slot token)
    | .ends => do
      let r ← r.settleNumber slot token
      r.feedToken r.phase b
    | .breaks => .error .malformed
  | phase => r.feedToken phase b

/-! ## The end -/

/-- The fault of a payload that ends within a number. A number that may
end is judged as far as it goes; an unfinished one is no token at all
where it would be skipped. -/
def numberAtEnd (r : Reader) (slot : Slot) (token : NumberToken) : Fault :=
  if token.complete then
    match r.settleNumber slot token with
    | .error fault => fault
    | .ok _ => .truncated
  else
    match slot with
    | .skipped _ => .malformed
    | _ => .truncated

/-- The metric, when all bytes have been read. -/
def finish (r : Reader) (now : Instant) : Except Fault Metric :=
  match r.phase with
  | .closed =>
    match r.draft.metric? now with
    | some m => .ok m
    | none => .error .mistyped
  | .number slot token => .error (r.numberAtEnd slot token)
  | _ => .error .truncated

end Reader

/-- The reader behind all of `payload`. -/
def readAll (payload : List UInt8) : Except Fault Reader :=
  payload.foldlM Reader.feed Reader.start

/-- The metric that a payload carries; one without a timestamp was
observed `now`. -/
def decode (now : Instant) (payload : List UInt8) : Except Fault Metric := do
  let r ← readAll payload
  r.finish now

end MetricRelay.Wire
