import MetricRelay.Yaml.Node

/-!
# What aliases stand for

Anchors are numbered as they come. A number is the count of different
names before it, so that a name that comes again shares its number with
the next new name; of the nodes with one number the one that begins last
counts. An alias has the number that its name has where the alias
stands.
-/

namespace MetricRelay.Yaml

/-- A node whose aliases have the numbers of anchors. -/
abbrev Node.Numbered := Node Nat

/-- A node with an anchor. -/
structure Anchored where
  number : Nat
  /-- The count of anchors before it. -/
  place : Nat
  node : Node.Numbered

/-- The anchors of a document up to some place. -/
structure Anchors where
  /-- The numbers of the names, the last one given first. -/
  names : List (String × Nat)
  /-- The count of different names. -/
  count : Nat
  /-- The count of anchors. -/
  seen : Nat
  nodes : List Anchored

namespace Anchors

def none : Anchors := ⟨[], 0, 0, []⟩

/-- The anchors with one more name. -/
def declare (a : Anchors) : Option String → Anchors
  | .none => a
  | some name =>
    { a with
      names := (name, a.count) :: a.names
      count := if (a.names.lookup name).isSome then a.count else a.count + 1
      seen := a.seen + 1 }

/-- The anchors with the node of a name that was declared behind the
anchors `before`. -/
def define (a before : Anchors) (anchor : Option String) (node : Node.Numbered) : Anchors :=
  match anchor with
  | .none => a
  | some _ => { a with nodes := ⟨before.count, before.seen, node⟩ :: a.nodes }

/-- Of two nodes the one that begins later. -/
def later (m : Option Anchored) (n : Anchored) : Anchored :=
  match m with
  | some m => if m.place < n.place then n else m
  | .none => n

/-- The node with a number. -/
def node? (a : Anchors) (number : Nat) : Option Node.Numbered :=
  ((a.nodes.filter (·.number = number)).foldl (fun m n => some (later m n)) .none).map
    Anchored.node

end Anchors

namespace Node

mutual

/-- The node with numbered aliases, behind the given anchors; there must
be an anchor for every alias. -/
def number? (a : Anchors) : Named → Option (Numbered × Anchors)
  | aliasOf name => (a.names.lookup name).map fun n => (aliasOf n, a)
  | scalar tag anchor style text =>
    let node := scalar tag anchor style text
    some (node, (a.declare anchor).define a anchor node)
  | sequence tag anchor items => do
    let (items, b) ← numberAll? (a.declare anchor) items
    let node := sequence tag anchor items
    some (node, b.define a anchor node)
  | mapping tag anchor entries => do
    let (entries, b) ← numberPairs? (a.declare anchor) entries
    let node := mapping tag anchor entries
    some (node, b.define a anchor node)

/-- The same for nodes in a row. -/
def numberAll? (a : Anchors) : List Named → Option (List Numbered × Anchors)
  | [] => some ([], a)
  | n :: ns => do
    let (n, a) ← number? a n
    let (ns, a) ← numberAll? a ns
    some (n :: ns, a)

/-- The same for pairs of nodes in a row. -/
def numberPairs? (a : Anchors) :
    List (Named × Named) → Option (List (Numbered × Numbered) × Anchors)
  | [] => some ([], a)
  | (k, v) :: ns => do
    let (k, a) ← number? a k
    let (v, a) ← number? a v
    let (ns, a) ← numberPairs? a ns
    some ((k, v) :: ns, a)

end

end Node

end MetricRelay.Yaml
