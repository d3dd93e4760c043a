import OdeModel.Dictionary.Links

/-!
# Scanning a text

A scan reads the text once. After every character it stands at the node of the
longest ending of the text so far that begins a keyword; the keywords that end
here are those of this node and of the nodes along its `report` links.
-/

namespace OdeModel

/-- A keyword found in a text. -/
structure Occurrence where
  /-- The number of the keyword. -/
  id : Nat
  /-- The keyword as it was inserted. -/
  keyword : Text
  /-- Position of the first character. -/
  start : Nat
  /-- Position after the last character. -/
  stop : Nat
  deriving Repr, DecidableEq

namespace Dictionary

/-- The node after one more character. -/
def step (d : Dictionary) (index : Nat) (c : Char) : Nat :=
  advance d.nodes c ((nodeAt d.nodes index).depth + 1) index

/-- The nodes along the `report` links from the given one on, down to the root. -/
def reports (nodes : Array Node) : (fuel index : Nat) → List Nat
  | 0, _ => []
  | fuel + 1, index =>
      if index = 0 then []
      else index :: reports nodes fuel (nodeAt nodes index).report

/-- The keyword of a node, found with its last character before `stop`. -/
def occurrenceAt? (d : Dictionary) (stop index : Nat) : Option Occurrence :=
  let node := nodeAt d.nodes index
  node.keyword.map fun id =>
    { id := id
      keyword := d.keywords[id]?.getD []
      start := stop - Text.width node.trail
      stop := stop }

/-- What is found at a node of a text with `total` characters, longest first. -/
def found (d : Dictionary) (total stop index : Nat) : List Occurrence :=
  let node := nodeAt d.nodes index
  if d.matching.wholeText then
    if node.depth = total then (d.occurrenceAt? stop index).toList else []
  else
    (index :: reports d.nodes node.depth node.report).filterMap (d.occurrenceAt? stop)

/-- Reads on from a node at position `offset` of a text with `total` characters. -/
def scanFrom (d : Dictionary) (total : Nat) : (index offset : Nat) → Text → List Occurrence
  | _, _, [] => []
  | index, offset, c :: rest =>
      let next := d.step index (d.matching.fold c)
      let stop := offset + c.utf8Size
      d.found total stop next ++ d.scanFrom total next stop rest

/-- The occurrences of the keywords in a text, ordered by their ends and, where
these are equal, by their starts. -/
def scan (d : Dictionary) (s : Text) : List Occurrence := d.scanFrom s.length 0 0 s

/-- The text contains a keyword or, where only the whole text counts, is one. -/
def containsMatch (d : Dictionary) (s : Text) : Bool := !(d.scan s).isEmpty

end Dictionary

end OdeModel
