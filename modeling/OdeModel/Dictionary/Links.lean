import OdeModel.Dictionary.Basic

/-!
# Links of a dictionary

The links of a node depend on those of shorter nodes only, so they are computed
level by level. A link that is just one character shorter than its node cannot
become longer and is kept; with it, linking again after some insertions costs
little more than linking the new nodes.
-/

namespace OdeModel

namespace Dictionary

/-- Follows the `shorter` links from a node to the first one that can go on
with `c`, and goes on from there; the root where none can. The links lead to
ever shorter nodes, so `fuel` above the depth of the first one is enough. -/
def advance (nodes : Array Node) (c : Char) : (fuel index : Nat) → Nat
  | 0, _ => 0
  | fuel + 1, index =>
      match child? nodes index c with
      | some next => next
      | none => if index = 0 then 0 else advance nodes c fuel (nodeAt nodes index).shorter

/-- The first node from the given one along the `shorter` links where a keyword
ends, or the root. -/
def nearestKeyword (nodes : Array Node) : (fuel index : Nat) → Nat
  | 0, _ => 0
  | fuel + 1, index =>
      if index = 0 then 0
      else if (nodeAt nodes index).keyword.isSome then index
      else nearestKeyword nodes fuel (nodeAt nodes index).shorter

/-- The node of the longest proper ending, from the links of the parent. -/
def shorterOf (nodes : Array Node) (node : Node) : Nat :=
  if (nodeAt nodes node.shorter).depth + 1 < node.depth then
    match node.trail with
    | [] => 0
    | c :: _ => advance nodes c node.depth (nodeAt nodes node.parent).shorter
  else node.shorter

/-- Computes both links of a node. -/
def relinkNode (nodes : Array Node) (index : Nat) : Array Node :=
  let node := nodeAt nodes index
  let shorter := shorterOf nodes node
  let report := nearestKeyword nodes node.depth shorter
  nodes.modify index fun node => { node with shorter, report }

/-- The nodes below the given ones. -/
def nextLevel (nodes : Array Node) (level : List Nat) : List Nat :=
  level.flatMap fun index => (nodeAt nodes index).children.map Prod.snd

/-- Computes the links of the given nodes, then of all below them. -/
def relinkLevels : (fuel : Nat) → Array Node → List Nat → Array Node
  | 0, nodes, _ => nodes
  | fuel + 1, nodes, level =>
      if level.isEmpty then nodes
      else
        let linked := level.foldl relinkNode nodes
        relinkLevels fuel linked (nextLevel linked level)

/-- Computes the links of all nodes. There are no more levels than nodes. -/
def relink (d : Dictionary) : Dictionary :=
  { d with nodes := relinkLevels d.nodes.size d.nodes (nextLevel d.nodes [0]) }

/-- Adds a keyword and computes the links anew if there is a new one. -/
def insert (d : Dictionary) (keyword : Text) :
    Except DuplicateKeyword (Dictionary × Option Nat) := do
  let (added, id) ← d.add keyword
  return (if id.isSome then added.relink else added, id)

/-- Adds keywords one after the other and then computes the links. A keyword
that is there already ends it: those before it stay, without links. -/
def addAll (d : Dictionary) : List Text → Dictionary × Option DuplicateKeyword
  | [] => (d.relink, none)
  | keyword :: later =>
      match d.add keyword with
      | .ok (added, _) => added.addAll later
      | .error error => (d, some error)

/-- The dictionary of the given keywords. -/
def ofKeywords (matching : Matching) (keywords : List Text) :
    Except DuplicateKeyword Dictionary :=
  match (empty matching).addAll keywords with
  | (d, none) => .ok d
  | (_, some error) => .error error

/-- The same keywords inserted into an empty dictionary. -/
def rebuilt (d : Dictionary) : Dictionary :=
  ((empty d.matching).addAll d.keywords.toList).1

end Dictionary

end OdeModel
