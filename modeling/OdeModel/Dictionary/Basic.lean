import OdeModel.Text.Basic

/-!
# Dictionaries

A dictionary finds the occurrences of its keywords in a text in one pass. Its
nodes are the beginnings of keywords; node zero, the root, is the empty one.
Every other node hangs below the beginning that is one character shorter. Two
links per node lead to other nodes, and are computed for all nodes at once in
`OdeModel.Dictionary.Links`; a node that was added later has both at the root.
-/

namespace OdeModel

/-- How a dictionary compares its keywords with a text. -/
structure Matching where
  /-- Upper and lower case of ASCII letters differ. -/
  caseSensitive : Bool := true
  /-- Only a keyword that is the whole text is found. -/
  wholeText : Bool := false
  deriving Repr, DecidableEq

namespace Matching

/-- The character that stands for `c` in the nodes. -/
def fold (matching : Matching) (c : Char) : Char :=
  if matching.caseSensitive then c else c.toLower

end Matching

/-- A beginning of one or more keywords. -/
structure Node where
  /-- Its characters, the last one first. -/
  trail : Text
  /-- The node of the beginning that is one character shorter. -/
  parent : Nat
  /-- The number of the keyword that ends here. -/
  keyword : Option Nat
  /-- The node of the longest proper ending of this beginning that is itself a
  beginning of a keyword. -/
  shorter : Nat
  /-- The first node along the `shorter` links where a keyword ends, or the root. -/
  report : Nat
  /-- The nodes that are one character longer, by that character. -/
  children : List (Char × Nat)
  deriving Repr, DecidableEq

namespace Node

/-- A node without keyword and children, its links at the root. -/
def fresh (trail : Text) (parent : Nat) : Node := ⟨trail, parent, none, 0, 0, []⟩

/-- The node of the empty beginning. -/
def root : Node := fresh [] 0

/-- Number of characters. -/
def depth (node : Node) : Nat := node.trail.length

/-- The name of a node in listings. -/
def name (index : Nat) : Text :=
  if index = 0 then "root".toList else 'n' :: Nat.toDigits 10 index

end Node

/-- A set of keywords, numbered in the order of their insertion. -/
structure Dictionary where
  /-- How keywords and text are compared. -/
  matching : Matching
  /-- The nodes, the root first. -/
  nodes : Array Node
  /-- The keywords as they were given. -/
  keywords : Array Text
  deriving Repr, DecidableEq

/-- A keyword that is already in the dictionary. -/
structure DuplicateKeyword where
  keyword : Text
  deriving Repr, DecidableEq

namespace DuplicateKeyword

/-- The message of the error. -/
def message (error : DuplicateKeyword) : Text :=
  "Attempted to add keyword '".toList ++ error.keyword ++
    "' to the keyword trie twice".toList

end DuplicateKeyword

namespace Dictionary

/-- The dictionary without keywords. -/
def empty (matching : Matching) : Dictionary := ⟨matching, #[Node.root], #[]⟩

/-- The node with the given number. -/
def nodeAt (nodes : Array Node) (index : Nat) : Node := nodes[index]?.getD Node.root

/-- The node one character further on. -/
def child? (nodes : Array Node) (index : Nat) (c : Char) : Option Nat :=
  (nodeAt nodes index).children.lookup c

/-- Goes one character further on, to a new node where there is none. -/
def addChild (nodes : Array Node) (index : Nat) (c : Char) : Array Node × Nat :=
  match child? nodes index c with
  | some next => (nodes, next)
  | none =>
      let next := nodes.size
      let trail := (nodeAt nodes index).trail
      let linked := nodes.modify index fun node =>
        { node with children := node.children ++ [(c, next)] }
      (linked.push (Node.fresh (c :: trail) index), next)

/-- Goes on along a text from the given node, adding the nodes that are missing. -/
def addPath (matching : Matching) : Array Node → Nat → Text → Array Node × Nat
  | nodes, index, [] => (nodes, index)
  | nodes, index, c :: rest =>
      let (nodes, next) := addChild nodes index (matching.fold c)
      addPath matching nodes next rest

/-- Adds a keyword and leaves all links as they are. The answer holds the number
of the keyword. An empty keyword is not added and has no number. -/
def add (d : Dictionary) (keyword : Text) :
    Except DuplicateKeyword (Dictionary × Option Nat) :=
  if keyword.isEmpty then .ok (d, none)
  else
    let (nodes, index) := addPath d.matching d.nodes 0 keyword
    if (nodeAt nodes index).keyword.isSome then .error ⟨keyword⟩
    else
      let id := d.keywords.size
      let marked := nodes.modify index fun node => { node with keyword := some id }
      .ok ({ d with nodes := marked, keywords := d.keywords.push keyword }, some id)

end Dictionary

end OdeModel
