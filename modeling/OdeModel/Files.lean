import OdeModel.Error
import OdeModel.Text.Basic

/-!
# Files

A model may name files with lookup tables. What can be read is given as a
function from paths to contents; `Snapshot` is such a function for a directory
whose files are known.
-/

namespace OdeModel

/-- The contents of files by path. -/
abbrev FileReader := Text → Except ReadFault Text

namespace Path

/-- The path of a file that is named in a directory. An absolute name stands
for itself, and so does a name in the empty directory. -/
def join (directory name : Text) : Text :=
  if directory.isEmpty || name.head? == some '/' then name
  else if directory.getLast? == some '/' then directory ++ name
  else directory ++ '/' :: name

/-- The names between the slashes of a path. -/
def names (path : Text) : List Text := (Text.fields (· == '/') 0 path).map Prod.snd

/-- Leaves out, from the last name on, names that lead nowhere; the first name
of the path, which is the last one here, stays. -/
def dropIdle : List Text → List Text
  | [] => []
  | [first] => [first]
  | name :: rest => if name = [] ∨ name = ['.'] then dropIdle rest else name :: rest

/-- The directory of a file; empty for a bare name. -/
def parent (path : Text) : Text :=
  let directories := (dropIdle (names path).reverse.tail).reverse
  if directories = [[]] then ['/'] else (directories.intersperse ['/']).flatten

end Path

/-- The files of a directory and its subdirectories. -/
structure Snapshot where
  /-- The contents of each file, by the names along its path. -/
  files : List (List Text × ByteArray)

namespace Snapshot

/-- The snapshot of files given by paths. -/
def ofPaths (files : List (Text × ByteArray)) : Snapshot :=
  ⟨files.map fun (path, contents) =>
    ((Path.names path).filter fun name => !name.isEmpty && name != ['.'], contents)⟩

/-- There is a file with the given names along its path. -/
def hasFile (snapshot : Snapshot) (names : List Text) : Bool :=
  snapshot.files.any fun (file, _) => file == names

/-- There is a directory with the given names along its path. -/
def hasDirectory (snapshot : Snapshot) (names : List Text) : Bool :=
  snapshot.files.any fun (file, _) => names.isPrefixOf file && names.length < file.length

/-- Follows the names of a path from the place `here`, which is nothing outside
of the snapshot. No name leads anywhere from outside, and none from a file. -/
def follow (snapshot : Snapshot) :
    (here : Option (List Text)) → List Text → Except ReadFault (Option (List Text))
  | here, [] => .ok here
  | none, name :: later =>
      if name = [] ∨ name = ['.'] ∨ name = ['.', '.'] then snapshot.follow none later
      else .error .notFound
  | some names, name :: later =>
      if snapshot.hasFile names then .error .notDirectory
      else if name = [] ∨ name = ['.'] then snapshot.follow (some names) later
      else if name = ['.', '.'] then
        snapshot.follow (if names.isEmpty then none else some names.dropLast) later
      else if snapshot.hasFile (names ++ [name]) || snapshot.hasDirectory (names ++ [name]) then
        snapshot.follow (some (names ++ [name])) later
      else .error .notFound

/-- The bytes of a file. -/
def bytes (snapshot : Snapshot) (path : Text) : Except ReadFault ByteArray := do
  if path.isEmpty then .error .notFound
  let start := if path.head? == some '/' then none else some []
  match (← snapshot.follow start (Path.names path)).bind (snapshot.files.lookup ·) with
  | none => .error .isDirectory
  | some contents => .ok contents

/-- The text in some bytes. -/
def decode (contents : ByteArray) : Except ReadFault Text :=
  match String.fromUTF8? contents with
  | none => .error .notText
  | some text => .ok text.toList

/-- The text of a file. -/
def read (snapshot : Snapshot) : FileReader := fun path => do decode (← snapshot.bytes path)

end Snapshot

end OdeModel
