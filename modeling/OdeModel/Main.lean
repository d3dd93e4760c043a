import OdeModel.CommandLine

/-!
# The program

Reads the model file and the lookup tables it names, and prints the answer.
-/

namespace OdeModel

/-- The fault behind an error of the operating system. -/
def readFault : IO.Error → ReadFault
  | .inappropriateType _ code _ => if code = 21 then .isDirectory else .notDirectory
  | _ => .notFound

/-- The contents of a file. -/
def readContents (path : Text) : IO (Except ReadFault Text) := do
  match ← (IO.FS.readBinFile (String.ofList path)).toBaseIO with
  | .error error => return .error (readFault error)
  | .ok contents => return Snapshot.decode contents

/-- The files that an invocation needs, with their contents. -/
def readFiles : Invocation → IO (List (Text × Except ReadFault Text))
  | .run command path => do
      let model ← readContents path
      let tables :=
        match model with
        | .error _ => []
        | .ok input => Draft.tablePaths (command.settings path) input
      let contents ← tables.mapM fun table => do return (table, ← readContents table)
      return (path, model) :: contents
  | _ => return []

end OdeModel

/-- Answers the command line. -/
def main (arguments : List String) : IO UInt32 := do
  let invocation := OdeModel.Invocation.ofArguments { } (arguments.map String.toList)
  let contents ← OdeModel.readFiles invocation
  let answer := invocation.answer fun path =>
    (contents.lookup path).getD (.error .notFound)
  IO.print (String.ofList answer.output)
  IO.eprint (String.ofList answer.errors)
  return answer.code
