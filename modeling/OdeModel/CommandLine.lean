import OdeModel.Model

/-!
# The command line

A command names a model file and prints its expanded definitions. The answer to
a command is a value: an exit code and the texts for the two output streams.
-/

namespace OdeModel

/-- A command to print a model. -/
structure Command where
  /-- The path of the model file. -/
  modelFile : Option Text := none
  /-- Print JSON. -/
  json : Bool := false
  /-- Print the definitions before the expansion too. -/
  raw : Bool := false
  /-- Do not check the names in the expanded expressions. -/
  noValidate : Bool := false
  /-- The directory of lookup tables, if it is not that of the model file. -/
  tableDirectory : Option Text := none
  /-- Tell about the work on the error stream. -/
  verbose : Bool := false
  deriving Repr, DecidableEq

/-- What the arguments of a command line ask for. -/
inductive Invocation where
  /-- Print a model. -/
  | run (command : Command) (path : Text)
  /-- Print the version. -/
  | version
  /-- Print how to call the program. -/
  | help
  /-- The arguments make no sense. -/
  | misuse
  deriving Repr, DecidableEq

/-- The answer to a command line. -/
structure Answer where
  /-- The exit code. -/
  code : UInt32
  /-- What is written to the output stream. -/
  output : Text
  /-- What is written to the error stream. -/
  errors : Text
  deriving Repr, DecidableEq

namespace Command

/-- Takes the path of the model file, which is not empty and given once. -/
def withModelFile? (command : Command) (path : Text) : Option Command :=
  if path.isEmpty || command.modelFile.isSome then none
  else some { command with modelFile := some path }

/-- Takes the directory of lookup tables, which is not empty and given once. -/
def withTableDirectory? (command : Command) (path : Text) : Option Command :=
  if path.isEmpty || command.tableDirectory.isSome then none
  else some { command with tableDirectory := some path }

/-- Takes an option without a value, which is given once. -/
def withSwitch? (command : Command) (name : Text) : Option Command :=
  if name = "json".toList ∧ !command.json then some { command with json := true }
  else if name = "raw".toList ∧ !command.raw then some { command with raw := true }
  else if name = "no-validate".toList ∧ !command.noValidate then
    some { command with noValidate := true }
  else if name = "verbose".toList ∧ !command.verbose then some { command with verbose := true }
  else none

end Command

namespace Invocation

/-- The argument is an option, or options, and not the value of one. -/
def isOption (argument : Text) : Bool :=
  argument.head? == some '-' && argument != ['-']

/-- Reads the letters of short options, then goes on with `next`. -/
def ofLetters (next : Command → Invocation) : Command → Text → Invocation
  | command, [] => next command
  | command, letter :: later =>
      if letter = 'V' then version
      else if letter = 'h' then help
      else if letter = 'v' then
        match command.withSwitch? "verbose".toList with
        | some command => ofLetters next command later
        | none => misuse
      else misuse

/-- The invocation at the end of all arguments. -/
def ofCommand (command : Command) : Invocation :=
  match command.modelFile with
  | some path => run command path
  | none => misuse

/-- Goes on after taking an argument, unless it was not allowed. -/
def orMisuse (next : Command → Invocation) : Option Command → Invocation
  | some command => next command
  | none => misuse

/-- Reads arguments behind a double hyphen, which are no options. -/
def ofPaths (command : Command) : List Text → Invocation
  | [] => ofCommand command
  | path :: later =>
      match command.withModelFile? path with
      | some command => ofPaths command later
      | none => misuse

/-- Reads the arguments of a command line from left to right. -/
def ofArguments : Command → List Text → Invocation
  | command, [] => ofCommand command
  | command, ['-', '-'] :: later => ofPaths command later
  | command, ('-' :: '-' :: name) :: later =>
      if name = "version".toList then version
      else if name = "help".toList then help
      else if name = "table-dir".toList then
        match later with
        | [] => misuse
        | path :: later =>
            if isOption path then misuse
            else orMisuse (ofArguments · later) (command.withTableDirectory? path)
      else if name.takeWhile (· != '=') = "table-dir".toList then
        orMisuse (ofArguments · later)
          (command.withTableDirectory? (name.dropWhile (· != '=')).tail)
      else orMisuse (ofArguments · later) (command.withSwitch? name)
  | command, argument :: later =>
      if isOption argument then ofLetters (ofArguments · later) command argument.tail
      else orMisuse (ofArguments · later) (command.withModelFile? argument)

end Invocation

namespace Command

/-- How the model file of a command is read. -/
def settings (command : Command) (path : Text) : Settings :=
  { tableDirectory := command.tableDirectory.getD (Path.parent path) }

/-- Prints the model in a file. An error ends the output at the point where it
is found. -/
def answer (command : Command) (path : Text) (files : FileReader) : Answer :=
  match Draft.ofFile (command.settings path) files path with
  | .error error => ⟨1, [], error.message ++ ['\n']⟩
  | .ok draft =>
      let raw :=
        if command.raw then
          "# before substitution\n".toList ++ draft.symbols.summary ++
            "# after substitution\n".toList
        else []
      match Model.ofDraft { validate := !command.noValidate } draft with
      | .error error => ⟨1, raw, error.message ++ ['\n']⟩
      | .ok model =>
          ⟨0, raw ++ (if command.json then model.json ++ ['\n'] else model.summary), []⟩

end Command

namespace Invocation

/-- How the program is called. -/
def usage : Text :=
  "Usage: xode [--json] [--raw] [--no-validate] [--table-dir DIR] [-v] MODEL_FILE\n".toList

/-- The answer to an invocation. -/
def answer (files : FileReader) : Invocation → Answer
  | run command path => command.answer path files
  | version => ⟨0, "xode_core 0.1.0\n".toList, []⟩
  | help => ⟨0, usage, []⟩
  | misuse => ⟨2, [], usage⟩

end Invocation

end OdeModel
