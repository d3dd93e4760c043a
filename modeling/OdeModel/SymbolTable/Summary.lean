import OdeModel.SymbolTable.Basic
import OdeModel.Number.Whole

/-!
# Listing of a symbol table

One line per definition, in the order of the table.
-/

namespace OdeModel

/-- The texts with a separator between them. -/
def joinTexts (separator : Text) (texts : List Text) : Text :=
  (texts.intersperse separator).flatten

namespace Definition

/-- The name and the expression, as an assignment. -/
def assignment (d : Definition) : Text := ' ' :: d.name ++ '=' :: d.expr

/-- The listing of a definition of the given category, without its label. -/
def details (d : Definition) : Category → Text
  | .functions => ' ' :: d.name ++ '(' :: joinTexts [','] d.args ++ ")=".toList ++ d.expr
  | .equations => ' ' :: d.name ++ "'=".toList ++ d.expr
  | .boundaries => ": ".toList ++ d.expr
  | .algebraic => if d.name.isEmpty then ": 0=".toList ++ d.expr else d.assignment
  | .special => d.assignment ++ '(' :: joinTexts [','] d.args ++ [')']
  | .markovs =>
      ' ' :: d.name ++ " with ".toList ++ d.expr ++ " states: \x7b".toList ++
        joinTexts "\x7d\x7b".toList d.args ++ ['\x7d']
  | .tables =>
      ' ' :: d.name ++ " from ".toList ++ d.expr ++ " (".toList ++ natText d.args.length ++
        " points)".toList
  | .wieners => ' ' :: d.name
  | .globals =>
      ' ' :: d.name ++ " when ".toList ++ d.expr ++ ": ".toList ++ joinTexts [';'] d.args
  | .sets => ' ' :: d.name ++ " \x7b".toList ++ joinTexts [','] d.args ++ ['\x7d']
  | .exports =>
      let inputs := (readCount? d.expr).getD 0
      " \x7b".toList ++ joinTexts [','] (d.args.take inputs) ++ "\x7d -> \x7b".toList ++
        joinTexts [','] (d.args.drop inputs) ++ ['\x7d']
  | _ => d.assignment

end Definition

namespace SymbolTable

/-- The listing of all definitions. -/
def summary (table : SymbolTable) : Text :=
  Category.all.flatMap fun category =>
    (table.get category).flatMap fun d => category.label ++ d.details category ++ ['\n']

end SymbolTable

end OdeModel
