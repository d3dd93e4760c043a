import OdeModel.Inlining.Atomic
import OdeModel.Inlining.Occurrences
import OdeModel.Inlining.Order

/-!
# Inlining of names

Names of constants, temporaries and numbers are replaced by their expressions,
first among the definitions of one category, in the order of dependence, and
then in all categories that are expanded later and in the entries of markov
processes.
-/

namespace OdeModel

namespace Inlining

/-- The names of definitions and what they stand for. -/
structure Glossary where
  /-- The names. -/
  names : Dictionary
  /-- The definitions, by the numbers of their names. -/
  definitions : List Definition
  /-- Compound expressions get parentheses. -/
  parenthesize : Bool

namespace Glossary

/-- The expression that a name stands for. -/
def meaning (glossary : Glossary) (found : Occurrence) : Text :=
  (glossary.definitions[found.id]?.map Definition.expr).getD found.keyword

/-- The expression with all names replaced except those in `exclude`, and the
number of replacements. They are made from the right, so the positions of the
names still to be replaced stay valid. -/
def replace (glossary : Glossary) (exclude : List Text) (expr : Text) : Text × Nat :=
  let found := (glossary.names.delimited expr).filter fun f => !exclude.contains f.keyword
  let whole :=
    match found with
    | [only] => only.start == 0 && only.stop == Text.width expr
    | _ => false
  let replaced := found.foldr (fun f text =>
    Text.splice text f.start f.stop
      (Text.wrap glossary.parenthesize whole (glossary.meaning f))) expr
  (replaced, found.length)

/-- The definition with all names in its expression replaced. Formal arguments
of a function stand for themselves. -/
def replaceIn (glossary : Glossary) (category : Category) (definition : Definition) :
    Definition :=
  let exclude := if category = .functions then definition.args else []
  { definition with expr := (glossary.replace exclude definition.expr).1 }

/-- A markov process with all names in its entries replaced. -/
def replaceInArgs (glossary : Glossary) (definition : Definition) : Definition :=
  { definition with args := definition.args.map fun entry => (glossary.replace [] entry).1 }

/-- The glossary with the names in one of its definitions replaced. -/
def resolveAt (glossary : Glossary) (index : Nat) : Glossary :=
  { glossary with
    definitions := glossary.definitions.modify index fun definition =>
      { definition with expr := (glossary.replace [] definition.expr).1 } }

/-- The glossary of some definitions, none of which refers to another any more. -/
def ofDefinitions (parenthesize : Bool) (definitions : List Definition) :
    Except ModelError Glossary := do
  let names ← (Dictionary.ofNames definitions).mapError .duplicateKeyword
  let order ← Dependency.ofDefinitions
    (fun expr => (names.delimited expr).map Occurrence.id) definitions
  return order.foldl resolveAt ⟨names, definitions, parenthesize⟩

end Glossary

/-- The categories that are expanded after the given one. -/
def laterThan (category : Category) : List Category :=
  (Category.expanded.dropWhile (· != category)).tail

/-- Replaces the names of one category. -/
def inlineCategory (parenthesize : Bool) (table : SymbolTable) (source : Category) :
    Except ModelError SymbolTable :=
  if (table.get source).isEmpty then .ok table
  else do
    let glossary ← Glossary.ofDefinitions parenthesize (table.get source)
    let expanded := (laterThan source).foldl (fun table target =>
      table.set target ((table.get target).map (glossary.replaceIn target))) table
    let entries := expanded.set .markovs
      ((expanded.get .markovs).map glossary.replaceInArgs)
    return entries.set source glossary.definitions

end Inlining

namespace SymbolTable

/-- The table with the names of constants, temporaries and numbers replaced. -/
def inlineNames (parenthesize : Bool) (table : SymbolTable) : Except ModelError SymbolTable :=
  Category.inlined.foldlM (Inlining.inlineCategory parenthesize) table

end SymbolTable

end OdeModel
