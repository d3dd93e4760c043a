import OdeModel.Dictionary.Scan
import OdeModel.SymbolTable.Basic
import OdeModel.Text.Name

/-!
# Occurrences of names in expressions

A name occurs where it is found and touches no further name character. A call
is an occurrence with an opening parenthesis right behind it.
-/

namespace OdeModel

namespace Dictionary

/-- The dictionary of the names of some definitions. -/
def ofNames (definitions : List Definition) : Except DuplicateKeyword Dictionary :=
  ofKeywords { } (definitions.map Definition.name)

/-- The occurrences of keywords as complete names. -/
def delimited (d : Dictionary) (expr : Text) : List Occurrence :=
  (d.scan expr).filter fun found => Text.isDelimited expr found.start found.stop

/-- The occurrences of keywords as names of called functions. -/
def calls (d : Dictionary) (expr : Text) : List Occurrence :=
  (d.delimited expr).filter fun found => (Text.dropBytes found.stop expr).head? == some '('

end Dictionary

end OdeModel
