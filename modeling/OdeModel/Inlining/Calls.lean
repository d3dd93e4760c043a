import OdeModel.Inlining.Atomic
import OdeModel.Inlining.Names
import OdeModel.Inlining.Occurrences
import OdeModel.Inlining.Order
import OdeModel.Scope
import OdeModel.Text.Operand

/-!
# Inlining of function calls

A call of a defined function is replaced by the body of the function with the
actual arguments in the places of the formal ones. Functions are resolved in
the order of dependence, so a body holds no call by the time it is used.
-/

namespace OdeModel

namespace Inlining

/-- The body of a function and the places of its formal arguments. -/
structure Template where
  /-- The body. -/
  body : Text
  /-- Number of formal arguments. -/
  arity : Nat
  /-- The occurrences of the formal arguments in the body. -/
  places : List Occurrence
  deriving Repr, DecidableEq

namespace Template

/-- The template of a function. -/
def ofDefinition (definition : Definition) : Except DuplicateKeyword Template := do
  let formals ← Dictionary.ofKeywords { } definition.args
  return ⟨definition.expr, definition.args.length, formals.delimited definition.expr⟩

/-- The body with an actual argument in every place of a formal one. -/
def instantiate (template : Template) (parenthesize : Bool) (actuals : List Text) : Text :=
  template.places.foldr (fun place body =>
    Text.splice body place.start place.stop
      (Text.wrap parenthesize false (actuals[place.id]?.getD place.keyword))) template.body

end Template

/-- The functions of a model while their calls are inlined. -/
structure Functions where
  /-- The names of the functions. -/
  names : Dictionary
  /-- The templates of the functions that are resolved, by number. -/
  templates : List (Nat × Template)
  /-- The names an actual argument may use. -/
  scope : Scope
  /-- Compound expressions get parentheses. -/
  parenthesize : Bool

namespace Functions

/-- The position of the first operand of an actual argument that is neither
known nor one of the formal arguments in force. -/
def unknownOperand? (functions : Functions) (locals : List Text) (actual : Text) : Option Nat :=
  ((Text.operands actual).find? fun operand =>
    !(operand.isNumber || functions.scope.isKnown operand.text ||
      locals.contains operand.text)).map Operand.offset

/-- Checks the actual arguments in `expr`, which belongs to the given line. -/
def checkActuals (functions : Functions) (line : Nat) (locals : List Text) (expr : Text) :
    List (Nat × Text) → Except ModelError Unit
  | [] => .ok ()
  | (offset, actual) :: later =>
      match functions.unknownOperand? locals actual with
      | some column => .error (.located .unknownName ⟨line, expr, offset + column⟩)
      | none => functions.checkActuals line locals expr later

/-- Replaces one call in `expr`. The call of a function that is not resolved
stays. -/
def replaceCall (functions : Functions) (line : Nat) (locals : List Text) (expr : Text)
    (call : Occurrence) : Except ModelError Text :=
  match functions.templates.lookup call.id with
  | none => .ok expr
  | some template =>
      match Text.splitList expr call.stop (· == ',') with
      | .error offset => .error (.located .expectedListArgument ⟨line, expr, offset⟩)
      | .ok (items, close) =>
          if items.length ≠ template.arity then
            .error (.located .missingArgument ⟨line, expr, call.stop⟩)
          else do
            functions.checkActuals line locals expr items
            let body := template.instantiate functions.parenthesize (items.map Prod.snd)
            let whole := call.start == 0 && close + 1 == Text.width expr
            return Text.splice expr call.start (close + 1)
              (Text.wrap functions.parenthesize whole body)

/-- Replaces all calls in an expression from the right, so that an argument is
finished before the call it belongs to. -/
def replaceCalls (functions : Functions) (line : Nat) (locals : List Text) (expr : Text) :
    Except ModelError Text :=
  (functions.names.calls expr).foldrM
    (fun call expr => functions.replaceCall line locals expr call) expr

/-- The definition with all calls in its expression replaced. -/
def replaceIn (functions : Functions) (definition : Definition) :
    Except ModelError Definition := do
  return { definition with
    expr := ← functions.replaceCalls definition.line [] definition.expr }

/-- A markov process with all calls in its entries replaced. -/
def replaceInArgs (functions : Functions) (definition : Definition) :
    Except ModelError Definition := do
  return { definition with
    args := ← definition.args.mapM (functions.replaceCalls definition.line []) }

/-- Replaces the calls in the body of one of the functions and makes its
template. -/
def resolveAt (state : Functions × List Definition) (index : Nat) :
    Except ModelError (Functions × List Definition) :=
  let (functions, definitions) := state
  match definitions[index]? with
  | none => .ok state
  | some definition => do
      let expr ← functions.replaceCalls definition.line definition.args definition.expr
      let resolved := { definition with expr }
      let template ← (Template.ofDefinition resolved).mapError .duplicateKeyword
      return ({ functions with templates := (index, template) :: functions.templates },
        definitions.set index resolved)

/-- The templates of all functions, and the functions with resolved bodies. -/
def ofDefinitions (scope : Scope) (parenthesize : Bool) (definitions : List Definition) :
    Except ModelError (Functions × List Definition) := do
  let names ← (Dictionary.ofNames definitions).mapError .duplicateKeyword
  let order ← Dependency.ofDefinitions
    (fun expr => (names.calls expr).map Occurrence.id) definitions
  order.foldlM resolveAt (⟨names, [], scope, parenthesize⟩, definitions)

end Functions

end Inlining

namespace SymbolTable

/-- The table with all calls of defined functions replaced. -/
def inlineFunctions (scope : Scope) (parenthesize : Bool) (table : SymbolTable) :
    Except ModelError SymbolTable :=
  if (table.get .functions).isEmpty then .ok table
  else do
    let (functions, definitions) ←
      Inlining.Functions.ofDefinitions scope parenthesize (table.get .functions)
    let expanded ← (Inlining.laterThan .functions).foldlM (fun (table : SymbolTable) target => do
      return table.set target (← (table.get target).mapM functions.replaceIn))
      (table.set .functions definitions)
    return expanded.set .markovs
      (← (expanded.get .markovs).mapM functions.replaceInArgs)

/-- The table with names and then calls replaced. -/
def expand (scope : Scope) (parenthesize : Bool) (table : SymbolTable) :
    Except ModelError SymbolTable := do
  (← table.inlineNames parenthesize).inlineFunctions scope parenthesize

end SymbolTable

end OdeModel
