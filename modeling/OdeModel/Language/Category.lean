import OdeModel.Text.Basic

/-!
# Categories of definitions

Every definition of a model belongs to one of nineteen categories. Their order
is that of the listings, and the order in which a name is looked up.
-/

namespace OdeModel

/-- The category of a definition, with a statement that makes one. -/
inductive Category where
  /-- `!name=expr` -/
  | constants
  /-- `name=expr` -/
  | temporaries
  /-- `number name=value` -/
  | numbers
  /-- `name(args)=expr` -/
  | functions
  /-- `0=expr` and `solve name=expr` -/
  | algebraic
  /-- `aux name=expr` -/
  | auxiliary
  /-- `bdry expr` -/
  | boundaries
  /-- `name'=expr`, `dname/dt=expr` and `name(t+1)=expr` -/
  | equations
  /-- `special name=call(args)` -/
  | special
  /-- `name(t)=expr` and `volt name=expr` -/
  | volterra
  /-- `par name=value` -/
  | parameters
  /-- `init name=value` and `name(0)=value` -/
  | initialConditions
  /-- `markov name count` and its rows -/
  | markovs
  /-- `table name ...` -/
  | tables
  /-- `wiener name ...` -/
  | wieners
  /-- `global sign condition {resets}` -/
  | globals
  /-- `set name {assignments}` -/
  | sets
  /-- `@ option=value` -/
  | options
  /-- `export {inputs} {outputs}` -/
  | exports
  deriving Repr, DecidableEq

namespace Category

/-- All categories in order. -/
def all : List Category :=
  [constants, temporaries, numbers, functions, algebraic, auxiliary, boundaries,
    equations, special, volterra, parameters, initialConditions, markovs, tables,
    wieners, globals, sets, options, exports]

/-- The place of a category in the order. -/
def index : Category → Fin 19
  | constants => 0
  | temporaries => 1
  | numbers => 2
  | functions => 3
  | algebraic => 4
  | auxiliary => 5
  | boundaries => 6
  | equations => 7
  | special => 8
  | volterra => 9
  | parameters => 10
  | initialConditions => 11
  | markovs => 12
  | tables => 13
  | wieners => 14
  | globals => 15
  | sets => 16
  | options => 17
  | exports => 18

/-- What a definition of the category is called in a listing. -/
def label : Category → Text
  | constants => "constant".toList
  | temporaries => "temporary".toList
  | numbers => "number".toList
  | functions => "function".toList
  | algebraic => "algebraic expression".toList
  | auxiliary => "auxiliary variable".toList
  | boundaries => "boundary condition".toList
  | equations => "ODE".toList
  | special => "special function".toList
  | volterra => "differential ODE".toList
  | parameters => "parameter".toList
  | initialConditions => "initial condition".toList
  | markovs => "markov process".toList
  | tables => "lookup table".toList
  | wieners => "wiener process".toList
  | globals => "global flag".toList
  | sets => "set".toList
  | options => "option".toList
  | exports => "export".toList

/-- The key of the category in the JSON form of a model. -/
def key : Category → Text
  | constants => "constants".toList
  | temporaries => "temporaries".toList
  | numbers => "numbers".toList
  | functions => "functions".toList
  | algebraic => "algebraic".toList
  | auxiliary => "auxiliary".toList
  | boundaries => "boundaries".toList
  | equations => "equations".toList
  | special => "special".toList
  | volterra => "volterra".toList
  | parameters => "parameters".toList
  | initialConditions => "initial_conditions".toList
  | markovs => "markovs".toList
  | tables => "tables".toList
  | wieners => "wieners".toList
  | globals => "globals".toList
  | sets => "sets".toList
  | options => "options".toList
  | exports => "exports".toList

/-- The categories whose names are replaced by their expressions. -/
def inlined : List Category := [constants, temporaries, numbers]

/-- The categories whose expressions are expanded, in the order of expansion.
Names of a category are inlined into the categories after it. -/
def expanded : List Category :=
  [constants, temporaries, numbers, functions, algebraic, auxiliary, boundaries,
    equations, special, volterra]

/-- The categories whose expressions are integrated and therefore may use only
known names. -/
def integrated : List Category := [equations, volterra, auxiliary, algebraic]

/-- The list of all categories is in the order of their places. -/
theorem all_getElem?_index (c : Category) : all[c.index.val]? = some c := by
  cases c <;> rfl

/-- Categories with the same place are the same. -/
theorem index_injective {c d : Category} (h : c.index = d.index) : c = d := by
  have hc := all_getElem?_index c
  rw [h, all_getElem?_index d] at hc
  exact (Option.some.inj hc).symm

end Category

end OdeModel
