import OdeModel.Language.Category

/-!
# The symbol table

The definitions of a model, in order, category by category.
-/

namespace OdeModel

/-- A definition: a name, the text of its expression, and its arguments. What
stands for the arguments depends on the category: formal arguments of a
function, entries of a markov process, values of a table. -/
structure Definition where
  /-- The line where it stands. -/
  line : Nat
  /-- The defined name; empty for a definition without one. -/
  name : Text
  /-- The expression. -/
  expr : Text
  /-- The arguments. -/
  args : List Text
  deriving Repr, DecidableEq

/-- The definitions of a model. -/
structure SymbolTable where
  /-- The definitions of each category, in the order of the categories. -/
  records : Vector (List Definition) 19
  deriving Repr, DecidableEq

namespace SymbolTable

/-- The table without definitions. -/
def empty : SymbolTable := ⟨Vector.replicate 19 []⟩

/-- The definitions of a category. -/
def get (table : SymbolTable) (category : Category) : List Definition :=
  table.records[category.index]

/-- The table with other definitions in one category. -/
def set (table : SymbolTable) (category : Category) (definitions : List Definition) :
    SymbolTable :=
  ⟨table.records.set category.index definitions⟩

/-- Adds a definition at the end of a category. -/
def push (table : SymbolTable) (category : Category) (definition : Definition) : SymbolTable :=
  table.set category (table.get category ++ [definition])

/-- The first definition with the given name, in the order of the categories.
Nothing is found under the empty name. -/
def find? (table : SymbolTable) (name : Text) : Option (Category × Definition) :=
  Category.all.findSome? fun category =>
    ((table.get category).find? fun definition =>
      !definition.name.isEmpty && definition.name == name).map (category, ·)

/-- Number of definitions. -/
def size (table : SymbolTable) : Nat :=
  Category.all.foldl (fun count category => count + (table.get category).length) 0

@[simp] theorem get_empty (c : Category) : empty.get c = [] := by
  simp [empty, get]

@[simp] theorem get_set_self (table : SymbolTable) (c : Category) (ds : List Definition) :
    (table.set c ds).get c = ds := by
  simp [set, get]

theorem get_set_of_ne (table : SymbolTable) {c d : Category} (ds : List Definition)
    (h : d ≠ c) : (table.set c ds).get d = table.get d := by
  have hi : c.index.val ≠ d.index.val := fun e =>
    h (Category.index_injective (Fin.ext e)).symm
  simp [set, get, Vector.getElem_set_ne, hi]

@[simp] theorem get_push_self (table : SymbolTable) (c : Category) (definition : Definition) :
    (table.push c definition).get c = table.get c ++ [definition] := by
  simp [push]

theorem get_push_of_ne (table : SymbolTable) {c d : Category} (definition : Definition)
    (h : d ≠ c) : (table.push c definition).get d = table.get d :=
  get_set_of_ne table _ h

end SymbolTable

end OdeModel
