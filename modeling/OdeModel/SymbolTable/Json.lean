import OdeModel.SymbolTable.Basic
import OdeModel.Number.Whole

/-!
# JSON form of a symbol table

An object with one list per category, indented by two spaces per level. The
arguments of a definition are left out where there are none.
-/

namespace OdeModel

namespace Json

/-- The four hexadecimal digits of a control character. -/
def hexDigits (n : Nat) : Text :=
  let digits := Nat.toDigits 16 n
  List.replicate (4 - digits.length) '0' ++ digits

/-- A character inside of a quoted text. Quotes, backslashes and control
characters are escaped. -/
def quotedChar (c : Char) : Text :=
  if c = '\x22' then "\\\"".toList
  else if c = '\\' then "\\\\".toList
  else if c = '\x08' then "\\b".toList
  else if c = '\x0c' then "\\f".toList
  else if c = '\n' then "\\n".toList
  else if c = '\r' then "\\r".toList
  else if c = '\t' then "\\t".toList
  else if c.toNat < 0x20 then "\\u".toList ++ hexDigits c.toNat
  else [c]

/-- A text in quotes. -/
def quoted (s : Text) : Text := '\x22' :: s.flatMap quotedChar ++ ['\x22']

/-- A line break and two spaces per level. -/
def lineBreak (level : Nat) : Text := '\n' :: List.replicate (2 * level) ' '

/-- Items between two brackets, each on a line of its own one level further in. -/
def block (level : Nat) (opening closing : Char) (items : List Text) : Text :=
  if items.isEmpty then [opening, closing]
  else
    opening :: ((items.map fun item => lineBreak (level + 1) ++ item).intersperse [',']).flatten ++
      lineBreak level ++ [closing]

/-- A key and its value. -/
def field (key value : Text) : Text := quoted key ++ ": ".toList ++ value

end Json

namespace Definition

/-- The JSON form of a definition that stands at the given level. -/
def json (level : Nat) (d : Definition) : Text :=
  let required :=
    [Json.field "line".toList (natText d.line), Json.field "name".toList (Json.quoted d.name),
      Json.field "expr".toList (Json.quoted d.expr)]
  let arguments :=
    if d.args.isEmpty then []
    else
      [Json.field "args".toList (Json.block (level + 1) '[' ']' (d.args.map Json.quoted))]
  Json.block level '\x7b' '\x7d' (required ++ arguments)

end Definition

namespace SymbolTable

/-- The JSON form of a symbol table. -/
def json (table : SymbolTable) : Text :=
  Json.block 0 '\x7b' '\x7d' <| Category.all.map fun category =>
    Json.field category.key <|
      Json.block 1 '[' ']' ((table.get category).map (Definition.json 2))

end SymbolTable

end OdeModel
