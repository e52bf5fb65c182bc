import Curly.Token.Kind
import Curly.Text.Quoted

/-!
# Token tables

A table gives the words and symbols of a language with their token kinds, and the operators with their
binding powers.

## Main definitions

* `Table`: a table whose entries are in force.
* `Table.standard`: the table of the language.
* `Table.Description`: a table as it is written down, with token kinds by name.
* `Table.ofDescription`: the table that a description describes, or what is wrong with it.
-/

namespace Curly

/-- What an operator in front of its operand does. -/
inductive UnaryOperator where
  /-- The opposite truth value. -/
  | not
  /-- The number of opposite sign. -/
  | negate
deriving DecidableEq

namespace UnaryOperator

/-- The spelling of the operator in outlines. -/
def symbol : UnaryOperator → String
  | not => "not"
  | negate => "-"

/-- The name of the operator in tables. -/
def name : UnaryOperator → String
  | not => "not"
  | negate => "negate"

/-- The operator of the given name. -/
def ofName? (s : String) : Option UnaryOperator := [not, negate].find? fun op => op.name == s

@[simp] theorem ofName?_name (op : UnaryOperator) : ofName? op.name = some op := by
  cases op <;> decide

end UnaryOperator

/-- The words, symbols and operators of a language. -/
structure Table where
  /-- The words that are no identifiers. -/
  keywords : List (String × TokenKind)
  /-- The symbols. At each place the longest that fits is taken. -/
  symbols : List (String × TokenKind)
  /-- The binding powers of the binary operators, from one on. An operator that binds stronger takes
  its operands first. -/
  bindingPowers : List (TokenKind × Nat)
  /-- The operators that stand in front of their operand, by name. -/
  unary : List (TokenKind × String)
deriving DecidableEq

namespace Table

/-- The kind of a word that is no identifier. -/
def keyword? (t : Table) (word : String) : Option TokenKind := t.keywords.lookup word

/-- The binding power of a binary operator. -/
def bindingPower? (t : Table) (k : TokenKind) : Option Nat := t.bindingPowers.lookup k

/-- The name of the operator that a kind stands for in front of an operand. -/
def unary? (t : Table) (k : TokenKind) : Option String := t.unary.lookup k

/-- The list with the value at a key replaced, or with a new pair at the end. -/
def assign {α β : Type} [DecidableEq α] (key : α) (value : β) : List (α × β) → List (α × β)
  | [] => [(key, value)]
  | (k, v) :: rest => if k = key then (key, value) :: rest else (k, v) :: assign key value rest

/-- The binding powers of levels of kinds, the weakest level first. A kind that is named twice has the
power of its last level. -/
def powersOfLevels (levels : List (List TokenKind)) : List (TokenKind × Nat) :=
  levels.zipIdx.foldl (fun powers (kinds, level) =>
    kinds.foldl (fun powers kind => assign kind (level + 1) powers) powers) []

/-- The table of the language. -/
def standard : Table where
  keywords := [("var", .varWord), ("do", .doWord), ("loop", .loopWord), ("func", .funcWord),
    ("true", .trueWord), ("false", .falseWord), ("and", .andWord), ("or", .orWord),
    ("not", .notWord)]
  symbols := [("(", .leftParen), (")", .rightParen), ("\x7b", .leftBrace), ("\x7d", .rightBrace),
    (",", .comma), (";", .endOfLine), ("\n", .endOfLine), ("+", .plus), ("-", .minus),
    ("*", .star), ("/", .slash), ("%", .percent), ("=", .equal), ("==", .doubleEqual),
    ("!=", .bangEqual), (">", .greater), (">=", .greaterEqual), ("<", .lesser),
    ("<=", .lesserEqual), ("&", .ampersand), ("|", .pipe), ("!", .bang)]
  bindingPowers := powersOfLevels
    [[.orWord, .pipe], [.andWord, .ampersand], [.doubleEqual, .bangEqual],
      [.lesser, .lesserEqual, .greater, .greaterEqual], [.plus, .minus], [.star, .slash, .percent]]
  unary := [(.notWord, "not"), (.bang, "not"), (.minus, "negate")]

/-- A table as it is written down. A section that is missing is `none`. -/
structure Description where
  /-- Words with the names of their kinds. -/
  keywords : Option (List (String × String))
  /-- Symbols with the names of their kinds. -/
  symbols : Option (List (String × String))
  /-- The names of the binary operators, level by level, the weakest first. -/
  levels : Option (List (List String))
  /-- The kinds that stand in front of an operand, with the names of their operators. -/
  unary : Option (List (String × String))

/-- What is wrong with a description. -/
inductive DescriptionFault where
  /-- A section is missing. -/
  | missingSection
  /-- A kind is named that does not exist. -/
  | unknownKind (name : String)
deriving DecidableEq

namespace DescriptionFault

/-- The complaint in words. -/
def message : DescriptionFault → String
  | missingSection => "a section of the table is missing"
  | unknownKind name => "grammar names unknown token kind " ++ Quoted.inspectString name

end DescriptionFault

/-- The kind of the given name. -/
def kindOf (name : String) : Except DescriptionFault TokenKind :=
  match TokenKind.ofName? name with
  | some kind => .ok kind
  | none => .error (.unknownKind name)

/-- The contents of a section. -/
def sectionOf {α : Type} : Option α → Except DescriptionFault α
  | some a => .ok a
  | none => .error .missingSection

/-- Entries with their kinds looked up; of two entries for one text the later counts. -/
def entriesOf (entries : List (String × String)) :
    Except DescriptionFault (List (String × TokenKind)) :=
  entries.foldlM (fun done (text, name) => do return assign text (← kindOf name) done) []

/-- The table that a description describes. The sections are read in order, and the first fault
counts. -/
def ofDescription (d : Description) : Except DescriptionFault Table := do
  let keywords ← entriesOf (← sectionOf d.keywords)
  let symbols ← entriesOf (← sectionOf d.symbols)
  let levels ← (← sectionOf d.levels).mapM fun names => names.mapM kindOf
  let unary ← (← sectionOf d.unary).foldlM
    (fun done (kind, name) => do return assign (← kindOf kind) name done) []
  return ⟨keywords, symbols, powersOfLevels levels, unary⟩

end Table

end Curly
