import ArturoInsight.Lint.Rule

/-! Arithmetic between a number and a string in a labelled line. -/

namespace ArturoInsight.Operands

open Text Lexical

inductive Operator where
  | plus | minus | times | divided
deriving DecidableEq, Repr

namespace Operator

def ofChar? : Char → Option Operator
  | '+' => some plus
  | '-' => some minus
  | '*' => some times
  | '/' => some divided
  | _ => none

def verb : Operator → String
  | plus => "add"
  | minus => "subtract"
  | times => "multiply"
  | divided => "divide"

end Operator

structure Sides where
  left : List Char
  operator : Operator
  right : List Char
deriving DecidableEq, Repr

/-- An operator has an operand when some character other than a semicolon follows it. -/
def operator? (c : Char) (rest : List Char) : Option Operator :=
  if rest.head?.any (· != ';') then Operator.ofChar? c else none

def split? : List Char → Option Sides
  | [] => none
  | c :: rest =>
    match operator? c rest with
    | some operator => some ⟨[], operator, rest⟩
    | none =>
      if c == ';' then none
      else (split? rest).map fun sides => { sides with left := c :: sides.left }

/-- The sides of the operation that a value starts with. The left side has one character or more;
one of the blanks before it serves where an operator comes first. -/
def sides? (value : List Char) : Option Sides :=
  match value.dropWhile isBlank with
  | [] => none
  | first :: rest =>
    let later :=
      if first == ';' then none
      else (split? rest).map fun sides => { sides with left := first :: sides.left }
    later.or <|
      if value.head?.any isBlank then (operator? first rest).map fun operator => ⟨[], operator, rest⟩
      else none

structure Operation where
  column : Nat
  operator : Operator
  left : List Char
  right : List Char
deriving DecidableEq, Repr

/-- The operation whose label stands at a place. Label, colon and operator have to be code. -/
def at? (scan : Scan) (column : Nat) (rest : List Char) : Option Operation := do
  let (name, tail) ← run? isWord rest
  let value ← after? [':'] (tail.dropWhile isBlank)
  let colon := column + name.length + (tail.takeWhile isBlank).length
  let sides ← sides? value
  let place := colon + 1 + (value.takeWhile isBlank).length + sides.left.length
  if scan.codeAt column && scan.codeAt colon && scan.codeAt place then
    some ⟨place, sides.operator, trim sides.left, trim (sides.right.takeWhile (· != ';'))⟩
  else none

def ofLine? (scan : Scan) : Option Operation :=
  firstPlace (fun column _ rest => at? scan column rest) scan.uncommented

inductive Family where
  | number | string
deriving DecidableEq, Repr

def Family.name : Family → String
  | number => "number"
  | string => "string"

def Family.ofType? (inferred : ValueType) : Option Family :=
  if inferred.isNumeric then some number else if inferred == .string then some string else none

def operandType (symbols : Symbols) (operand : List Char) : ValueType :=
  let own := ValueType.infer operand
  if own == .any && Name.isIdentifier operand then
    ((symbols.values.get? operand).map (·.type)).getD own
  else own

def message (operator : Operator) (left right : Family) : String :=
  "Type error: Cannot " ++ operator.verb ++ " " ++ left.name ++ " and " ++ right.name

def ofLine (source : Source) (line : Nat) (scan : Scan) : List Issue :=
  match ofLine? scan with
  | none => []
  | some operation =>
    let family operand := Family.ofType? (operandType source.symbols operand)
    match family operation.left, family operation.right with
    | some left, some right =>
      if left = right then []
      else [source.issue .error "E001" (message operation.operator left right) line scan
        operation.column scan.text.length]
    | _, _ => []

def rule : Rule := .byLine "E001" .error ofLine

end ArturoInsight.Operands
