import ArturoInsight.Symbol.Binding
import ArturoInsight.Table
import ArturoInsight.ValueType

/-! The symbols of a document. Its lines are taken in order; the last binding of a name wins, and a
name is a function or a variable, never both. -/

namespace ArturoInsight

open Text Lexical

inductive SymbolKind where
  | plain | function
deriving DecidableEq, Repr, Inhabited

def SymbolKind.name : SymbolKind → String
  | plain => "variable"
  | function => "function"

structure Symbol where
  name : List Char
  line : Nat
  column : Nat
  kind : SymbolKind
  type : ValueType
  value : List Char
deriving DecidableEq, Repr

namespace Symbol

def isFunction (symbol : Symbol) : Bool := symbol.kind == .function

def stop (symbol : Symbol) : Nat := symbol.column + symbol.name.length

def ofBinding (line : Nat) (binding : Binding) : Symbol where
  name := binding.name
  line := line
  column := binding.column
  kind := if isFunctionValue binding.value then .function else .plain
  type := ValueType.infer binding.value
  value := binding.value

def before (left right : Symbol) : Bool :=
  left.line < right.line || (left.line == right.line && left.column ≤ right.column)

end Symbol

structure Symbols where
  values : Table (List Char) Symbol
  functions : Table (List Char) Symbol
  types : List (List Char)
deriving DecidableEq, Repr

namespace Symbols

def empty : Symbols := ⟨[], [], []⟩

def bind (symbols : Symbols) (symbol : Symbol) : Symbols :=
  match symbol.kind with
  | .function =>
    { symbols with
      functions := Table.put symbol.name symbol symbols.functions
      values := symbols.values.remove symbol.name }
  | .plain =>
    { symbols with
      values := Table.put symbol.name symbol symbols.values
      functions := symbols.functions.remove symbol.name }

def defineType (symbols : Symbols) (name : List Char) : Symbols :=
  if symbols.types.contains name then symbols else { symbols with types := symbols.types ++ [name] }

def addLine (symbols : Symbols) (line : Nat) (scan : Scan) : Symbols :=
  let symbols := (definedTypes scan scan.uncommented).foldl defineType symbols
  match Binding.ofLine? scan scan.uncommented with
  | some binding => symbols.bind (.ofBinding line binding)
  | none => symbols

def addFrom (symbols : Symbols) (line : Nat) : List Scan → Symbols
  | [] => symbols
  | scan :: rest => (symbols.addLine line scan).addFrom (line + 1) rest

def ofScans (scans : List Scan) : Symbols := empty.addFrom 0 scans

def ofText (text : List Char) : Symbols := ofScans (scanText text)

def lookup? (symbols : Symbols) (name : List Char) : Option Symbol :=
  (symbols.functions.get? name).or (symbols.values.get? name)

def has (symbols : Symbols) (name : List Char) : Bool :=
  symbols.values.has name || symbols.functions.has name || symbols.types.contains name

def all (symbols : Symbols) : List Symbol :=
  (symbols.values.map (·.2) ++ symbols.functions.map (·.2)).mergeSort Symbol.before

def sortedTypes (symbols : Symbols) : List (List Char) := sorted symbols.types

end Symbols

end ArturoInsight
