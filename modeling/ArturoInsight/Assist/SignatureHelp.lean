import ArturoInsight.Document.Analysis

/-! The signature of the builtin whose bracket is open at the cursor. -/

namespace ArturoInsight

open Text

structure SignatureHelp where
  label : String
  documentation : String
  params : List Parameter
  active : Nat
deriving DecidableEq, Repr

namespace SignatureHelp

def ofSignature (name : String) (signature : Signature) (arguments : Nat) : SignatureHelp where
  label := name ++ " " ++ " ".intercalate (signature.params.map (·.name))
  documentation := signature.description
  params := signature.params
  active := min arguments (signature.params.length - 1)

/-- The first word of a chain of words with points between them, all of it read backwards. -/
def chainHead? (reversed : List Char) : Option (List Char) :=
  let parts := pieces (· == '.') (reversed.takeWhile fun c => isWord c || c == '.')
  ((parts.takeWhile fun part => !part.isEmpty).getLast?).map List.reverse

structure OpenCall where
  name : List Char
  arguments : List Char
deriving DecidableEq, Repr

def openCall? (text : List Char) : Option OpenCall :=
  let reversed := text.reverse
  match reversed.dropWhile fun c => !(c == '[' || c == ']') with
  | '[' :: before =>
    (chainHead? (before.dropWhile isBlank)).map fun name =>
      ⟨name, (reversed.takeWhile fun c => !(c == '[' || c == ']')).reverse⟩
  | _ => none

end SignatureHelp

namespace Analysis

def codeBefore (analysis : Analysis) (position : Position) : List Char :=
  let current := ((analysis.scans[position.line]?).map (·.blanked)).getD []
  joinLines ((analysis.scans.take position.line).map (·.blanked) ++ [current.take position.character])

def signatureHelp? (analysis : Analysis) (position : Position) : Option SignatureHelp := do
  let _ ← analysis.line? position.line
  let call ← SignatureHelp.openCall? (analysis.codeBefore position)
  let signature ← Catalog.shipped.function? call.name
  if signature.params.isEmpty then none
  else some (.ofSignature (String.ofList call.name) signature (words call.arguments).length)

end Analysis

end ArturoInsight
