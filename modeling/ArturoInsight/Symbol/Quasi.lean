import ArturoInsight.Lexical.Scan
import ArturoInsight.Symbol.Name

/-! Names that are bound without a place to point at: parameters, loop variables and dictionary
keys. They are read off the code of a line, and only keep a use from counting as undefined. -/

namespace ArturoInsight

open Text Lexical

def keyword? (word : String) (before : Option Char) (rest : List Char) : Option (List Char) :=
  if before.any isWord then none else after? word.toList rest

def bracketed? (text : List Char) : Option (List Char × List Char) := do
  upTo? ']' (← after? ['['] text)

/-- The word without every colon that small letters follow, and without those letters. -/
def dropAnnotations (dropping : Bool) : List Char → List Char
  | [] => []
  | c :: rest =>
    if dropping && isLower c then dropAnnotations true rest
    else if c == ':' && rest.head?.any isLower then dropAnnotations true rest
    else c :: dropAnnotations false rest

def parameterBlock : Reader (List Char) := fun before rest => do
  let tail ← (keyword? "function" before rest).or
    ((keyword? "method" before rest).or (after? ['$'] rest))
  bracketed? (trimStart tail)

def parameterName : Reader (List Char) := fun before rest => do
  let (_, tail) ← run? isBlank (← keyword? "function" before rest)
  run? isWord (← after? ['\x27'] tail)

def parameters (code : List Char) : List (List Char) :=
  match (finds parameterBlock code).head? with
  | some block =>
    ((words block.value).map (dropAnnotations false)).filter fun word =>
      !word.isEmpty && word.head? != some ':'
  | none => ((finds parameterName code).head?.map (·.value)).toList

/-- The texts that may follow what a loop runs over, a block first and any other word second. -/
def loopTails (before : Option Char) (rest : List Char) : List (List Char) :=
  match (keyword? "loop" before rest).bind (run? isBlank) with
  | none => []
  | some (_, members) =>
    let tails := (bracketed? members).toList ++ (run? (fun c => !isBlank c) members).toList
    tails.filterMap fun tail => (run? isBlank tail.2).map (·.2)

def loopName : Reader (List Char) := fun before rest =>
  (loopTails before rest).findSome? fun tail => (after? ['\x27'] tail).bind (run? isWord)

def loopBlock : Reader (List Char) := fun before rest =>
  (loopTails before rest).findSome? fun tail => do
    let (names, tail) ← bracketed? tail
    let body ← after? ['['] (trimStart tail)
    some (names, body)

def loopVariables (code : List Char) : List (List Char) :=
  (finds loopName code).map (·.value) ++
    (finds loopBlock code).flatMap fun block => (words block.value).map (·.dropWhile (· == '\x27'))

def dictionaryKey : Reader (List Char) := fun _ rest => do
  let (name, tail) ← Name.label? rest
  let (_, tail) ← run? isBlank (← after? [':'] tail)
  some (name, tail)

def dictionaryKeys (code : List Char) : List (List Char) :=
  ((finds dictionaryKey code).map (·.value)).eraseDups

structure Quasi where
  parameters : List (List Char)
  loopVariables : List (List Char)
  dictionaryKeys : List (List Char)
deriving DecidableEq, Repr

namespace Quasi

def ofScans (scans : List Scan) : Quasi where
  parameters := (scans.flatMap fun scan => ArturoInsight.parameters scan.blanked).eraseDups
  loopVariables := (scans.flatMap fun scan => ArturoInsight.loopVariables scan.blanked).eraseDups
  dictionaryKeys := (scans.flatMap fun scan => ArturoInsight.dictionaryKeys scan.blanked).eraseDups

def has (quasi : Quasi) (name : List Char) : Bool :=
  quasi.parameters.contains name || quasi.loopVariables.contains name ||
    quasi.dictionaryKeys.contains name

end Quasi

end ArturoInsight
