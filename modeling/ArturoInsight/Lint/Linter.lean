import ArturoInsight.Lint.Brackets
import ArturoInsight.Lint.Operands
import ArturoInsight.Lint.Undefined
import ArturoInsight.Notice
import ArturoInsight.Settings.Basic

/-! A linter runs its rules over a document. A rule that fails adds a notice and no issue; the
issues of all others come in order of position, up to a limit. -/

namespace ArturoInsight

structure Linter where
  rules : List Rule
  limit : Int

namespace Linter

def defaultRules : List Rule := [Brackets.rule, Undefined.rule, Operands.rule]

def default : Linter := ⟨defaultRules, 1000⟩

def ofSettings (settings : DiagnosticsSettings) : Linter where
  rules :=
    if settings.enabled then
      (if settings.bracketBalance then [Brackets.rule] else []) ++
        (if settings.undefinedIdentifiers then [Undefined.rule] else []) ++
        (if settings.typeChecks then [Operands.rule] else [])
    else []
  limit := settings.maxProblems

def limited (limit : Int) (issues : List Issue) : List Issue :=
  if limit < 0 then issues.take (issues.length - limit.natAbs) else issues.take limit.toNat

def found (rules : List Rule) (source : Source) : List Issue :=
  (rules.flatMap fun rule => (rule.check source).getD []).mergeSort Issue.before

def issues (linter : Linter) (source : Source) : List Issue :=
  limited linter.limit (found linter.rules source)

def notices (linter : Linter) (source : Source) : List Notice :=
  (linter.rules.filter fun rule => (rule.check source).isNone).map fun rule =>
    .ruleFailed rule.code source.file

def lintText (linter : Linter) (text : List Char) (file : String) : List Issue :=
  linter.issues (.ofScans (Lexical.scanText text) file Catalog.shipped)

end Linter

end ArturoInsight
