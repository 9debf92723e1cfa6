import ArturoInsight.Assist.Completion
import ArturoInsight.Assist.Hover
import ArturoInsight.Assist.SignatureHelp
import ArturoInsight.Cursor.Navigation
import ArturoInsight.Cursor.Rename
import ArturoInsight.Layout.Lines
import ArturoInsight.Overlay.Hints
import ArturoInsight.Overlay.Tokens
import ArturoInsight.Overview.Folding
import ArturoInsight.Overview.Outline
import ArturoInsight.Service.Basic

/-! Questions to the service. About a document that is not open it has nothing to say. -/

namespace ArturoInsight.Service

def document? (service : Service) (uri : String) : Option Analysis := service.workspace.get? uri

def hover? (service : Service) (uri : String) (position : Position) : Option Hover :=
  (service.document? uri).bind (·.hover? position)

def complete (service : Service) (uri : String) (position : Position) : List Item :=
  ArturoInsight.complete (service.document? uri) position

def signatureHelp? (service : Service) (uri : String) (position : Position) :
    Option SignatureHelp :=
  (service.document? uri).bind (·.signatureHelp? position)

def definition? (service : Service) (uri : String) (position : Position) : Option Location :=
  (service.document? uri).bind (·.definition? position)

def references (service : Service) (uri : String) (position : Position) : List Location :=
  ((service.document? uri).map (·.references position)).getD []

def highlights (service : Service) (uri : String) (position : Position) : List Region :=
  ((service.document? uri).map (·.uses position)).getD []

def renamable? (service : Service) (uri : String) (position : Position) : Option WordSpan :=
  (service.document? uri).bind (·.renamable? position)

/-- A name that is refused is reported to the user, as are the warnings of one that is taken. -/
def rename (service : Service) (uri : String) (position : Position) (newName : List Char) :
    Option Renaming × List Message :=
  match service.document? uri with
  | none => (none, [])
  | some analysis =>
    match analysis.rename position newName with
    | .error error => (none, [.refuse error.message])
    | .ok none => (none, [])
    | .ok (some outcome) => (some outcome, outcome.warnings.map .warn)

/-- The edits that bring a document into its layout, with the indentation of the settings. -/
def layout (service : Service) (uri : String) : Except Layout.Excess (List Edit) :=
  ((service.document? uri).map fun analysis =>
    Layout.edits service.settings.formatting.indentSize.val analysis.lines).getD (.ok [])

def folds (service : Service) (uri : String) : List Fold :=
  ((service.document? uri).map (·.folds)).getD []

def outline (service : Service) (uri : String) : List OutlineEntry :=
  ((service.document? uri).map (·.outline)).getD []

def search (service : Service) (query : List Char) : List SearchHit :=
  searchSymbols service.workspace.analyses query

def hints (service : Service) (uri : String) (lines : Nat × Nat) : List Hint :=
  let wanted := service.settings.hints
  ((service.document? uri).map fun analysis =>
    analysis.hints (some lines) wanted.parameterNames wanted.types).getD []

def tokens (service : Service) (uri : String) : List Token :=
  ((service.document? uri).map (·.tokens)).getD []

end ArturoInsight.Service
