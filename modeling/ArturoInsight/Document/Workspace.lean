import ArturoInsight.Document.Analysis
import ArturoInsight.Table

/-! The open documents, in the order in which they were opened, and the linter that looks at them. -/

namespace ArturoInsight

structure Workspace where
  linter : Linter
  documents : Table String Analysis

namespace Workspace

def empty (linter : Linter) : Workspace := ⟨linter, []⟩

def put (workspace : Workspace) (uri : String) (text : List Char) (version : Option Int) :
    Workspace :=
  { workspace with
    documents := Table.put uri (.ofText uri text workspace.linter version) workspace.documents }

def close (workspace : Workspace) (uri : String) : Workspace :=
  { workspace with documents := workspace.documents.remove uri }

def get? (workspace : Workspace) (uri : String) : Option Analysis := workspace.documents.get? uri

def configure (workspace : Workspace) (linter : Linter) : Workspace where
  linter := linter
  documents := workspace.documents.map fun (uri, analysis) =>
    (uri, .ofText analysis.uri analysis.text linter analysis.version)

def uris (workspace : Workspace) : List String := workspace.documents.keys

def analyses (workspace : Workspace) : List Analysis := workspace.documents.map (·.2)

end Workspace

end ArturoInsight
