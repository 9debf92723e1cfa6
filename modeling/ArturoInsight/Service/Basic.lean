import ArturoInsight.Document.Workspace
import ArturoInsight.Settings.Merge

/-! The service that an editor talks to: its settings, its workspace and what it sends on its own. -/

namespace ArturoInsight

inductive Message where
  /-- The issues of a document. A closed document has none and no version. -/
  | publish (uri : String) (version : Option Int) (issues : List Issue)
  | refuse (text : String)
  | warn (text : String)
deriving DecidableEq, Repr

structure Service where
  settings : Settings
  workspace : Workspace

/-- The service after an event, with what it sends and what it logs. -/
structure Reply where
  service : Service
  sent : List Message
  notices : List Notice

namespace Service

def fresh : Service where
  settings := .default
  workspace := .empty (.ofSettings Settings.default.diagnostics)

def publication (analysis : Analysis) : Message :=
  .publish analysis.uri analysis.version analysis.issues

/-- New settings, under which every open document is looked at and published again. -/
def install (service : Service) (settings : Settings) (notices : List Notice) : Reply :=
  let workspace := service.workspace.configure (.ofSettings settings.diagnostics)
  { service := ⟨settings, workspace⟩
    sent := workspace.analyses.map publication
    notices }

def configure (validator : Settings.Validator) (service : Service) (payload : Raw) (source : String) : Reply :=
  match Settings.ofClient? payload with
  | none => ⟨service, [], []⟩
  | some override =>
    let (settings, notices) := service.settings.apply validator override source
    service.install settings notices

def put (service : Service) (uri : String) (text : List Char) (version : Option Int) : Reply :=
  let workspace := service.workspace.put uri text version
  { service := { service with workspace }
    sent := ((workspace.get? uri).map publication).toList
    notices := [] }

def close (service : Service) (uri : String) : Reply where
  service := { service with workspace := service.workspace.close uri }
  sent := [.publish uri none []]
  notices := []

end Service

end ArturoInsight
