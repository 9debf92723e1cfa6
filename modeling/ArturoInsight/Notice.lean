/-! What happened on the way that a log should hold. Nothing here stops a request. -/

namespace ArturoInsight

inductive Notice where
  | ruleFailed (code file : String)
  | settingsIgnored (source : String)
  | settingsUnreadable (path : String)
  | settingsMissing (path : String)
deriving DecidableEq, Repr

def Notice.isError : Notice → Bool
  | ruleFailed .. => true
  | _ => false

end ArturoInsight
