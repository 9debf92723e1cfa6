import ArturoInsight.Catalog.Reading
import ArturoInsight.Files

/-! Catalogs from files. -/

namespace ArturoInsight.Catalog

def load (read : Raw.Reader) (validator : TextValidator) (files : Files) (path : String) :
    Except CatalogError Catalog :=
  match files.find path with
  | .error error =>
    .error (if error.isAbsence then .missing (Path.ofString path).toString else .unopenable error)
  | .ok _ =>
    match files.read path with
    | .error error => .error (.unopenable error)
    | .ok bytes =>
      match read bytes with
      | .error .undecodable => .error .undecodable
      | .error .refused => .error .unreadable
      | .error .broken => .error .broken
      | .ok raw => ofRaw validator raw

end ArturoInsight.Catalog
