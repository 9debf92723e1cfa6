import ArturoInsight.Files
import ArturoInsight.Written.Block

/-! What reads written data out of the bytes of a file. -/

namespace ArturoInsight.Written

def read : Raw.Reader := fun bytes =>
  match decode? bytes with
  | none => .error .undecodable
  | some text =>
    match value? text with
    | none => .error .refused
    | some raw => .ok raw

end ArturoInsight.Written
