/-!
Why content types, qualities and supported lists are refused, and the words for it.
-/

namespace ContentNegotiation

inductive NumeralFault where
  | empty
  | malformed
deriving DecidableEq, Repr

def NumeralFault.message : NumeralFault → String
  | .empty => "cannot parse float from empty string"
  | .malformed => "invalid float literal"

inductive Error where
  | missingSeparator
  | tooManyParts
  | wildcard
  | malformed
  | qualityNotAllowed
  | invalidQuality (fault : NumeralFault)
  | nonFiniteQuality
  | noSupportedTypes
deriving DecidableEq, Repr

def Error.message : Error → String
  | .missingSeparator => "missing separator \"/\""
  | .tooManyParts => "too many parts"
  | .wildcard => "server content type cannot be a wildcard"
  | .malformed => "malformed content type"
  | .qualityNotAllowed => "quality param not allowed"
  | .invalidQuality _ => "invalid quality param"
  | .nonFiniteQuality => "quality param must be a finite number"
  | .noSupportedTypes => "no supported content types"

end ContentNegotiation
