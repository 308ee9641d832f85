/-! # Log records -/

namespace ConstantCatalog.Log
set_option autoImplicit false

/-- How severe a record is, the most severe level first. -/
inductive Level where
  | error
  | warn
  | info
  | debug
  | trace
  deriving DecidableEq

namespace Level

/-- The position of a level; a more severe one comes earlier. -/
def rank : Level → Nat
  | error => 1
  | warn => 2
  | info => 3
  | debug => 4
  | trace => 5

def name : Level → String
  | error => "ERROR"
  | warn => "WARN"
  | info => "INFO"
  | debug => "DEBUG"
  | trace => "TRACE"

end Level

/-- A message with its level, the target that filters go by, and the place it comes from. -/
structure Record where
  level : Level
  target : String
  place : Option String
  message : String
  deriving DecidableEq

/-- What is printed for the place: the target when no place is known. -/
def Record.shownPlace (r : Record) : String := r.place.getD r.target

end ConstantCatalog.Log
