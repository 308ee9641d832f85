import ConstantCatalog.Text.Lines
import ConstantCatalog.Log.Filter

/-! # Printed log

The text of records. A record reads `[CLOCK LEVEL PLACE] MESSAGE`, with the level and the message in
the colour of the record when colours are wanted. The clock is given, since a record knows no time. -/

namespace ConstantCatalog.Log
set_option autoImplicit false

structure Color where
  red : Nat
  green : Nat
  blue : Nat
  deriving DecidableEq

namespace Color

/-- Halfway between two colours, each part rounded down. -/
def blend (a b : Color) : Color :=
  ⟨(a.red + b.red) / 2, (a.green + b.green) / 2, (a.blue + b.blue) / 2⟩

def success : Color := ⟨0, 255, 0⟩

def warning : Color := ⟨255, 255, 0⟩

end Color

def Level.color : Level → Color
  | error => ⟨255, 0, 0⟩
  | warn => ⟨255, 255, 0⟩
  | info => ⟨255, 255, 255⟩
  | debug => ⟨200, 200, 255⟩
  | trace => ⟨220, 220, 220⟩

/-- How heavy a level is printed: the code for bold, for faint, or none. -/
def Level.weight : Level → String
  | error | warn => "\x1b[1m"
  | trace => "\x1b[2m"
  | info | debug => ""

namespace Record

/-- The colour of the level, tinted for the targets `success` and `warning`. -/
def color (r : Record) : Color :=
  if r.target = "success" then r.level.color.blend .success
  else if r.target = "warning" then r.level.color.blend .warning
  else r.level.color

def paint (r : Record) (text : String) : String :=
  "\x1b[0m" ++ r.level.weight
    ++ s!"\x1b[38;2;{r.color.red};{r.color.green};{r.color.blue}m" ++ text ++ "\x1b[0m"

def print (colored : Bool) (clock : String) (r : Record) : String :=
  let level := if colored then r.paint r.level.name else r.level.name
  let message := if colored then r.paint r.message else r.message
  s!"[{clock} {level} {r.shownPlace}] {message}"

end Record

/-- The lines of the printed records that a filter admits. A message may take several lines. -/
def page (filter : Filter) (colored : Bool) (clock : String) (records : List Record) :
    List String :=
  let printed := (records.filter filter.admits).map fun r => (r.print colored clock).toList
  (Text.lines (Text.unlines printed)).map String.ofList

/-- What is said when a log is set up that has been set up before. -/
def alreadySetUp : String :=
  "attempted to set a logger after the logging system was already initialized"

end ConstantCatalog.Log
