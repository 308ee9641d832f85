import ConstantCatalog.Text.Lines
import ConstantCatalog.Block
import ConstantCatalog.BlockText.Literal

/-! # Writing block text

Blocks as text that the reader takes back. The writer chooses for each member whether to repeat the
tag of its block and how to write its literal; what the reader could not restore is always written.
Names are written as they are, so that text which reads back needs identifiers for names. -/

namespace ConstantCatalog.BlockText
set_option autoImplicit false

structure Form where
  /-- Whether the tag is written even when the block has the same one. -/
  tagged : Bool
  /-- Whether a literal is written as a bit pattern. -/
  patterned : Bool
  deriving DecidableEq

namespace Form

/-- The form that leaves nothing out and writes literals in decimal. -/
def canonical : Form := ⟨true, false⟩

end Form

def tagLine (a : Availability) : List Char :=
  "// Provided by ".toList ++ a.tag.toList

def noteLines (name : String) : Deprecation → List (List Char)
  | .absent => []
  | .renamed => ["// ".toList ++ name.toList ++ " is a deprecated alias".toList]
  | .unexplained => ["// ".toList ++ name.toList ++ " is deprecated".toList]

def rightSideText (form : Form) : RightSide → List Char
  | .literal value => if form.patterned then Literal.pattern value else Literal.decimal value
  | .reference target => target.toList

def declarationLine (form : Form) (d : Declaration) : List Char :=
  d.name.toList ++ " = ".toList ++ rightSideText form d.rightSide ++ [',']

/-- The lines of a member in a block that `provider` provides. -/
def memberLines (form : Form) (provider : Availability) (d : Declaration) : List (List Char) :=
  (if form.tagged || d.availability ≠ provider then [tagLine d.availability] else [])
    ++ noteLines d.name d.deprecation ++ [declarationLine form d]

def openingLine (name : List Char) : List Char :=
  "typedef enum ".toList ++ name ++ [' ', '{']

def closingLine (name : List Char) : List Char :=
  ['}', ' '] ++ name ++ [';']

/-- The lines of a block, whose members have the given forms by index. -/
def blockLines (forms : Nat → Form) (b : Block) : List (List Char) :=
  [tagLine b.availability, openingLine b.name.toList]
    ++ b.members.zipIdx.flatMap (fun (d, i) => memberLines (forms i) b.availability d)
    ++ [closingLine b.name.toList]

/-- The text with the given lines, each ended by a line feed. -/
def ofLines (texts : List (List Char)) : String :=
  String.ofList (Text.unlines texts)

/-- The text of some blocks, whose members have the given forms by index of block and member. -/
def print (forms : Nat → Nat → Form) (blocks : List Block) : String :=
  ofLines (blocks.zipIdx.flatMap fun (b, i) => blockLines (forms i) b)

def canonical (blocks : List Block) : String :=
  print (fun _ _ => .canonical) blocks

end ConstantCatalog.BlockText
