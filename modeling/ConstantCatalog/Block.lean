import ConstantCatalog.Availability

/-! # Blocks of declarations

An enumeration as it is declared. Nothing is checked here: names may repeat, and an alias may refer
to nothing or to itself. -/

namespace ConstantCatalog
set_option autoImplicit false

inductive Deprecation where
  | absent
  /-- The name is kept for its users; the member it refers to replaces it. -/
  | renamed
  | unexplained
  deriving DecidableEq

def Deprecation.isPresent (d : Deprecation) : Bool := d ≠ .absent

inductive RightSide where
  | literal (value : Int32)
  /-- The name of a member of the same enumeration. -/
  | reference (target : String)
  deriving DecidableEq

namespace RightSide

def isReference : RightSide → Bool
  | literal _ => false
  | reference _ => true

/-- A literal in decimal, an alias by its target. -/
def text : RightSide → String
  | literal value => String.ofList (Text.decimal value.toInt)
  | reference target => target

end RightSide

structure Declaration where
  name : String
  rightSide : RightSide
  availability : Availability
  deprecation : Deprecation := .absent
  deriving DecidableEq

structure Block where
  name : String
  availability : Availability
  members : List Declaration
  deriving DecidableEq

def Block.add (b : Block) (d : Declaration) : Block :=
  { b with members := b.members ++ [d] }

end ConstantCatalog
