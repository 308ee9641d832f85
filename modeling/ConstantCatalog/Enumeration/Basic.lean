import ConstantCatalog.Kind
import ConstantCatalog.Block
import ConstantCatalog.Index

/-! # Enumerations

A checked enumeration: every member knows its value and the member whose literal that is. Lookups
are by name through the index, by value and by canonical member; the canonical members are those
declared with a literal. How an enumeration comes out of a block is not said here. -/

namespace ConstantCatalog
set_option autoImplicit false

structure Constant extends Declaration where
  value : Int32
  /-- The index of the member whose literal the value is. -/
  origin : Nat
  deriving DecidableEq

namespace Constant

def bits (c : Constant) : UInt32 := c.value.toUInt32

def isAlias (c : Constant) : Bool := c.rightSide.isReference

/-- The declaration, followed by the value when the declaration does not show it. -/
def text (c : Constant) : String :=
  let declared := s!"{c.name} = {c.rightSide.text}"
  if c.isAlias then
    declared ++ s!" ({String.ofList (Text.decimal c.value.toInt)})"
  else declared

end Constant

structure Enumeration where
  name : String
  availability : Availability
  members : List Constant
  /-- Where each member stands. -/
  index : Index Nat
  deriving DecidableEq

namespace Enumeration

def kind (e : Enumeration) : Kind := .ofName e.name

def size (e : Enumeration) : Nat := e.members.length

def isEmpty (e : Enumeration) : Bool := e.members.isEmpty

def find? (e : Enumeration) (name : String) : Except Fault (Option Constant) :=
  e.index.find? e.members name

def contains (e : Enumeration) (name : String) : Bool :=
  e.index.contains name

def member (e : Enumeration) (name : String) : Except Fault Constant := do
  match ← e.find? name with
  | some c => .ok c
  | none => .error (.unknownMember e.name name)

/-- The member whose literal is the value of `c`; a constant that belongs elsewhere stands for
itself. -/
def canonical (e : Enumeration) (c : Constant) : Constant :=
  e.members[c.origin]?.getD c

def canonicalMembers (e : Enumeration) : List Constant :=
  e.members.filter (!·.isAlias)

def aliasCount (e : Enumeration) : Nat :=
  e.members.countP (·.isAlias)

def withValue (e : Enumeration) (value : Int32) : List Constant :=
  e.members.filter (·.value == value)

/-- The first member declared with the given value as its literal. -/
def canonicalWithValue? (e : Enumeration) (value : Int32) : Option Constant :=
  e.canonicalMembers.find? (·.value == value)

/-- What to tell whoever uses a deprecated member. -/
def notice? (e : Enumeration) (c : Constant) : Option String :=
  match c.deprecation with
  | .absent => none
  | .renamed => some s!"{c.name} is a deprecated alias, use {(e.canonical c).name}"
  | .unexplained => some s!"{c.name} is deprecated, no reason given"

end Enumeration

end ConstantCatalog
