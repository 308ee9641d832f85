import ConstantCatalog.Fault

/-! # Positions by name

The elements of a list are looked up through the positions that their names were entered at. Nothing
here keeps the positions in step with the list: whoever changes the one has to change the other, and
a position that the list does not have is found out when it is read. -/

namespace ConstantCatalog
set_option autoImplicit false

/-- Names with their positions, the latest entry first. -/
structure Index (π : Type) where
  entries : List (String × π)
  deriving DecidableEq

namespace Index
variable {π ρ α : Type}

def empty : Index π := ⟨[]⟩

/-- The position of a name is the one that was entered last. -/
def position? (x : Index π) (name : String) : Option π :=
  x.entries.lookup name

def contains (x : Index π) (name : String) : Bool :=
  (x.position? name).isSome

def insert (x : Index π) (name : String) (position : π) : Index π :=
  ⟨(name, position) :: x.entries⟩

def ofEntries (entries : List (String × π)) : Index π :=
  entries.foldl (fun x entry => x.insert entry.1 entry.2) empty

def map (f : π → ρ) (x : Index π) : Index ρ :=
  ⟨x.entries.map fun entry => (entry.1, f entry.2)⟩

/-- The element at the position of a name, if the name was entered. -/
def find? (x : Index Nat) (elements : List α) (name : String) : Except Fault (Option α) :=
  match x.position? name with
  | none => .ok none
  | some position =>
    match elements[position]? with
    | some a => .ok (some a)
    | none => .error (.outOfRange position elements.length)

end Index

end ConstantCatalog
