import ConstantCatalog.Alias.Walk
import ConstantCatalog.Enumeration.Basic

/-! # From blocks to enumerations

A block becomes an enumeration when its names are distinct, every alias refers to a member, and no
chain of aliases closes. These are checked in that order, each over the whole block, so that the
first fault of the first kind is reported. -/

namespace ConstantCatalog
set_option autoImplicit false
open Alias

/-- The first name that is among `seen` or occurs before in the list. -/
def firstRepeat? (seen : List String) : List String → Option String
  | [] => none
  | name :: rest => if name ∈ seen then some name else firstRepeat? (name :: seen) rest

namespace Block

/-- Every name is entered in the order of the members. -/
def index (b : Block) : Index (Fin b.members.length) :=
  .ofEntries ((List.finRange b.members.length).map fun i => ((b.members.get i).name, i))

def indexOf? (b : Block) (name : String) : Option (Fin b.members.length) :=
  b.index.position? name

/-- The edge of a declaration, unless it refers to no member. -/
def edge? (b : Block) (d : Declaration) : Option (Edge b.members.length) :=
  match d.rightSide with
  | .literal value => some (.literal value)
  | .reference target => (b.indexOf? target).map .reference

def dangling? (b : Block) (d : Declaration) : Option Fault :=
  match d.rightSide with
  | .literal _ => none
  | .reference target =>
    if (b.indexOf? target).isSome then none else some (.danglingAlias b.name d.name target)

theorem isSome_edge?_of_dangling? {b : Block} {d : Declaration} (h : b.dangling? d = none) :
    (b.edge? d).isSome := by
  unfold dangling? at h
  unfold edge?
  split at h
  · rfl
  · split at h
    · rename_i hs; simpa using hs
    · simp at h

def graph (b : Block) : Except Fault (Graph b.members.length) :=
  match h : b.members.findSome? b.dangling? with
  | some fault => .error fault
  | none => .ok fun i => (b.edge? b.members[i]).get <|
      isSome_edge?_of_dangling? (List.findSome?_eq_none_iff.mp h _ (List.getElem_mem i.isLt))

/-- The graph holds the edge of every member. -/
theorem edge?_of_graph {b : Block} {g : Graph b.members.length} (h : b.graph = .ok g)
    (i : Fin b.members.length) : b.edge? b.members[i] = some (g i) := by
  unfold graph at h
  split at h
  · cases h
  · cases h
    simp

def checkNames (b : Block) : Except Fault Unit :=
  match firstRepeat? [] (b.members.map (·.name)) with
  | some name => .error (.repeatedMember b.name name)
  | none => .ok ()

def resolve (b : Block) : Except Fault Enumeration := do
  b.checkNames
  let g ← b.graph
  match g.origins with
  | .error chain => .error (.aliasCycle b.name (chain.map (b.members[·].name)))
  | .ok origins =>
    .ok ⟨b.name, b.availability,
      List.zipWith (fun d origin => ⟨d, origin.value, origin.index⟩) b.members origins,
      b.index.map (·.val)⟩

end Block

end ConstantCatalog
