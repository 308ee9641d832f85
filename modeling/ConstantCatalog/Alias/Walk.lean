import ConstantCatalog.Alias.Graph

/-! # Walking an alias graph

The origins of all members, each found by following references from it. A member is marked as active
while the walk that came through it goes on, and as settled once its origin is known, so that no
member is walked through twice. Meeting an active member closes a loop. A walk ends because every
step that follows a reference leaves one fresh member fewer. -/

namespace ConstantCatalog.Alias
set_option autoImplicit false

variable {n : Nat}

/-- What is known of a member. -/
inductive Mark (n : Nat) where
  | fresh
  | active
  | settled (origin : Origin n)
  deriving DecidableEq

def Mark.isFresh : Mark n → Bool
  | fresh => true
  | _ => false

abbrev Marks (n : Nat) := Vector (Mark n) n

def Marks.put (marks : Marks n) (i : Fin n) (mark : Mark n) : Marks n :=
  marks.set i.val mark i.isLt

def Marks.settle (marks : Marks n) (path : List (Fin n)) (origin : Origin n) : Marks n :=
  path.foldl (fun ms i => ms.put i (.settled origin)) marks

structure Walk (n : Nat) where
  marks : Marks n
  /-- The members whose references were followed, the first one first. -/
  path : List (Fin n)
  current : Fin n
  deriving DecidableEq

inductive Step (n : Nat) where
  | follow (next : Walk n)
  | arrive (origin : Origin n) (marks : Marks n)
  /-- The loop, from the member where it is entered back to that member. -/
  | loop (chain : List (Fin n))

namespace Walk

/-- The walk that is about to look at `start`. -/
def begin (marks : Marks n) (start : Fin n) : Walk n :=
  ⟨marks, [], start⟩

/-- Looks at the current member. -/
def step (g : Graph n) (w : Walk n) : Step n :=
  match w.marks[w.current] with
  | .settled origin => .arrive origin w.marks
  | .active => .loop (w.path.dropWhile (· ≠ w.current) ++ [w.current])
  | .fresh =>
    match g w.current with
    | .literal value =>
      .arrive ⟨value, w.current⟩ (w.marks.put w.current (.settled ⟨value, w.current⟩))
    | .reference target =>
      .follow ⟨w.marks.put w.current .active, w.path ++ [w.current], target⟩

def freshCount (w : Walk n) : Nat :=
  w.marks.countP Mark.isFresh

theorem step_eq_follow {g : Graph n} {w next : Walk n} (h : w.step g = .follow next) :
    w.marks[w.current] = .fresh ∧ ∃ target, g w.current = .reference target ∧
      next = ⟨w.marks.put w.current .active, w.path ++ [w.current], target⟩ := by
  unfold step at h
  split at h
  · cases h
  · cases h
  · rename_i hm
    split at h
    · cases h
    · rename_i target hg
      cases h
      exact ⟨hm, target, hg, rfl⟩

/-- Following a reference uses up a fresh member. -/
theorem freshCount_lt_of_follow {g : Graph n} {w next : Walk n} (h : w.step g = .follow next) :
    next.freshCount < w.freshCount := by
  obtain ⟨hm, target, -, rfl⟩ := step_eq_follow h
  have hm' : w.marks[w.current.val] = .fresh := hm
  have hpos : 0 < w.marks.countP Mark.isFresh := by
    rw [Vector.countP_pos_iff]
    exact ⟨w.marks[w.current.val], Vector.getElem_mem _, by rw [hm']; rfl⟩
  have hset : (w.marks.set w.current.val .active w.current.isLt).countP Mark.isFresh =
      w.marks.countP Mark.isFresh - 1 := by
    rw [Vector.countP_set, hm']
    simp [Mark.isFresh]
  simp only [freshCount, Marks.put, hset]
  omega

/-- Walks to the end: the origin of the start and all that is known then, or the loop. -/
def run (g : Graph n) (w : Walk n) : Except (List (Fin n)) (Origin n × Marks n) :=
  match _h : w.step g with
  | .follow next => next.run g
  | .arrive origin marks => .ok (origin, marks.settle w.path origin)
  | .loop chain => .error chain
termination_by w.freshCount
decreasing_by exact freshCount_lt_of_follow _h

end Walk

/-- The origins of the given members, walked from one after the other. -/
def originsFrom (g : Graph n) (marks : Marks n) :
    List (Fin n) → Except (List (Fin n)) (List (Origin n))
  | [] => .ok []
  | start :: rest =>
    match (Walk.begin marks start).run g with
    | .error chain => .error chain
    | .ok (origin, marks) => (originsFrom g marks rest).map (origin :: ·)

/-- The origins of all members in order, or the loop that the first member to have no origin leads
into. -/
def Graph.origins (g : Graph n) : Except (List (Fin n)) (List (Origin n)) :=
  originsFrom g (.replicate n .fresh) (List.finRange n)

end ConstantCatalog.Alias
