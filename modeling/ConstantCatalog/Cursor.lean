/-! # Cursors

Going through a list from both ends. A cursor stands for the elements not yet taken from either end;
a tour adds the cursor that was saved last, so that the taken elements can be had again. -/

namespace ConstantCatalog
set_option autoImplicit false

variable {α : Type}

/-- The elements not yet taken, in order. -/
structure Cursor (α : Type) where
  remaining : List α
  deriving DecidableEq

namespace Cursor

/-- Takes the element after the first `n`, which are dropped too. -/
def front (c : Cursor α) (n : Nat) : Option α × Cursor α :=
  (c.remaining[n]?, ⟨c.remaining.drop (n + 1)⟩)

/-- Takes the element before the last `n`, which are dropped too. -/
def back (c : Cursor α) (n : Nat) : Option α × Cursor α :=
  (c.remaining.reverse[n]?, ⟨c.remaining.take (c.remaining.length - (n + 1))⟩)

/-- Nothing is lost at the front: what was taken or dropped comes before what remains. -/
theorem take_append_front (c : Cursor α) (n : Nat) :
    c.remaining.take (n + 1) ++ (c.front n).2.remaining = c.remaining :=
  List.take_append_drop (n + 1) c.remaining

/-- Nothing is lost at the back: what was taken or dropped comes after what remains. -/
theorem back_append_drop (c : Cursor α) (n : Nat) :
    (c.back n).2.remaining ++ c.remaining.drop (c.remaining.length - (n + 1)) = c.remaining :=
  List.take_append_drop (c.remaining.length - (n + 1)) c.remaining

end Cursor

inductive Move where
  | front (skipped : Nat)
  | back (skipped : Nat)
  | count
  | bounds
  | save
  | restore
  | drain
  /-- Takes everything, the last element first. -/
  | drainBack
  deriving DecidableEq

inductive Reply (α : Type) where
  | element (a : Option α)
  | count (n : Nat)
  | bounds (least most : Nat)
  | nothing
  | elements (as : List α)
  deriving DecidableEq

/-- A cursor and the one saved last. -/
structure Tour (α : Type) where
  cursor : Cursor α
  saved : Cursor α
  deriving DecidableEq

namespace Tour

/-- A tour through all elements; its cursor counts as saved. -/
def start (as : List α) : Tour α := ⟨⟨as⟩, ⟨as⟩⟩

def move (t : Tour α) : Move → Reply α × Tour α
  | .front n => let (a, c) := t.cursor.front n; (.element a, { t with cursor := c })
  | .back n => let (a, c) := t.cursor.back n; (.element a, { t with cursor := c })
  | .count => (.count t.cursor.remaining.length, t)
  | .bounds => (.bounds t.cursor.remaining.length t.cursor.remaining.length, t)
  | .save => (.nothing, { t with saved := t.cursor })
  | .restore => (.nothing, { t with cursor := t.saved })
  | .drain => (.elements t.cursor.remaining, { t with cursor := ⟨[]⟩ })
  | .drainBack => (.elements t.cursor.remaining.reverse, { t with cursor := ⟨[]⟩ })

def replies (t : Tour α) : List Move → List (Reply α)
  | [] => []
  | m :: ms => (t.move m).1 :: (t.move m).2.replies ms

end Tour

end ConstantCatalog
