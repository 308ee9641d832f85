import ConstantCatalog.Catalog.Session

/-! # Questions

What a question is about. Most questions name one enumeration, and some of them a member of it that
is used for the answer. A question about one enumeration looks that up first and sees nothing else
of the catalog, and it reports nothing but the use of its member. -/

namespace ConstantCatalog
set_option autoImplicit false

namespace Logged
variable {α β : Type}

theorem outcome_map (f : α → β) (x : Logged α) : (f <$> x).outcome = x.outcome.map f := by
  rw [map_eq_pure_bind, outcome_bind]
  cases x.outcome <;> rfl

/-- What is done with a value goes unreported when it has no events of its own. -/
theorem events_bind_of_silent {x : Logged α} {f : α → Logged β} (h : ∀ a, (f a).events = []) :
    (x >>= f).events = x.events := by
  cases hx : x.outcome with
  | ok a => rw [bind_of_ok hx, h, List.append_nil]
  | error fault => rw [bind_of_error hx]

theorem events_ofExcept_bind (x : Except Fault α) (f : α → Logged β) :
    (ofExcept x >>= f).events =
      match x with
      | .ok a => (f a).events
      | .error _ => [] := by
  cases x with
  | ok a => rw [bind_of_ok rfl, events_ofExcept, List.nil_append]
  | error fault => rw [bind_of_error rfl, events_ofExcept]

end Logged

namespace Query

/-- The enumeration that a question is about. -/
def subject? : Query → Option String
  | names | size | enumerations | checkShipped => none
  | enumeration e | memberNames e | memberValues e | members e | canonicalNames e => some e
  | value e _ | canonicalName e _ | member e _ | contains e _ | mentions e _ _ => some e
  | withValue e _ | canonicalWithValue e _ | flagNames e _ | tour e _ => some e
  | check b | variant b _ => some b.enumeration

/-- The name of the member that is used for the answer. -/
def used? : Query → Option String
  | value _ m | canonicalName _ m | member _ m | mentions _ m _ | variant _ m => some m
  | _ => none

end Query

namespace Catalog
variable {c c' : Catalog} {q : Query} {name : String} {o : Options}

/-- A question about one enumeration sees nothing else of the catalog. -/
theorem ask_congr (hq : q.subject? = some name) (h : c.enumeration name = c'.enumeration name) :
    c.ask o q = c'.ask o q := by
  cases q <;> cases hq <;>
    simp only [ask, value, canonicalName, member, mentions, access, withValue, canonicalWithValue?,
      flagNames, Binding.check, Binding.ofName, h]

theorem ask_of_unknown (hq : q.subject? = some name) {f : Fault}
    (h : c.enumeration name = .error f) :
    c.ask o q = ⟨.error f, []⟩ := by
  cases q <;> cases hq <;>
    simp only [ask, value, canonicalName, member, mentions, access, withValue, canonicalWithValue?,
      flagNames, Binding.check, Binding.ofName, h] <;> rfl

/-- Only the use of a member is reported. -/
theorem events_ask_of_unused (h : q.used? = none) : (c.ask o q).events = [] := by
  cases q <;> first | rfl | cases h

theorem events_ask_of_used {used : String} (hq : q.subject? = some name) (h : q.used? = some used) :
    (c.ask o q).events = (c.access o name used).events := by
  cases q <;> cases hq <;> cases h <;>
    simp only [ask, value, canonicalName, member, mentions, Binding.ofName, map_eq_pure_bind,
      bind_assoc, pure_bind] <;>
    apply Logged.events_bind_of_silent <;> intro p
  case variant.refl.refl b => cases b.ofRaw? p.2.value <;> rfl
  all_goals rfl

end Catalog

end ConstantCatalog
