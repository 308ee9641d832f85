import ConstantCatalog.Fault
import ConstantCatalog.Log.Event

/-! # Logged outcomes

A value or a fault together with the events on the way to it. A fault ends what follows but keeps
the events before it. -/

namespace ConstantCatalog
set_option autoImplicit false
open Log

/-- An outcome and the events that led to it. -/
structure Logged (α : Type) where
  outcome : Except Fault α
  events : List Event

namespace Logged

variable {α β : Type}

def ofExcept (outcome : Except Fault α) : Logged α := ⟨outcome, []⟩

def report (events : List Event) : Logged Unit := ⟨.ok (), events⟩

/-- Goes on with a value, after the events that led to it. -/
def bind (x : Logged α) (f : α → Logged β) : Logged β :=
  match x.outcome with
  | .ok a => ⟨(f a).outcome, x.events ++ (f a).events⟩
  | .error fault => ⟨.error fault, x.events⟩

instance : Monad Logged where
  pure a := ofExcept (.ok a)
  bind := bind

@[simp] theorem outcome_pure (a : α) : (pure a : Logged α).outcome = .ok a := rfl

@[simp] theorem events_pure (a : α) : (pure a : Logged α).events = [] := rfl

@[simp] theorem outcome_report (events : List Event) : (report events).outcome = .ok () := rfl

@[simp] theorem events_report (events : List Event) : (report events).events = events := rfl

@[simp] theorem outcome_ofExcept (x : Except Fault α) : (ofExcept x).outcome = x := rfl

@[simp] theorem events_ofExcept (x : Except Fault α) : (ofExcept x).events = [] := rfl

theorem bind_of_ok {x : Logged α} {a : α} (h : x.outcome = .ok a) (f : α → Logged β) :
    x >>= f = ⟨(f a).outcome, x.events ++ (f a).events⟩ := by
  change bind x f = _
  rw [bind, h]

theorem bind_of_error {x : Logged α} {fault : Fault} (h : x.outcome = .error fault)
    (f : α → Logged β) : x >>= f = ⟨.error fault, x.events⟩ := by
  change bind x f = _
  rw [bind, h]

@[simp] theorem outcome_bind (x : Logged α) (f : α → Logged β) :
    (x >>= f).outcome = x.outcome.bind fun a => (f a).outcome := by
  cases h : x.outcome with
  | ok a => rw [bind_of_ok h]; rfl
  | error fault => rw [bind_of_error h]; rfl

instance : LawfulMonad Logged := LawfulMonad.mk' Logged
  (by
    intro α x
    cases h : x.outcome with
    | ok a =>
      change x >>= (fun a => pure a) = x
      rw [bind_of_ok h]
      cases x; simp_all
    | error fault =>
      change x >>= (fun a => pure a) = x
      rw [bind_of_error h]
      cases x; simp_all)
  (by intro α β a f; rw [bind_of_ok rfl]; simp)
  (by
    intro α β γ x f g
    cases h : x.outcome with
    | error fault =>
      rw [bind_of_error h, bind_of_error h, bind_of_error rfl]
    | ok a =>
      rw [bind_of_ok h, bind_of_ok h]
      cases h' : (f a).outcome with
      | ok b => rw [bind_of_ok h', bind_of_ok rfl, List.append_assoc]
      | error fault => rw [bind_of_error h', bind_of_error rfl])

theorem map_ok (f : α → β) (a : α) (events : List Event) :
    f <$> (⟨.ok a, events⟩ : Logged α) = ⟨.ok (f a), events⟩ := by
  rw [map_eq_pure_bind, bind_of_ok rfl]
  simp

theorem map_error (f : α → β) (fault : Fault) (events : List Event) :
    f <$> (⟨.error fault, events⟩ : Logged α) = ⟨.error fault, events⟩ := by
  rw [map_eq_pure_bind, bind_of_error rfl]

end Logged

end ConstantCatalog
