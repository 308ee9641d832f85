import ConstantCatalog.Catalog.Load
import ConstantCatalog.Catalog.Session

/-! # Options and answers

The options choose which events are reported, and nothing else. To leave events out commutes with
going on after a value; so loading, asking and a whole run under some options are what they are with
everything on, but for the events that the options do not ask for. -/

namespace ConstantCatalog
set_option autoImplicit false
open Log

def Options.reports (o : Options) : Event → Bool
  | .resolved .. => o.traceMembers
  | .deprecatedUse _ => o.warnDeprecated
  | .loaded .. | .shippedBegin | .shippedEnd _ => true

/-- Whether the options ask for a record, as its level says. -/
def Options.keeps (o : Options) (r : Record) : Bool :=
  match r.level with
  | .trace => o.traceMembers
  | .warn => o.warnDeprecated
  | _ => true

/-- Only resolved members are traced, and only deprecated uses are warned of. -/
theorem Options.keeps_record (o : Options) (event : Event) :
    o.keeps event.record = o.reports event := by
  cases event <;> rfl

/-! ## Leaving events out -/

namespace Logged
variable {α β : Type} (p : Event → Bool)

/-- The same outcome, with only the events that `p` keeps. -/
def keep (x : Logged α) : Logged α := ⟨x.outcome, x.events.filter p⟩

theorem keep_ofExcept (x : Except Fault α) : (ofExcept x).keep p = ofExcept x := rfl

theorem keep_pure (a : α) : (pure a : Logged α).keep p = pure a := rfl

theorem keep_report (events : List Event) : (report events).keep p = report (events.filter p) := rfl

theorem keep_bind (x : Logged α) (f : α → Logged β) :
    (x >>= f).keep p = x.keep p >>= fun a => (f a).keep p := by
  cases hx : x.outcome with
  | ok a =>
    have hkeep : (x.keep p).outcome = .ok a := hx
    rw [bind_of_ok hx, bind_of_ok hkeep, keep, keep, keep, List.filter_append]
  | error fault =>
    have hkeep : (x.keep p).outcome = .error fault := hx
    rw [bind_of_error hx, bind_of_error hkeep, keep, keep]

theorem keep_map (f : α → β) (x : Logged α) : (f <$> x).keep p = f <$> x.keep p := by
  rw [map_eq_pure_bind, map_eq_pure_bind, keep_bind]
  rfl

end Logged

/-! ## Loading -/

namespace Enumeration
variable (o : Options) (e : Enumeration)

theorem memberEvents_eq_filter : e.memberEvents o = (e.memberEvents .full).filter o.reports := by
  rw [memberEvents, memberEvents, Options.full, if_pos rfl, List.filter_map]
  cases htrace : o.traceMembers with
  | true =>
    have hall : e.members.filter (o.reports ∘ fun c => .resolved e.name c.name c.value) =
        e.members := List.filter_eq_self.mpr fun _ _ => htrace
    rw [hall]
    rfl
  | false =>
    have hnone : e.members.filter (o.reports ∘ fun c => .resolved e.name c.name c.value) = [] :=
      List.filter_eq_nil_iff.mpr fun _ _ => Bool.eq_false_iff.mp htrace
    rw [hnone]
    rfl

theorem useEvents_eq_filter (m : Constant) :
    e.useEvents o m = (e.useEvents .full m).filter o.reports := by
  rw [useEvents, useEvents, Options.full, if_pos rfl]
  cases e.notice? m with
  | none => cases o.warnDeprecated <;> rfl
  | some text =>
    rw [Option.map_some, Option.toList_some, List.filter_cons, List.filter_nil]
    rfl

theorem access_eq_keep (name : String) :
    e.access o name = (e.access .full name).keep o.reports := by
  simp only [access, Logged.keep_bind, Logged.keep_ofExcept, Logged.keep_report, Logged.keep_pure,
    ← useEvents_eq_filter]

end Enumeration

theorem Block.resolveReported_eq_keep (o : Options) (b : Block) :
    b.resolveReported o = (b.resolveReported .full).keep o.reports := by
  simp only [resolveReported, Logged.keep_bind, Logged.keep_ofExcept, Logged.keep_report,
    Logged.keep_pure, ← Enumeration.memberEvents_eq_filter]

namespace Catalog
variable (o : Options) (c : Catalog)

theorem add_eq_keep (b : Block) : c.add o b = (c.add .full b).keep o.reports := by
  rw [add, add]
  split
  · rfl
  · simp only [Logged.keep_bind, ← Block.resolveReported_eq_keep]
    rfl

theorem addAll_eq_keep (blocks : List Block) :
    c.addAll o blocks = (c.addAll .full blocks).keep o.reports := by
  induction blocks generalizing c with
  | nil => rfl
  | cons b blocks ih =>
    rw [addAll, addAll, Logged.keep_bind, ← add_eq_keep]
    simp only [← ih]

theorem load_eq_keep (blocks : List Block) : load o blocks = (load .full blocks).keep o.reports :=
  addAll_eq_keep o .empty blocks

theorem ofTexts_eq_keep (texts : List (String × String)) :
    ofTexts o texts = (ofTexts .full texts).keep o.reports := by
  rw [ofTexts, ofTexts, Logged.keep_bind, Logged.keep_ofExcept]
  simp only [← load_eq_keep]

/-! ## Asking -/

theorem access_eq_keep (name used : String) :
    c.access o name used = (c.access .full name used).keep o.reports := by
  simp only [access, Logged.keep_bind, Logged.keep_ofExcept, Logged.keep_pure,
    ← Enumeration.access_eq_keep]

theorem ofName_eq_keep (b : Binding) (name : String) :
    b.ofName o c name = (b.ofName .full c name).keep o.reports := by
  simp only [Binding.ofName, value, Logged.keep_bind, Logged.keep_pure, ← access_eq_keep]
  congr 1
  funext raw
  cases b.ofRaw? raw <;> rfl

theorem ask_eq_keep (q : Query) : c.ask o q = (c.ask .full q).keep o.reports := by
  cases q with
  | value e m =>
    simp only [ask, value, Logged.keep_map, Logged.keep_bind, Logged.keep_pure, ← access_eq_keep]
  | canonicalName e m =>
    simp only [ask, canonicalName, Logged.keep_map, Logged.keep_bind, Logged.keep_pure,
      ← access_eq_keep]
  | member e m =>
    simp only [ask, member, Logged.keep_map, Logged.keep_bind, Logged.keep_pure, ← access_eq_keep]
  | mentions e m x =>
    simp only [ask, mentions, Logged.keep_map, Logged.keep_bind, Logged.keep_pure,
      ← access_eq_keep]
  | variant b m => simp only [ask, Logged.keep_map, ← ofName_eq_keep]
  | _ => rfl

theorem askAll_eq_keep (qs : List Query) : c.askAll o qs =
    ((c.askAll .full qs).1, (c.askAll .full qs).2.filter o.reports) := by
  have hask : ∀ q, (c.ask o q).outcome = (c.ask .full q).outcome ∧
      (c.ask o q).events = (c.ask .full q).events.filter o.reports := by
    intro q
    rw [c.ask_eq_keep o q]
    exact ⟨rfl, rfl⟩
  rw [askAll, askAll, List.filter_flatMap]
  simp only [hask]

end Catalog

/-! ## Runs -/

inductive Source where
  | blocks (blocks : List Block)
  | texts (texts : List (String × String))

namespace Source

def load (o : Options) : Source → Logged Catalog
  | blocks bs => Catalog.load o bs
  | texts ts => Catalog.ofTexts o ts

def run (o : Options) (s : Source) (qs : List Query) : Logged (List (Except Fault Answer)) := do
  let c ← s.load o
  .report (c.askAll o qs).2
  return (c.askAll o qs).1

variable (o : Options) (s : Source)

theorem load_eq_keep : s.load o = (s.load .full).keep o.reports := by
  cases s with
  | blocks bs => exact Catalog.load_eq_keep o bs
  | texts ts => exact Catalog.ofTexts_eq_keep o ts

theorem run_eq_keep (qs : List Query) : s.run o qs = (s.run .full qs).keep o.reports := by
  simp only [run, Logged.keep_bind, Logged.keep_report, Logged.keep_pure, ← load_eq_keep,
    Catalog.askAll_eq_keep o]

/-- No option changes what loading comes to or what a question is answered. The events of a run are
those of the same run with everything on, in their order, but for the resolved members if these are
not traced and the uses of deprecated members if there are no warnings. So are its records, but for
the traces and the warnings. -/
theorem run_options (s : Source) (qs : List Query) :
    (∀ o o' : Options, (s.run o qs).outcome = (s.run o' qs).outcome) ∧
    ∀ o : Options, (s.run o qs).events = (s.run .full qs).events.filter o.reports ∧
      (s.run o qs).events.map (·.record) =
        ((s.run .full qs).events.map (·.record)).filter o.keeps := by
  constructor
  · intro o o'
    rw [run_eq_keep o, run_eq_keep o']
    rfl
  · intro o
    have hevents : (s.run o qs).events = (s.run .full qs).events.filter o.reports := by
      rw [run_eq_keep o]
      rfl
    have hkeeps : o.keeps ∘ Event.record = o.reports := funext o.keeps_record
    rw [List.filter_map, hkeeps, hevents]
    exact ⟨rfl, rfl⟩

/-- With everything off, neither the members nor the use of the old name are reported. -/
example : ((run .plain (.blocks [⟨"E", ⟨"VK_A"⟩, [⟨"OLD", .reference "NEW", ⟨"VK_A"⟩, .renamed⟩,
      ⟨"NEW", .literal 1, ⟨"VK_A"⟩, .absent⟩]⟩]) [.value "E" "OLD"]).events.map
        (·.record.message)) = ["Loaded E (2 members, 1 aliases)"] := by
  decide +kernel

end Source

end ConstantCatalog
