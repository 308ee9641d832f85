import ConstantCatalog.Proofs.Catalog.Lookup
import ConstantCatalog.Proofs.Catalog.Question

/-! # Warnings

A question warns when it uses a member that is there and is marked as deprecated, once and whatever
becomes of its answer; the others do not warn. Several questions warn in their order, one after the
other. -/

namespace ConstantCatalog
set_option autoImplicit false
open Log

theorem Query.exists_subject_of_used {q : Query} {used : String} (h : q.used? = some used) :
    ∃ name, q.subject? = some name := by
  cases q <;> first | exact ⟨_, rfl⟩ | cases h

theorem Enumeration.events_access {o : Options} (ho : o.warnDeprecated = true) (e : Enumeration)
    (used : String) :
    (e.access o used).events =
      ((e.member used).toOption.bind e.notice?).toList.map .deprecatedUse := by
  rw [access, Logged.events_ofExcept_bind]
  cases e.member used with
  | error f => rfl
  | ok m =>
    change (Logged.report (e.useEvents o m) >>= fun _ => pure m).events = _
    rw [Logged.events_bind_of_silent fun _ => rfl, Logged.events_report, useEvents, if_pos ho,
      Except.toOption, Option.bind_some, Option.toList_map]

namespace Catalog

/-- The question uses a member of a loaded enumeration. -/
structure Uses (c : Catalog) (q : Query) (e : Enumeration) (m : Constant) : Prop where
  enumeration : e ∈ c.enumerations
  subject : q.subject? = some e.name
  member : m ∈ e.members
  used : q.used? = some m.name

/-- The text of the warning of a question. A member that was renamed has its canonical name in it,
as the catalog gives it when it is asked. -/
inductive Warns (c : Catalog) (q : Query) : String → Prop where
  | renamed {e : Enumeration} {m : Constant} {o : Options} {canonical : String} :
      c.Uses q e m → m.deprecation = .renamed →
      (c.canonicalName o e.name m.name).outcome = .ok canonical →
      Warns c q s!"{m.name} is a deprecated alias, use {canonical}"
  | unexplained {e : Enumeration} {m : Constant} :
      c.Uses q e m → m.deprecation = .unexplained →
      Warns c q s!"{m.name} is deprecated, no reason given"

def warning? (c : Catalog) (q : Query) : Option String := do
  let used ← q.used?
  let name ← q.subject?
  let e ← (c.enumeration name).toOption
  let m ← (e.member used).toOption
  e.notice? m

variable {c : Catalog} {e : Enumeration} {m : Constant} {q : Query} {o : Options}

/-! ## One question -/

theorem Uses.warning?_eq (hc : c.Sound) (h : c.Uses q e m) : c.warning? q = e.notice? m := by
  have he : c.enumeration e.name = .ok e := hc.enumeration_eq_ok_iff.mpr ⟨h.enumeration, rfl⟩
  have hm : e.member m.name = .ok m :=
    (hc.enumerations e h.enumeration).member_eq_ok.mpr ⟨h.member, rfl⟩
  simp only [warning?, h.subject, h.used, Option.bind_eq_bind, Option.bind_some, he, hm,
    Except.toOption]

theorem exists_uses_of_warning? (hc : c.Sound) {text : String} (h : c.warning? q = some text) :
    ∃ e m, c.Uses q e m ∧ e.notice? m = some text := by
  simp only [warning?, Option.bind_eq_bind, Option.bind_eq_some_iff, Outcome.toOption_eq_some] at h
  obtain ⟨used, hused, name, hname, e, he, m, hm, hnotice⟩ := h
  obtain ⟨hemem, rfl⟩ := hc.enumeration_eq_ok_iff.mp he
  obtain ⟨hmmem, rfl⟩ := (hc.enumerations e hemem).member_eq_ok.mp hm
  exact ⟨e, m, ⟨hemem, hname, hmmem, hused⟩, hnotice⟩

theorem Uses.outcome_canonicalName (hc : c.Sound) (h : c.Uses q e m) (o : Options) :
    (c.canonicalName o e.name m.name).outcome = .ok (e.canonical m).name :=
  outcome_canonicalName_of_mem (hc.enumerations e h.enumeration)
    (hc.enumeration_eq_ok_iff.mpr ⟨h.enumeration, rfl⟩) o h.member

theorem warning?_eq_some_iff (hc : c.Sound) {text : String} :
    c.warning? q = some text ↔ c.Warns q text := by
  constructor
  · intro h
    obtain ⟨e, m, huses, hnotice⟩ := exists_uses_of_warning? hc h
    cases hd : m.deprecation with
    | absent =>
      rw [Enumeration.notice?, hd] at hnotice
      cases hnotice
    | renamed =>
      rw [Enumeration.notice?, hd] at hnotice
      cases hnotice
      exact .renamed huses hd (huses.outcome_canonicalName hc .plain)
    | unexplained =>
      rw [Enumeration.notice?, hd] at hnotice
      cases hnotice
      exact .unexplained huses hd
  · intro h
    cases h with
    | @renamed e m o canonical huses hd hcanonical =>
      cases (huses.outcome_canonicalName hc o).symm.trans hcanonical
      rw [huses.warning?_eq hc, Enumeration.notice?, hd]
    | @unexplained e m huses hd => rw [huses.warning?_eq hc, Enumeration.notice?, hd]

/-! ## Sessions -/

theorem events_access (ho : o.warnDeprecated = true) (name used : String) :
    (c.access o name used).events =
      ((c.enumeration name).toOption.bind fun e =>
        (e.member used).toOption.bind e.notice?).toList.map .deprecatedUse := by
  rw [access, Logged.events_ofExcept_bind]
  cases c.enumeration name with
  | error f => rfl
  | ok e =>
    change (e.access o used >>= fun m => pure (e, m)).events = _
    rw [Logged.events_bind_of_silent fun _ => rfl, e.events_access ho, Except.toOption,
      Option.bind_some]

/-- A question warns once or not at all, and reports nothing else. -/
theorem events_ask (ho : o.warnDeprecated = true) (q : Query) :
    (c.ask o q).events = (c.warning? q).toList.map .deprecatedUse := by
  cases hused : q.used? with
  | none =>
    have hnone : c.warning? q = none := by
      rw [warning?, hused]
      rfl
    rw [events_ask_of_unused hused, hnone]
    rfl
  | some used =>
    obtain ⟨name, hname⟩ := q.exists_subject_of_used hused
    rw [events_ask_of_used hname hused, events_access ho, warning?, hused, hname]
    rfl

theorem events_askAll (ho : o.warnDeprecated = true) (qs : List Query) :
    (c.askAll o qs).2 = (qs.filterMap c.warning?).map .deprecatedUse := by
  change qs.flatMap (fun q => (c.ask o q).events) = _
  induction qs with
  | nil => rfl
  | cons q qs ih =>
    rw [List.flatMap_cons, ih, events_ask ho]
    cases hwarning : c.warning? q with
    | none => rw [List.filterMap_cons_none hwarning]; rfl
    | some text => rw [List.filterMap_cons_some hwarning]; rfl

/-- The questions that use a deprecated member of a loaded enumeration are the ones that warn. The
records of a session are their warnings, one for each of them and in their order. -/
theorem warnings_exact {blocks : List Block} (hload : (load o blocks).outcome = .ok c)
    {o' : Options} (ho : o'.warnDeprecated = true) :
    (∀ q text, c.warning? q = some text ↔ c.Warns q text) ∧
      ∀ qs, (c.askAll o' qs).2.map (·.record) = (qs.filterMap c.warning?).map fun text =>
        ⟨.warn, "warning", some Event.memberPlace, s!"[WARNING] {text}"⟩ := by
  constructor
  · intro q text
    exact warning?_eq_some_iff (sound_of_load hload)
  · intro qs
    rw [events_askAll ho, List.map_map]
    rfl

/-- An alias of an alias that was renamed, and a literal that nobody explained. -/
def outdated : Block :=
  ⟨"E", ⟨"VK_A"⟩,
    [⟨"OLDER", .reference "OLD", ⟨"VK_A"⟩, .renamed⟩,
     ⟨"OLD", .reference "NEW", ⟨"VK_A"⟩, .absent⟩,
     ⟨"NEW", .literal 1, ⟨"VK_A"⟩, .absent⟩,
     ⟨"ODD", .literal 2, ⟨"VK_A"⟩, .unexplained⟩]⟩

def outdatedCatalog : Catalog :=
  ⟨[⟨"E", ⟨"VK_A"⟩, List.zipWith (fun d (value, index) => ⟨d, value, index⟩) outdated.members
    [(1, 2), (1, 2), (1, 2), (2, 3)],
    .ofEntries [("OLDER", 0), ("OLD", 1), ("NEW", 2), ("ODD", 3)]⟩],
    .ofEntries [("E", 0)]⟩

def blankBinding : Binding where
  enumeration := "E"
  kind := .value
  variants := []

/-- A question for a variant that ends in a mismatch warns; a check that ends in one does not. -/
theorem warnings_exact_outdated :
    (blankBinding.ofName .full outdatedCatalog "ODD").outcome =
      .error (.bindingMismatch "E" "ODD") ∧
    outdatedCatalog.Warns (.variant blankBinding "ODD") "ODD is deprecated, no reason given" ∧
    (askAll .full outdatedCatalog [.mentions "E" "OLDER" "VK_B", .check blankBinding,
      .contains "E" "ODD", .value "E" "OLDEST", .variant blankBinding "ODD"]).2.map (·.record) =
      [⟨.warn, "warning", some Event.memberPlace,
          "[WARNING] OLDER is a deprecated alias, use NEW"⟩,
        ⟨.warn, "warning", some Event.memberPlace,
          "[WARNING] ODD is deprecated, no reason given"⟩] := by
  have hload : (load .full [outdated]).outcome = .ok outdatedCatalog := by decide +kernel
  have hon : Options.full.warnDeprecated = true := rfl
  obtain ⟨hwarns, hrecords⟩ := warnings_exact hload hon
  refine ⟨by decide +kernel, ?_, ?_⟩
  · exact (hwarns _ _).mp (by decide +kernel)
  · rw [hrecords]
    decide +kernel

end Catalog

end ConstantCatalog
