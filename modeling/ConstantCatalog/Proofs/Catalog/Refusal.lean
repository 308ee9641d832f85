import ConstantCatalog.Proofs.Binding.Symbols
import ConstantCatalog.Proofs.Block.Diagnosis
import ConstantCatalog.Proofs.Catalog.Question
import ConstantCatalog.Proofs.Catalog.Texts
import ConstantCatalog.Proofs.Enumeration.Flags

/-! # Refused questions

Every fault on the way to a catalog prevents loading, and no question to a catalog has such a fault.
Nor does a question read beyond the end of a list, since every position in an index is in range.
A question about an enumeration that is not there is refused for this reason, whatever else it asks.
Otherwise a missing member, a mask or a binding is the reason, each for the questions that have to
do with it. -/

namespace ConstantCatalog
set_option autoImplicit false

/-! ## Faults of loading -/

theorem BlockText.preventsLoading_of_read {source text : String} {f : Fault}
    (h : read source text = .error f) : f.preventsLoading = true := by
  obtain ⟨c, -, rfl⟩ := read_eq_error_iff.mp h
  rfl

theorem Block.preventsLoading_of_resolve {b : Block} {f : Fault} (h : b.resolve = .error f) :
    f.preventsLoading = true := by
  cases diagnosis_of_resolve h <;> rfl

namespace Catalog
variable {o : Options} {c : Catalog} {blocks : List Block} {f : Fault}

theorem preventsLoading_of_addAll (h : (c.addAll o blocks).outcome = .error f) :
    f.preventsLoading = true := by
  induction blocks generalizing c with
  | nil => cases h
  | cons b blocks ih =>
    rcases Logged.outcome_bind_eq_error.mp h with hadd | ⟨next, -, hrest⟩
    · rcases add_eq_error_iff.mp hadd with ⟨-, rfl⟩ | ⟨-, hresolve⟩
      · rfl
      · exact Block.preventsLoading_of_resolve hresolve
    · exact ih hrest

theorem preventsLoading_of_ofTexts {texts : List (String × String)}
    (h : (ofTexts o texts).outcome = .error f) : f.preventsLoading = true := by
  rcases readTexts_cases texts with ⟨parts, -, hread⟩ |
    ⟨_, source, _, _, line, malformation, -, -, -, hread⟩
  · rw [ofTexts_of_ok o hread] at h
    exact preventsLoading_of_addAll h
  · rw [ofTexts_of_error o hread] at h
    cases h
    rfl

end Catalog

/-! ## Faults of questions -/

/-- The fault is the answer to a question: there is a catalog, and no position was out of range. -/
structure Fault.IsAnswer (f : Fault) : Prop where
  loaded : f.preventsLoading = false
  inRange : ∀ position length, f ≠ .outOfRange position length

namespace Enumeration

/-- Why a question about the enumeration is refused. -/
inductive Refuses (e : Enumeration) : Query → Fault → Prop where
  /-- A member is to be used that the enumeration does not contain. -/
  | member {q : Query} {used : String} :
      q.used? = some used → e.contains used = false →
      Refuses e q (.unknownMember e.name used)
  | kind {mask : UInt32} :
      e.kind ≠ .flags → Refuses e (.flagNames e.name mask) (.notFlags e.name)
  | bits {mask : UInt32} :
      e.kind = .flags → e.uncovered mask ≠ 0 →
      Refuses e (.flagNames e.name mask) (.uncoveredBits e.name (e.uncovered mask))
  | disagreement {b : Binding} {name : String} :
      b.Disagrees e name → Refuses e (.check b) (.bindingMismatch e.name name)
  /-- The member is there, but the binding has no variant for its value. -/
  | variant {b : Binding} {m : Constant} :
      m ∈ e.members → (∀ v ∈ b.variants, v.raw ≠ m.value) →
      Refuses e (.variant b m.name) (.bindingMismatch e.name m.name)

variable {e : Enumeration} {q : Query} {f : Fault}

theorem isAnswer_of_refuses (h : e.Refuses q f) : f.IsAnswer := by
  cases h <;> exact ⟨rfl, nofun⟩

/-- A question that uses a member and has no binding is refused as the member is. -/
theorem Sound.member_eq_error_iff_refuses (hsound : e.Sound) {used : String}
    (hused : q.used? = some used) (hvariant : ∀ b, q ≠ .variant b used) :
    e.member used = .error f ↔ e.Refuses q f := by
  rw [hsound.member_eq_error_iff, ← hsound.contains_eq_false_iff]
  constructor
  · intro ⟨hnone, hf⟩
    rw [hf]
    exact .member hused hnone
  · intro h
    cases h with
    | member hother hnone =>
      cases hother.symm.trans hused
      exact ⟨hnone, rfl⟩
    | @variant b m =>
      cases hused
      exact absurd rfl (hvariant b)
    | kind => cases hused
    | bits => cases hused
    | disagreement => cases hused

/-- A question that only goes through what is there is not refused. -/
theorem not_refuses (hused : q.used? = none) (hflags : ∀ name mask, q ≠ .flagNames name mask)
    (hcheck : ∀ b, q ≠ .check b) : ¬ e.Refuses q f := by
  intro h
  cases h with
  | member hother => cases hother.symm.trans hused
  | kind => exact hflags _ _ rfl
  | bits => exact hflags _ _ rfl
  | disagreement => exact hcheck _ rfl
  | variant => cases hused

theorem flagNames_eq_error_iff {mask : UInt32} :
    e.flagNames mask = .error f ↔ e.Refuses (.flagNames e.name mask) f := by
  constructor
  · intro h
    by_cases hkind : e.kind = .flags
    · by_cases hmask : mask = 0
      · rw [hmask, flagNames_zero hkind] at h
        cases h
      · by_cases huncovered : e.uncovered mask = 0
        · rw [flagNames_of_uncovered_eq_zero hkind hmask huncovered] at h
          cases h
        · rw [flagNames_of_uncovered_ne_zero hkind hmask huncovered] at h
          cases h
          exact .bits hkind huncovered
    · rw [flagNames, if_pos hkind] at h
      cases h
      exact .kind hkind
  · intro h
    cases h with
    | member hused => cases hused
    | kind hkind => rw [flagNames, if_pos hkind]
    | bits hkind huncovered =>
      have hmask : mask ≠ 0 := by
        rintro rfl
        rw [uncovered, Mask.bits_zero] at huncovered
        exact huncovered rfl
      exact flagNames_of_uncovered_ne_zero hkind hmask huncovered

end Enumeration

namespace Catalog
open Binding
variable {o : Options} {c : Catalog} {e : Enumeration} {q : Query} {f : Fault}

section Loaded
variable (hc : c.Sound) (he : e ∈ c.enumerations)
include hc he

theorem check_eq_error_iff_refuses {b : Binding} (hname : e.name = b.enumeration) :
    b.check c = .error f ↔ e.Refuses (.check b) f := by
  rw [Binding.check_eq_error_iff hc he hname, ← hname]
  constructor
  · intro ⟨name, hf, hdisagrees⟩
    rw [hf]
    exact .disagreement hdisagrees
  · intro h
    cases h with
    | member hused => cases hused
    | disagreement hdisagrees => exact ⟨_, rfl, hdisagrees⟩

theorem outcome_ofName_eq_error_iff_refuses {b : Binding} (hname : e.name = b.enumeration)
    {used : String} : (b.ofName o c used).outcome = .error f ↔ e.Refuses (.variant b used) f := by
  have hsound := hc.enumerations e he
  rw [Binding.outcome_ofName (hc.enumeration_eq_ok_iff.mpr ⟨he, hname⟩), ← hname]
  constructor
  · intro h
    rcases Outcome.bind_eq_error.mp h with hmember | ⟨m, hmember, hraw⟩
    · obtain ⟨hnone, rfl⟩ := hsound.member_eq_error_iff.mp hmember
      exact .member rfl (hsound.contains_eq_false_iff.mpr hnone)
    · obtain ⟨hm, rfl⟩ := hsound.member_eq_ok.mp hmember
      cases hfound : b.ofRaw? m.value with
      | some v =>
        rw [hfound] at hraw
        cases hraw
      | none =>
        rw [hfound] at hraw
        cases hraw
        exact .variant hm (Keyed.find?_eq_none_iff.mp hfound)
  · intro h
    cases h with
    | member hused hnone =>
      cases hused
      rw [hsound.member_eq_error_iff.mpr ⟨hsound.contains_eq_false_iff.mp hnone, rfl⟩]
      rfl
    | @variant _ m hm hraw =>
      have hnone : b.ofRaw? m.value = none := Keyed.find?_eq_none_iff.mpr hraw
      rw [hsound.member_eq_ok.mpr ⟨hm, rfl⟩]
      simp only [Except.bind, hnone]

/-- A question about a loaded enumeration has a fault exactly when the enumeration refuses it. -/
theorem outcome_ask_eq_error_iff {name : String} (hname : e.name = name)
    (hq : q.subject? = some name) : (c.ask o q).outcome = .error f ↔ e.Refuses q f := by
  have hsound := hc.enumerations e he
  have hfound : c.enumeration name = .ok e := hc.enumeration_eq_ok_iff.mpr ⟨he, hname⟩
  cases q with
  | names | size | enumerations | checkShipped => cases hq
  | enumeration _ | memberNames _ | memberValues _ | members _ | canonicalNames _ | contains _ _
  | tour _ _ =>
    cases hq
    rw [ask, hfound]
    exact iff_of_false (by simp [Except.map]) (Enumeration.not_refuses rfl (by simp) (by simp))
  | withValue _ value =>
    cases hq
    rw [ask, withValue_of_enumeration hfound]
    exact iff_of_false (by simp [Except.map]) (Enumeration.not_refuses rfl (by simp) (by simp))
  | canonicalWithValue _ value =>
    cases hq
    rw [ask, canonicalWithValue?_of_enumeration hfound]
    exact iff_of_false (by simp [Except.map]) (Enumeration.not_refuses rfl (by simp) (by simp))
  | value _ used =>
    cases hq
    rw [ask, Logged.outcome_map, outcome_value hfound, Outcome.map_eq_error, Outcome.map_eq_error]
    exact hsound.member_eq_error_iff_refuses rfl (by simp)
  | canonicalName _ used =>
    cases hq
    rw [ask, Logged.outcome_map, outcome_canonicalName hfound, Outcome.map_eq_error,
      Outcome.map_eq_error]
    exact hsound.member_eq_error_iff_refuses rfl (by simp)
  | member _ used =>
    cases hq
    rw [ask, Logged.outcome_map, outcome_member hfound, Outcome.map_eq_error]
    exact hsound.member_eq_error_iff_refuses rfl (by simp)
  | mentions _ used extension =>
    cases hq
    rw [ask, Logged.outcome_map, outcome_mentions hfound, Outcome.map_eq_error,
      Outcome.map_eq_error]
    exact hsound.member_eq_error_iff_refuses rfl (by simp)
  | flagNames _ mask =>
    cases hq
    cases hname
    rw [ask, Logged.outcome_ofExcept, Outcome.map_eq_error, flagNames_of_enumeration hfound,
      Enumeration.flagNames_eq_error_iff]
  | check b =>
    cases hq
    rw [ask, Logged.outcome_ofExcept, Outcome.map_eq_error, check_eq_error_iff_refuses hc he hname]
  | variant b used =>
    cases hq
    rw [ask, Logged.outcome_map, Outcome.map_eq_error,
      outcome_ofName_eq_error_iff_refuses hc he hname]

end Loaded

theorem outcome_ask_eq_unknown_iff (hc : c.Sound) {name : String} (hq : q.subject? = some name) :
    (c.ask o q).outcome = .error (.unknownEnumeration name) ↔
      name ∉ c.enumerations.map (·.name) := by
  constructor
  · intro h hmem
    obtain ⟨e, he, hname⟩ := List.mem_map.mp hmem
    cases (outcome_ask_eq_error_iff hc he hname hq).mp h
  · intro hname
    rw [ask_of_unknown hq (hc.enumeration_eq_error_iff.mpr ⟨hname, rfl⟩)]

theorem isAnswer_of_subject (hc : c.Sound) {name : String} (hq : q.subject? = some name)
    (h : (c.ask o q).outcome = .error f) : f.IsAnswer := by
  by_cases hname : name ∈ c.enumerations.map (·.name)
  · obtain ⟨e, he, rfl⟩ := List.mem_map.mp hname
    exact Enumeration.isAnswer_of_refuses ((outcome_ask_eq_error_iff hc he rfl hq).mp h)
  · rw [(outcome_ask_eq_unknown_iff hc hq).mpr hname] at h
    cases h
    exact ⟨rfl, nofun⟩

theorem isAnswer_of_checkAll (hc : c.Sound) {bindings : List Binding}
    (h : Binding.checkAll c bindings = .error f) : f.IsAnswer := by
  induction bindings with
  | nil => cases h
  | cons b bindings ih =>
    rcases Outcome.bind_eq_error.mp h with hcheck | ⟨-, -, hrest⟩
    · have hask : (c.ask .plain (.check b)).outcome = .error f := Outcome.map_eq_error.mpr hcheck
      exact isAnswer_of_subject hc rfl hask
    · exact ih hrest

theorem isAnswer_of_ask (hc : c.Sound) (h : (c.ask o q).outcome = .error f) : f.IsAnswer := by
  cases hq : q.subject? with
  | some name => exact isAnswer_of_subject hc hq h
  | none =>
    cases q with
    | checkShipped => exact isAnswer_of_checkAll hc (Outcome.map_eq_error.mp h)
    | names | size | enumerations => cases h
    | _ => cases hq

/-- Whatever keeps a text, a block or a catalog from being read, resolved or loaded prevents
loading. In a loaded catalog every position that is read is there: the canonical member behind a
member stands at its origin, and what an index has under a name stands at the position it gives. So
no question reads out of range, nor has it a fault that prevents loading: a question about an
enumeration finds it unknown exactly when it is not loaded, and is otherwise refused by the
enumeration or answered. -/
theorem faults_exact :
    (∀ source text f, BlockText.read source text = .error f → f.preventsLoading = true) ∧
    (∀ (b : Block) f, b.resolve = .error f → f.preventsLoading = true) ∧
    (∀ o blocks f, (load o blocks).outcome = .error f → f.preventsLoading = true) ∧
    (∀ o texts f, (ofTexts o texts).outcome = .error f → f.preventsLoading = true) ∧
    ∀ o blocks c, (load o blocks).outcome = .ok c →
      (∀ e ∈ c.enumerations, ∀ m ∈ e.members, e.members[m.origin]? = some (e.canonical m)) ∧
      (∀ name i, c.index.position? name = some i →
        ∃ e, c.enumerations[i]? = some e ∧ e.name = name) ∧
      (∀ e ∈ c.enumerations, ∀ name i, e.index.position? name = some i →
        ∃ m, e.members[i]? = some m ∧ m.name = name) ∧
      ∀ (o' : Options) (q : Query),
        (∀ f, (c.ask o' q).outcome = .error f → f.IsAnswer) ∧
        ∀ name, q.subject? = some name →
          ((c.ask o' q).outcome = .error (.unknownEnumeration name) ↔
            name ∉ c.enumerations.map (·.name)) ∧
          ∀ e ∈ c.enumerations, e.name = name →
            ∀ f, (c.ask o' q).outcome = .error f ↔ e.Refuses q f := by
  refine ⟨fun _ _ _ => BlockText.preventsLoading_of_read,
    fun _ _ => Block.preventsLoading_of_resolve, fun _ _ _ => preventsLoading_of_addAll,
    fun _ _ _ => preventsLoading_of_ofTexts, ?_⟩
  intro o blocks c hload
  have hc := sound_of_load hload
  refine ⟨fun e he m hm => (hc.enumerations e he).getElem?_origin hm,
    fun name i => hc.index.exists_getElem?,
    fun e he name i => (hc.enumerations e he).index.exists_getElem?, ?_⟩
  intro o' q
  refine ⟨fun f => isAnswer_of_ask hc, ?_⟩
  intro name hq
  refine ⟨outcome_ask_eq_unknown_iff hc hq, ?_⟩
  intro e he hname f
  exact outcome_ask_eq_error_iff hc he hname hq

/-- No variant stands for the value 1. -/
def gapBinding : Binding where
  enumeration := "MixedFlagBits"
  kind := .flags
  variants := [⟨"High", "HIGH", -2147483648⟩]

/-- An absent enumeration goes before anything else, an absent member before the binding. -/
theorem faults_exact_mixedFlags :
    (Fault.aliasCycle "Self" ["SELF", "SELF"]).preventsLoading = true ∧
    (∃ m, mixedEnumeration.members[2]? = some m ∧ m.name = "OLD") ∧
    (ask .full mixedCatalog (.flagNames "Mixed" 6)).outcome =
      .error (.unknownEnumeration "Mixed") ∧
    (ask .full mixedCatalog (.variant gapBinding "High")).outcome =
      .error (.unknownMember "MixedFlagBits" "High") ∧
    mixedEnumeration.Refuses (.variant gapBinding "OLDER")
      (.bindingMismatch "MixedFlagBits" "OLDER") ∧
    mixedEnumeration.Refuses (.flagNames "MixedFlagBits" 7) (.uncoveredBits "MixedFlagBits" 6) := by
  have hcycle : (load .full [Block.selfAlias]).outcome =
      .error (.aliasCycle "Self" ["SELF", "SELF"]) := by decide +kernel
  have hvariant : (ask .full mixedCatalog (.variant gapBinding "OLDER")).outcome =
      .error (.bindingMismatch "MixedFlagBits" "OLDER") := by decide +kernel
  have hmask : (ask .full mixedCatalog (.flagNames "MixedFlagBits" 7)).outcome =
      .error (.uncoveredBits "MixedFlagBits" 6) := by decide +kernel
  obtain ⟨-, -, hloading, -, hasking⟩ := faults_exact
  obtain ⟨-, -, hpositions, hquestions⟩ := hasking _ _ _ load_mixedFlags
  have hrefuses := fun q hq => ((hquestions .full q).2 "MixedFlagBits" hq).2 mixedEnumeration
    List.mem_cons_self rfl
  refine ⟨hloading _ _ _ hcycle, ?_, ?_, ?_, ?_, ?_⟩
  · exact hpositions mixedEnumeration List.mem_cons_self "OLD" 2 (by decide +kernel)
  · exact ((hquestions .full _).2 "Mixed" rfl).1.mpr (by decide)
  · exact (hrefuses (.variant gapBinding "High") rfl _).mpr (.member rfl (by decide))
  · exact (hrefuses _ rfl _).mp hvariant
  · exact (hrefuses _ rfl _).mp hmask

end Catalog

end ConstantCatalog
