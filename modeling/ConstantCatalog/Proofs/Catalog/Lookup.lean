import ConstantCatalog.Proofs.Catalog.Access

/-! # Lookups by name and by value

The canonical member behind a name and the members with a value come from what resolving stored with
each member: how it is declared, its value and its origin. The value of a member is that of its
canonical member, so that no value is held by aliases only, and asking by name and asking by value
agree. -/

namespace ConstantCatalog
set_option autoImplicit false

namespace Enumeration
variable {e : Enumeration} {m : Constant} {value : Int32}

theorem mem_withValue : m ∈ e.withValue value ↔ m ∈ e.members ∧ m.value = value := by
  simp [withValue]

theorem withValue_sublist (e : Enumeration) (value : Int32) :
    (e.withValue value).Sublist e.members :=
  List.filter_sublist

theorem canonicalWithValue?_eq_find? (e : Enumeration) (value : Int32) :
    e.canonicalWithValue? value = (e.withValue value).find? (!·.isAlias) := by
  rw [canonicalWithValue?, canonicalMembers, withValue, List.find?_filter, List.find?_filter]
  simp only [and_comm]

namespace Sound
variable (h : e.Sound)
include h

theorem canonical_mem_withValue (hm : m ∈ e.members) : e.canonical m ∈ e.withValue m.value := by
  obtain ⟨hmem, hvalue⟩ := h.canonical_mem hm
  exact mem_withValue.mpr ⟨(mem_canonicalMembers.mp hmem).1, hvalue⟩

/-- A value that a member has is the literal of a member. -/
theorem canonicalWithValue?_eq_none_iff :
    e.canonicalWithValue? value = none ↔ e.withValue value = [] := by
  rw [canonicalWithValue?_eq_find?]
  constructor
  · intro hnone
    rw [List.eq_nil_iff_forall_not_mem]
    intro m hm
    obtain ⟨hmem, rfl⟩ := mem_withValue.mp hm
    have halias := List.find?_eq_none.mp hnone _ (h.canonical_mem_withValue hmem)
    rw [(mem_canonicalMembers.mp (h.canonical_mem hmem).1).2] at halias
    exact halias rfl
  · intro hnil
    rw [hnil]
    rfl

end Sound

end Enumeration

namespace Catalog
variable {c : Catalog} {e : Enumeration} {enumeration : String}

section Enumeration
variable (hsound : e.Sound) (he : c.enumeration enumeration = .ok e)
include hsound he

theorem outcome_canonicalName_of_mem (o : Options) {m : Constant} (hm : m ∈ e.members) :
    (c.canonicalName o enumeration m.name).outcome = .ok (e.canonical m).name := by
  rw [outcome_canonicalName he, hsound.member_eq_ok.mpr ⟨hm, rfl⟩]
  rfl

theorem outcome_value_of_mem (o : Options) {m : Constant} (hm : m ∈ e.members) :
    (c.value o enumeration m.name).outcome = .ok m.value := by
  rw [outcome_value he, hsound.member_eq_ok.mpr ⟨hm, rfl⟩]
  rfl

end Enumeration

/-- In a loaded catalog the questions by name and by value agree. The canonical name behind a member
is that of a member which is no alias, stands for itself and has the same value; it is the name of
the member itself exactly when that is no alias. The members with a value are those that have it
when asked by name, in order and each once; the first of them that is no alias is the canonical
one, and there is such a member as soon as there is any. -/
theorem lookups_agree {o : Options} {blocks : List Block} {c : Catalog}
    (hload : (load o blocks).outcome = .ok c) {enumeration : String} {e : Enumeration}
    (he : c.enumeration enumeration = .ok e) (o' : Options) :
    (∀ m ∈ e.members, ∃ t ∈ e.members, t.isAlias = false ∧
      (c.canonicalName o' enumeration m.name).outcome = .ok t.name ∧
      (c.canonicalName o' enumeration t.name).outcome = .ok t.name ∧
      (c.value o' enumeration t.name).outcome = (c.value o' enumeration m.name).outcome ∧
      (t.name = m.name ↔ m.isAlias = false) ∧
      ∃ value ms, (c.value o' enumeration m.name).outcome = .ok value ∧
        c.withValue enumeration value = .ok ms ∧ t ∈ ms) ∧
    ∀ value, ∃ ms, c.withValue enumeration value = .ok ms ∧
      ms.Sublist e.members ∧ (ms.map (·.name)).Nodup ∧
      (∀ n ∈ e.members, n ∈ ms ↔ (c.value o' enumeration n.name).outcome = .ok value) ∧
      c.canonicalWithValue? enumeration value = .ok ((ms.find? (!·.isAlias)).map (·.name)) ∧
      (c.canonicalWithValue? enumeration value = .ok none ↔ ms = []) := by
  have hc := sound_of_load hload
  have hsound := hc.enumerations e (hc.enumeration_eq_ok_iff.mp he).1
  constructor
  · intro m hm
    obtain ⟨hcanonical, hvalue⟩ := hsound.canonical_mem hm
    obtain ⟨hmem, halias⟩ := Enumeration.mem_canonicalMembers.mp hcanonical
    refine ⟨e.canonical m, hmem, halias, outcome_canonicalName_of_mem hsound he o' hm, ?_, ?_, ?_,
      m.value, e.withValue m.value, outcome_value_of_mem hsound he o' hm,
      withValue_of_enumeration he m.value, hsound.canonical_mem_withValue hm⟩
    · rw [outcome_canonicalName_of_mem hsound he o' hmem,
        (hsound.canonical_eq_self_iff hmem).mpr halias]
    · rw [outcome_value_of_mem hsound he o' hmem, outcome_value_of_mem hsound he o' hm, hvalue]
    · rw [← hsound.canonical_eq_self_iff hm]
      exact ⟨hsound.eq_of_name hmem hm, congrArg fun n : Constant => n.name⟩
  · intro value
    refine ⟨e.withValue value, withValue_of_enumeration he value, e.withValue_sublist value,
      ?_, ?_, ?_, ?_⟩
    · exact ((e.withValue_sublist value).map _).nodup hsound.names_nodup
    · intro n hn
      rw [outcome_value_of_mem hsound he o' hn, Enumeration.mem_withValue, Except.ok.injEq]
      exact and_iff_right hn
    · rw [canonicalWithValue?_of_enumeration he, e.canonicalWithValue?_eq_find?]
    · rw [canonicalWithValue?_of_enumeration he, Except.ok.injEq, Option.map_eq_none_iff,
        hsound.canonicalWithValue?_eq_none_iff]

/-- Two literals with one value, an alias chain that ends at the second of them, and an alias of the
first one that stands before it. -/
def sharedValues : Block :=
  ⟨"Shared", ⟨"VK_A"⟩,
    [⟨"NEWEST", .reference "NEW", ⟨"VK_A"⟩, .absent⟩,
     ⟨"OTHER", .reference "FIRST", ⟨"VK_A"⟩, .absent⟩,
     ⟨"FIRST", .literal 7, ⟨"VK_A"⟩, .absent⟩,
     ⟨"NEW", .reference "SECOND", ⟨"VK_A"⟩, .absent⟩,
     ⟨"SECOND", .literal 7, ⟨"VK_A"⟩, .absent⟩]⟩

def sharedEnumeration : Enumeration :=
  ⟨"Shared", ⟨"VK_A"⟩, List.zipWith (fun d index => ⟨d, 7, index⟩) sharedValues.members
    [4, 2, 2, 4, 4],
    .ofEntries [("NEWEST", 0), ("OTHER", 1), ("FIRST", 2), ("NEW", 3), ("SECOND", 4)]⟩

def sharedCatalog : Catalog :=
  ⟨[sharedEnumeration], .ofEntries [("Shared", 0)]⟩

theorem resolve_sharedValues : sharedValues.resolve = .ok sharedEnumeration := by decide +kernel

/-- The canonical name behind an alias need not be the first one with its value. -/
theorem lookups_agree_sharedValues :
    (∃ t ∈ sharedEnumeration.members, t.name = "SECOND" ∧ t.isAlias = false ∧
      (canonicalName .full sharedCatalog "Shared" "NEWEST").outcome = .ok t.name ∧
      (canonicalName .full sharedCatalog "Shared" t.name).outcome = .ok t.name) ∧
    canonicalWithValue? sharedCatalog "Shared" 7 = .ok (some "FIRST") ∧
    canonicalWithValue? sharedCatalog "Shared" 8 = .ok none := by
  have hload : (load .plain [sharedValues]).outcome = .ok sharedCatalog := by
    decide +kernel
  have he : enumeration sharedCatalog "Shared" = .ok sharedEnumeration := by decide +kernel
  obtain ⟨hnames, hvalues⟩ := lookups_agree hload he .full
  refine ⟨?_, ?_, ?_⟩
  · obtain ⟨t, ht, halias, hname, hself, -⟩ := hnames _ List.mem_cons_self
    have hsecond : (canonicalName .full sharedCatalog "Shared" "NEWEST").outcome =
        .ok "SECOND" := by decide +kernel
    exact ⟨t, ht, Except.ok.inj (hname.symm.trans hsecond), halias, hname, hself⟩
  · obtain ⟨ms, hms, -, -, -, hfirst, -⟩ := hvalues 7
    cases hms
    exact hfirst
  · obtain ⟨ms, hms, -, -, -, -, hnone⟩ := hvalues 8
    cases hms
    exact hnone.mpr rfl

end Catalog

end ConstantCatalog
