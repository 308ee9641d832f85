import ConstantCatalog.Proofs.Binding.Agreement
import ConstantCatalog.Proofs.Catalog.Access

/-! # Variants by name

A binding that agrees with its enumeration takes the name of any member, aliases included, to the
variant that stands for the canonical member behind it. The variant is found by the value alone, and
it has the right name because no two canonical members share a value. -/

namespace ConstantCatalog.Binding
set_option autoImplicit false

variable {b : Binding} {e : Enumeration} {c : Catalog} {o : Options}

/-- The variant with the value of a member goes by the name of its canonical member. -/
theorem Agrees.ofRaw?_value (h : b.Agrees e) (he : e.Sound) {m : Constant} (hm : m ∈ e.members) :
    ∃ v, b.ofRaw? m.value = some v ∧ v.symbol = (e.canonical m).name := by
  obtain ⟨hcanonical, hvalue⟩ := he.canonical_mem hm
  obtain ⟨v, hv, hsymbol, hraw⟩ := h.exists_variant hcanonical
  exact ⟨v, ofRaw?_eq_some_iff.mpr ⟨hv, hraw.trans hvalue⟩, hsymbol⟩

theorem Agrees.ofRaw?_eq_none (h : b.Agrees e) {raw : Int32} (hraw : ∀ m ∈ e.members, m.value ≠ raw) :
    b.ofRaw? raw = none := by
  apply Keyed.find?_eq_none_iff.mpr
  intro v hv heq
  obtain ⟨m, hm, -, hvalue⟩ := h.exists_member hv
  exact hraw m (Enumeration.mem_canonicalMembers.mp hm).1 (hvalue.trans heq)

theorem outcome_ofName (he : c.enumeration b.enumeration = .ok e) (name : String) :
    (b.ofName o c name).outcome = (e.member name).bind fun m =>
      match b.ofRaw? m.value with
      | some v => .ok v
      | none => .error (.bindingMismatch b.enumeration name) := by
  rw [ofName, Logged.outcome_bind, Catalog.outcome_value he]
  cases e.member name with
  | error f => rfl
  | ok m =>
    simp only [Except.map, Except.bind]
    cases b.ofRaw? m.value <;> rfl

theorem outcome_ofName_eq_ok_iff (hsound : e.Sound) (he : c.enumeration b.enumeration = .ok e)
    {name : String} {v : Variant} : (b.ofName o c name).outcome = .ok v ↔
      ∃ m ∈ e.members, m.name = name ∧ b.ofRaw? m.value = some v := by
  rw [outcome_ofName he]
  constructor
  · intro hv
    obtain ⟨m, hmember, hraw⟩ := Outcome.bind_eq_ok.mp hv
    obtain ⟨hm, hname⟩ := hsound.member_eq_ok.mp hmember
    refine ⟨m, hm, hname, ?_⟩
    cases hfound : b.ofRaw? m.value with
    | none =>
      rw [hfound] at hraw
      cases hraw
    | some w =>
      rw [hfound] at hraw
      cases hraw
      rfl
  · intro ⟨m, hm, hname, hraw⟩
    rw [hsound.member_eq_ok.mpr ⟨hm, hname⟩]
    simp only [Except.bind, hraw]

section Agreement
variable (hagrees : b.Agrees e) (hsound : e.Sound) (he : c.enumeration b.enumeration = .ok e)
include hagrees hsound he

theorem isOk_ofName_iff {name : String} :
    (∃ v, (b.ofName o c name).outcome = .ok v) ↔ name ∈ e.members.map (·.name) := by
  constructor
  · intro ⟨v, hv⟩
    obtain ⟨m, hm, rfl, -⟩ := (outcome_ofName_eq_ok_iff hsound he).mp hv
    exact List.mem_map_of_mem hm
  · intro hmember
    obtain ⟨m, hm, hname⟩ := List.mem_map.mp hmember
    obtain ⟨v, hv, -⟩ := hagrees.ofRaw?_value hsound hm
    exact ⟨v, (outcome_ofName_eq_ok_iff hsound he).mpr ⟨m, hm, hname, hv⟩⟩

theorem outcome_ofName_eq_error_iff {name : String} {f : Fault} :
    (b.ofName o c name).outcome = .error f ↔
      name ∉ e.members.map (·.name) ∧ f = .unknownMember e.name name := by
  rw [← hsound.member_eq_error_iff, outcome_ofName he]
  cases hmember : e.member name with
  | error f' => simp [Except.bind]
  | ok m =>
    obtain ⟨hm, -⟩ := hsound.member_eq_ok.mp hmember
    obtain ⟨v, hv, -⟩ := hagrees.ofRaw?_value hsound hm
    simp [Except.bind, hv]

/-- The catalog gives for the name of a member what the variant found for it says of itself. -/
theorem answers_of_ofName {name : String} {v : Variant}
    (hv : (b.ofName o c name).outcome = .ok v) : v ∈ b.variants ∧
      (c.canonicalName o b.enumeration name).outcome = .ok v.symbol ∧
      (c.value o b.enumeration name).outcome = .ok v.raw := by
  obtain ⟨m, hm, hname, hraw⟩ := (outcome_ofName_eq_ok_iff hsound he).mp hv
  obtain ⟨hvariant, hvalue⟩ := ofRaw?_eq_some_iff.mp hraw
  obtain ⟨w, hw, hsymbol⟩ := hagrees.ofRaw?_value hsound hm
  obtain rfl : v = w := Option.some.inj (hraw.symm.trans hw)
  rw [Catalog.outcome_canonicalName he, Catalog.outcome_value he,
    hsound.member_eq_ok.mpr ⟨hm, hname⟩, hsymbol, hvalue]
  exact ⟨hvariant, rfl, rfl⟩

theorem outcome_ofName_symbol {v : Variant} (hv : v ∈ b.variants) :
    (b.ofName o c v.symbol).outcome = .ok v := by
  obtain ⟨m, hm, hsymbol, hvalue⟩ := hagrees.exists_member hv
  apply (outcome_ofName_eq_ok_iff hsound he).mpr
  refine ⟨m, (Enumeration.mem_canonicalMembers.mp hm).1, hsymbol, ?_⟩
  exact ofRaw?_eq_some_iff.mpr ⟨hv, hvalue.symm⟩

end Agreement

/-- After a successful check against a loaded catalog, the name of every member is taken to the
variant for its canonical member and its value, and any other name is unknown. Names and raw values
of the variants lead back to them, and no other value has a variant. -/
theorem ofName_exact {o : Options} {blocks : List Block} {c : Catalog}
    (hload : (Catalog.load o blocks).outcome = .ok c) {b : Binding} (hcheck : b.check c = .ok ()) :
    ∃ e ∈ c.enumerations, e.name = b.enumeration ∧
      (∀ (o : Options) (name : String),
        ((∃ v, (b.ofName o c name).outcome = .ok v) ↔ name ∈ e.members.map (·.name)) ∧
        (∀ v, (b.ofName o c name).outcome = .ok v → v ∈ b.variants ∧
          (c.canonicalName o b.enumeration name).outcome = .ok v.symbol ∧
          (c.value o b.enumeration name).outcome = .ok v.raw) ∧
        ∀ f, (b.ofName o c name).outcome = .error f ↔
          name ∉ e.members.map (·.name) ∧ f = .unknownMember b.enumeration name) ∧
      (∀ v ∈ b.variants, (∀ o, (b.ofName o c v.symbol).outcome = .ok v) ∧
        b.ofRaw? v.raw = some v) ∧
      ∀ raw, (∀ m ∈ e.members, m.value ≠ raw) → b.ofRaw? raw = none := by
  have hc := Catalog.sound_of_load hload
  obtain ⟨e, hmem, hname, hagrees⟩ := (check_eq_ok_iff hc).mp hcheck
  have hsound := hc.enumerations e hmem
  have he := hc.enumeration_eq_ok_iff.mpr ⟨hmem, hname⟩
  refine ⟨e, hmem, hname, ?_, ?_, fun raw hraw => hagrees.ofRaw?_eq_none hraw⟩
  · intro o name
    refine ⟨isOk_ofName_iff hagrees hsound he, ?_, ?_⟩
    · intro v hv
      exact answers_of_ofName hagrees hsound he hv
    · intro f
      rw [outcome_ofName_eq_error_iff hagrees hsound he, hname]
  · intro v hv
    refine ⟨?_, ofRaw?_eq_some_iff.mpr ⟨hv, rfl⟩⟩
    intro o
    exact outcome_ofName_symbol hagrees hsound he hv

/-- A chain of two aliases, a label that is no name, and a value that no member has. -/
theorem ofName_exact_mixedFlags :
    (mixedBinding.ofName .full mixedCatalog "OLDER").outcome = .ok ⟨"Low", "LOW", 1⟩ ∧
    (Catalog.canonicalName .full mixedCatalog "MixedFlagBits" "OLDER").outcome =
      .ok "LOW" ∧
    (mixedBinding.ofName .full mixedCatalog "Low").outcome =
      .error (.unknownMember "MixedFlagBits" "Low") ∧
    mixedBinding.ofRaw? 3 = none := by
  have hcheck : mixedBinding.check mixedCatalog = .ok () := by decide +kernel
  have hvariant : (mixedBinding.ofName .full mixedCatalog "OLDER").outcome =
      .ok ⟨"Low", "LOW", 1⟩ := by decide +kernel
  obtain ⟨e, hmem, -, hnames, -, hvalues⟩ := ofName_exact load_mixedFlags hcheck
  cases List.mem_singleton.mp hmem
  obtain ⟨-, hanswer, -⟩ := hnames .full "OLDER"
  obtain ⟨-, -, hunknown⟩ := hnames .full "Low"
  refine ⟨hvariant, (hanswer _ hvariant).2.1, (hunknown _).mpr ⟨?_, rfl⟩, hvalues 3 ?_⟩
  · decide
  · decide

end ConstantCatalog.Binding
