import ConstantCatalog.Binding.Agreement
import ConstantCatalog.Proofs.Catalog.Load

/-! # Agreement

A binding agrees with an enumeration when both give the same pairs of a name and a value, and then
there is one variant for each canonical member. The members are compared by value and the variants
by name, each with the first that matches; since no two variants share a raw value and no two
members a name, both comparisons find every counterpart there is. -/

namespace ConstantCatalog
set_option autoImplicit false

def Enumeration.pairs (e : Enumeration) : List (String × Int32) :=
  e.canonicalMembers.map fun m => (m.name, m.value)

namespace Binding

def pairs (b : Binding) : List (String × Int32) :=
  b.variants.map fun v => (v.symbol, v.raw)

/-- Variants and canonical members have the same pairs. -/
def Agrees (b : Binding) (e : Enumeration) : Prop :=
  ∀ pair, pair ∈ b.pairs ↔ pair ∈ e.pairs

/-- The name is where the binding first differs from the enumeration, the canonical members being
gone through before the variants. -/
inductive Disagrees (b : Binding) (e : Enumeration) : String → Prop where
  | member {before after : List Constant} {m : Constant} :
      e.canonicalMembers = before ++ m :: after →
      (∀ m' ∈ before, (m'.name, m'.value) ∈ b.pairs) → (m.name, m.value) ∉ b.pairs →
      Disagrees b e m.name
  | variant {before after : List Variant} {v : Variant} :
      (∀ m ∈ e.canonicalMembers, (m.name, m.value) ∈ b.pairs) →
      b.variants = before ++ v :: after →
      (∀ v' ∈ before, (v'.symbol, v'.raw) ∈ e.pairs) → (v.symbol, v.raw) ∉ e.pairs →
      Disagrees b e v.symbol

variable {b : Binding} {e : Enumeration}

theorem mem_pairs {name : String} {value : Int32} :
    (name, value) ∈ b.pairs ↔ ∃ v ∈ b.variants, v.symbol = name ∧ v.raw = value := by
  simp [pairs]

theorem mem_enumeration_pairs {name : String} {value : Int32} :
    (name, value) ∈ e.pairs ↔ ∃ m ∈ e.canonicalMembers, m.name = name ∧ m.value = value := by
  simp [Enumeration.pairs]

theorem ofRaw?_eq_some_iff {raw : Int32} {v : Variant} :
    b.ofRaw? raw = some v ↔ v ∈ b.variants ∧ v.raw = raw :=
  Keyed.find?_eq_some_iff b.raw_nodup

theorem covers_iff {m : Constant} : b.covers m = true ↔ (m.name, m.value) ∈ b.pairs := by
  rw [mem_pairs, covers]
  cases hv : b.ofRaw? m.value with
  | none =>
    have hnone := Keyed.find?_eq_none_iff.mp hv
    simp only [Bool.false_eq_true, false_iff, not_exists, not_and]
    intro v hmem _ hraw
    exact hnone v hmem hraw
  | some v =>
    obtain ⟨hmem, hraw⟩ := ofRaw?_eq_some_iff.mp hv
    simp only [beq_iff_eq]
    constructor
    · intro hname
      exact ⟨v, hmem, hname, hraw⟩
    · intro ⟨w, hw, hname, hwraw⟩
      have heq := ofRaw?_eq_some_iff.mpr ⟨hw, hwraw⟩
      rw [hv] at heq
      rw [Option.some.inj heq, hname]

theorem mem_enumeration_pairs_iff (h : e.Sound) {m : Constant} (hm : m ∈ e.members)
    {value : Int32} : (m.name, value) ∈ e.pairs ↔ m.isAlias = false ∧ m.value = value := by
  rw [mem_enumeration_pairs]
  constructor
  · intro hpair
    obtain ⟨m', hm', hname, hvalue⟩ := hpair
    obtain ⟨hmem, halias⟩ := Enumeration.mem_canonicalMembers.mp hm'
    obtain rfl := h.eq_of_name hmem hm hname
    exact ⟨halias, hvalue⟩
  · intro hcanonical
    exact ⟨m, Enumeration.mem_canonicalMembers.mpr ⟨hm, hcanonical.1⟩, rfl, hcanonical.2⟩

theorem notMem_enumeration_pairs_of_name {name : String} (h : name ∉ e.members.map (·.name))
    (value : Int32) : (name, value) ∉ e.pairs := by
  rw [mem_enumeration_pairs]
  rintro ⟨m, hm, rfl, -⟩
  exact h (List.mem_map_of_mem (Enumeration.mem_canonicalMembers.mp hm).1)

theorem declaredIn_eq (h : e.Sound) (v : Variant) :
    declaredIn e v = .ok (decide ((v.symbol, v.raw) ∈ e.pairs)) := by
  rw [declaredIn, Enumeration.find?, h.index.find?_eq_ok]
  cases hm : e.members.find? (·.name == v.symbol) with
  | none =>
    have hmissing : v.symbol ∉ e.members.map (·.name) := by simpa using hm
    rw [decide_eq_false (notMem_enumeration_pairs_of_name hmissing v.raw)]
    rfl
  | some m =>
    obtain ⟨hmem, hname⟩ := (Keyed.find?_eq_some_iff h.names_nodup).mp hm
    have hdeclared : (!m.isAlias && m.value == v.raw) = decide ((v.symbol, v.raw) ∈ e.pairs) := by
      rw [Bool.eq_iff_iff, decide_eq_true_iff, ← hname, mem_enumeration_pairs_iff h hmem,
        Bool.and_eq_true, Bool.not_eq_true', beq_iff_eq]
    rw [← hdeclared]
    rfl

/-- The comparison of the variants never reads beyond the members. -/
theorem undeclared?_eq (h : e.Sound) (vs : List Variant) : undeclared? e vs =
    .ok ((vs.find? fun v => (v.symbol, v.raw) ∉ e.pairs).map (·.symbol)) := by
  induction vs with
  | nil => rfl
  | cons v vs ih =>
    rw [undeclared?, declaredIn_eq h, Outcome.ok_bind]
    by_cases hpair : (v.symbol, v.raw) ∈ e.pairs
    · simpa [hpair] using ih
    · simp [hpair, pure, Except.pure]

/-- A variant is declared nowhere when its symbol is missing, an alias, or has another value. -/
theorem notMem_enumeration_pairs (h : e.Sound) {v : Variant} : (v.symbol, v.raw) ∉ e.pairs ↔
    v.symbol ∉ e.members.map (·.name) ∨
      ∃ m ∈ e.members, m.name = v.symbol ∧ (m.isAlias = true ∨ m.value ≠ v.raw) := by
  by_cases hmem : v.symbol ∈ e.members.map (·.name)
  · obtain ⟨m, hm, hname⟩ := List.mem_map.mp hmem
    rw [← hname, mem_enumeration_pairs_iff h hm, not_and_or, Bool.not_eq_false]
    constructor
    · intro hother
      exact Or.inr ⟨m, hm, rfl, hother⟩
    · rintro (hmissing | ⟨m', hm', hname', hother⟩)
      · exact absurd (List.mem_map_of_mem hm) hmissing
      · obtain rfl := h.eq_of_name hm' hm hname'
        exact hother
  · exact iff_of_true (notMem_enumeration_pairs_of_name hmem v.raw) (Or.inl hmem)

/-! ## The first disagreement -/

theorem find?_uncovered_eq_none_iff : e.canonicalMembers.find? (!b.covers ·) = none ↔
    ∀ m ∈ e.canonicalMembers, (m.name, m.value) ∈ b.pairs := by
  simp [covers_iff]

theorem find?_undeclared_eq_none_iff :
    (b.variants.find? fun v => (v.symbol, v.raw) ∉ e.pairs) = none ↔
      ∀ v ∈ b.variants, (v.symbol, v.raw) ∈ e.pairs := by
  simp

theorem disagreement?_eq_some_iff (h : e.Sound) {name : String} :
    b.disagreement? e = .ok (some name) ↔ b.Disagrees e name := by
  rw [disagreement?]
  constructor
  · intro hname
    cases hm : e.canonicalMembers.find? (!b.covers ·) with
    | some m =>
      rw [hm] at hname
      cases hname
      obtain ⟨hlone, before, after, hsplit, hbefore⟩ := List.find?_eq_some_iff_append.mp hm
      apply Disagrees.member hsplit
      · simpa [covers_iff] using hbefore
      · simpa [← covers_iff] using hlone
    | none =>
      simp only [hm, undeclared?_eq h, Except.ok.injEq] at hname
      obtain ⟨v, hv, rfl⟩ := Option.map_eq_some_iff.mp hname
      obtain ⟨hlone, before, after, hsplit, hbefore⟩ := List.find?_eq_some_iff_append.mp hv
      apply Disagrees.variant (find?_uncovered_eq_none_iff.mp hm) hsplit
      · simpa using hbefore
      · simpa using hlone
  · intro hname
    cases hname with
    | @member before after m hsplit hbefore hlone =>
      have hm : e.canonicalMembers.find? (!b.covers ·) = some m := by
        apply List.find?_eq_some_iff_append.mpr
        refine ⟨by simpa [← covers_iff] using hlone, before, after, hsplit, ?_⟩
        simpa [covers_iff] using hbefore
      rw [hm]
    | @variant before after v hcovered hsplit hbefore hlone =>
      have hv : (b.variants.find? fun v => (v.symbol, v.raw) ∉ e.pairs) = some v := by
        apply List.find?_eq_some_iff_append.mpr
        refine ⟨by simpa using hlone, before, after, hsplit, ?_⟩
        simpa using hbefore
      rw [find?_uncovered_eq_none_iff.mpr hcovered, undeclared?_eq h, hv]
      rfl

theorem disagreement?_eq_none_iff (h : e.Sound) :
    b.disagreement? e = .ok none ↔ b.Agrees e := by
  have hnone : b.disagreement? e = .ok none ↔
      e.canonicalMembers.find? (!b.covers ·) = none ∧
        (b.variants.find? fun v => (v.symbol, v.raw) ∉ e.pairs) = none := by
    rw [disagreement?, undeclared?_eq h]
    cases e.canonicalMembers.find? (!b.covers ·) <;> simp
  rw [hnone, find?_uncovered_eq_none_iff, find?_undeclared_eq_none_iff]
  constructor
  · intro ⟨hmembers, hvariants⟩ ⟨name, value⟩
    constructor
    · intro hpair
      obtain ⟨v, hv, rfl, rfl⟩ := mem_pairs.mp hpair
      exact hvariants v hv
    · intro hpair
      obtain ⟨m, hm, rfl, rfl⟩ := mem_enumeration_pairs.mp hpair
      exact hmembers m hm
  · intro hagrees
    constructor
    · intro m hm
      exact (hagrees _).mpr (mem_enumeration_pairs.mpr ⟨m, hm, rfl, rfl⟩)
    · intro v hv
      exact (hagrees _).mp (mem_pairs.mpr ⟨v, hv, rfl, rfl⟩)

theorem exists_disagreement? (h : e.Sound) : ∃ name?, b.disagreement? e = .ok name? := by
  rw [disagreement?, undeclared?_eq h]
  split
  · exact ⟨_, rfl⟩
  · exact ⟨_, rfl⟩

/-! ## What agreement gives -/

namespace Agrees
variable (h : b.Agrees e)
include h

theorem exists_member {v : Variant} (hv : v ∈ b.variants) :
    ∃ m ∈ e.canonicalMembers, m.name = v.symbol ∧ m.value = v.raw :=
  mem_enumeration_pairs.mp ((h _).mp (mem_pairs.mpr ⟨v, hv, rfl, rfl⟩))

theorem exists_variant {m : Constant} (hm : m ∈ e.canonicalMembers) :
    ∃ v ∈ b.variants, v.symbol = m.name ∧ v.raw = m.value :=
  mem_pairs.mp ((h _).mpr (mem_enumeration_pairs.mpr ⟨m, hm, rfl, rfl⟩))

/-- One variant stands for each canonical member, and one member for each variant. -/
theorem perm (he : e.Sound) : b.pairs.Perm e.pairs := by
  have hb : b.pairs.Nodup := by
    apply List.Nodup.of_map Prod.snd
    rw [pairs, List.map_map]
    exact b.raw_nodup
  have hpairs : e.pairs.Nodup := by
    apply List.Nodup.of_map Prod.fst
    rw [Enumeration.pairs, List.map_map]
    exact he.canonicalNames_nodup
  exact (List.perm_ext_iff_of_nodup hb hpairs).mpr h

theorem symbols_nodup (he : e.Sound) : (b.variants.map (·.symbol)).Nodup := by
  have hperm := (h.perm he).map Prod.fst
  rw [pairs, Enumeration.pairs, List.map_map, List.map_map] at hperm
  exact hperm.nodup_iff.mpr he.canonicalNames_nodup

theorem values_nodup (he : e.Sound) : (e.canonicalMembers.map (·.value)).Nodup := by
  have hperm := (h.perm he).map Prod.snd
  rw [pairs, Enumeration.pairs, List.map_map, List.map_map] at hperm
  exact hperm.nodup_iff.mp b.raw_nodup

end Agrees

/-! ## The check -/

section Check
variable {c : Catalog}

theorem check_of_disagreement? (he : c.enumeration b.enumeration = .ok e) {name? : Option String}
    (hname : b.disagreement? e = .ok name?) : b.check c =
      name?.elim (.ok ()) fun name => .error (.bindingMismatch b.enumeration name) := by
  rw [check, he, Outcome.ok_bind, hname, Outcome.ok_bind]
  cases name? <;> rfl

theorem check_eq_ok_iff (hc : c.Sound) : b.check c = .ok () ↔
    ∃ e ∈ c.enumerations, e.name = b.enumeration ∧ b.Agrees e := by
  constructor
  · intro hcheck
    obtain ⟨e, he, -⟩ := Outcome.bind_eq_ok.mp hcheck
    obtain ⟨hmem, hname⟩ := hc.enumeration_eq_ok_iff.mp he
    obtain ⟨name?, hname?⟩ := exists_disagreement? (b := b) (hc.enumerations e hmem)
    rw [check_of_disagreement? he hname?] at hcheck
    refine ⟨e, hmem, hname, (disagreement?_eq_none_iff (hc.enumerations e hmem)).mp ?_⟩
    cases name? with
    | none => exact hname?
    | some name => cases hcheck
  · intro ⟨e, hmem, hname, hagrees⟩
    exact check_of_disagreement? (hc.enumeration_eq_ok_iff.mpr ⟨hmem, hname⟩)
      ((disagreement?_eq_none_iff (hc.enumerations e hmem)).mpr hagrees)

theorem check_eq_error_iff (hc : c.Sound) (hmem : e ∈ c.enumerations)
    (hname : e.name = b.enumeration) {f : Fault} : b.check c = .error f ↔
      ∃ name, f = .bindingMismatch b.enumeration name ∧ b.Disagrees e name := by
  have he := hc.enumerations e hmem
  simp only [← disagreement?_eq_some_iff he]
  obtain ⟨name?, hname?⟩ := exists_disagreement? (b := b) he
  rw [check_of_disagreement? (hc.enumeration_eq_ok_iff.mpr ⟨hmem, hname⟩) hname?, hname?]
  cases name? <;> simp [eq_comm]

theorem check_eq_unknown_iff (hc : c.Sound) :
    b.check c = .error (.unknownEnumeration b.enumeration) ↔
      b.enumeration ∉ c.enumerations.map (·.name) := by
  constructor
  · intro hcheck hmem
    obtain ⟨e, he, hname⟩ := List.mem_map.mp hmem
    obtain ⟨name, hf, -⟩ := (check_eq_error_iff hc he hname).mp hcheck
    cases hf
  · intro hmem
    exact Outcome.bind_eq_error.mpr (Or.inl (hc.enumeration_eq_error_iff.mpr ⟨hmem, rfl⟩))

end Check

/-- Checking a binding against a loaded catalog succeeds exactly when its enumeration is there and
has the same pairs, which makes variants and canonical members correspond one to one. It fails
because the enumeration is missing, or else with the first disagreement. -/
theorem check_exact {o : Options} {blocks : List Block} {c : Catalog}
    (hload : (Catalog.load o blocks).outcome = .ok c) (b : Binding) :
    (b.check c = .ok () ↔ ∃ e ∈ c.enumerations, e.name = b.enumeration ∧ b.Agrees e) ∧
    (b.check c = .error (.unknownEnumeration b.enumeration) ↔
      b.enumeration ∉ c.enumerations.map (·.name)) ∧
    ∀ e ∈ c.enumerations, e.name = b.enumeration →
      (b.check c = .ok () → b.pairs.Perm e.pairs ∧ (b.variants.map (·.symbol)).Nodup ∧
        (e.canonicalMembers.map (·.value)).Nodup) ∧
      (∀ f, b.check c = .error f ↔
        ∃ name, f = .bindingMismatch b.enumeration name ∧ b.Disagrees e name) ∧
      ∀ v ∈ b.variants, (v.symbol, v.raw) ∉ e.pairs ↔ v.symbol ∉ e.members.map (·.name) ∨
        ∃ m ∈ e.members, m.name = v.symbol ∧ (m.isAlias = true ∨ m.value ≠ v.raw) := by
  have hc := Catalog.sound_of_load hload
  refine ⟨check_eq_ok_iff hc, check_eq_unknown_iff hc, ?_⟩
  intro e hmem hname
  have he := hc.enumerations e hmem
  refine ⟨?_, fun f => check_eq_error_iff hc hmem hname, fun v _ => notMem_enumeration_pairs he⟩
  intro hcheck
  obtain ⟨e', hmem', hname', hagrees⟩ := (check_eq_ok_iff hc).mp hcheck
  obtain rfl := List.inj_on_of_nodup_map hc.names_nodup hmem' hmem (hname'.trans hname.symm)
  exact ⟨hagrees.perm he, hagrees.symbols_nodup he, hagrees.values_nodup he⟩

/-- Flags without any bit, with the sign bit and with two bits, and a chain of aliases. -/
def mixedFlags : Block :=
  ⟨"MixedFlagBits", ⟨"VK_A"⟩,
    [⟨"NONE", .literal 0, ⟨"VK_A"⟩, .absent⟩,
     ⟨"OLDER", .reference "OLD", ⟨"VK_A"⟩, .renamed⟩,
     ⟨"OLD", .reference "LOW", ⟨"VK_A"⟩, .absent⟩,
     ⟨"BOTH", .literal (-2147483647), ⟨"VK_A"⟩, .absent⟩,
     ⟨"HIGH", .literal (-2147483648), ⟨"VK_A"⟩, .absent⟩,
     ⟨"LOW", .literal 1, ⟨"VK_A"⟩, .absent⟩]⟩

def mixedEnumeration : Enumeration :=
  ⟨"MixedFlagBits", ⟨"VK_A"⟩, List.zipWith (fun d (value, index) => ⟨d, value, index⟩)
    mixedFlags.members [(0, 0), (1, 5), (1, 5), (-2147483647, 3), (-2147483648, 4), (1, 5)],
    .ofEntries [("NONE", 0), ("OLDER", 1), ("OLD", 2), ("BOTH", 3), ("HIGH", 4), ("LOW", 5)]⟩

def mixedCatalog : Catalog :=
  ⟨[mixedEnumeration], .ofEntries [("MixedFlagBits", 0)]⟩

theorem load_mixedFlags : (Catalog.load .plain [mixedFlags]).outcome = .ok mixedCatalog := by
  decide +kernel

def mixedBinding : Binding where
  enumeration := "MixedFlagBits"
  kind := .flags
  variants := [⟨"Low", "LOW", 1⟩, ⟨"Both", "BOTH", -2147483647⟩, ⟨"High", "HIGH", -2147483648⟩,
    ⟨"None", "NONE", 0⟩]

/-- The variant for the lowest bit goes by the name of an alias. -/
def aliasBinding : Binding where
  enumeration := "MixedFlagBits"
  kind := .flags
  variants := [⟨"Low", "OLD", 1⟩, ⟨"Both", "BOTH", -2147483647⟩, ⟨"High", "HIGH", -2147483648⟩,
    ⟨"None", "NONE", 0⟩]

theorem check_exact_mixedFlags :
    mixedBinding.pairs.Perm mixedEnumeration.pairs ∧ Disagrees aliasBinding mixedEnumeration "LOW" ∧
      ∃ e ∈ [mixedEnumeration], e.name = mixedBinding.enumeration ∧ mixedBinding.Agrees e := by
  have hcheck : mixedBinding.check mixedCatalog = .ok () := by decide +kernel
  have hmismatch : aliasBinding.check mixedCatalog =
      .error (.bindingMismatch "MixedFlagBits" "LOW") := by decide +kernel
  obtain ⟨hok, -, hmixed⟩ := check_exact load_mixedFlags mixedBinding
  obtain ⟨-, -, halias⟩ := check_exact load_mixedFlags aliasBinding
  obtain ⟨hperm, -⟩ := (hmixed _ List.mem_cons_self rfl).1 hcheck
  obtain ⟨name, hname, hdisagrees⟩ := ((halias _ List.mem_cons_self rfl).2.1 _).mp hmismatch
  cases hname
  exact ⟨hperm, hdisagrees, hok.mp hcheck⟩

end Binding

end ConstantCatalog
