import ConstantCatalog.BlockText.Printer
import ConstantCatalog.BlockText.Reader
import ConstantCatalog.Proofs.Enumeration.Members

/-! # Notices

What a user of a deprecated member is told. The mark of the member decides whether a replacement is
named, and the replacement is the canonical member, whatever the right side of the member is. For an
alias that is another member with the same value. A literal can be marked as renamed too, since
marks are read off comments; it is then told to be replaced by itself. -/

namespace ConstantCatalog.Enumeration
set_option autoImplicit false

/-- The notice of a member tells to use `name` in its place. -/
def Recommends (e : Enumeration) (m : Constant) (name : String) : Prop :=
  e.notice? m = some s!"{m.name} is a deprecated alias, use {name}"

/-- The notice of a member names nothing to use in its place. -/
def Discourages (e : Enumeration) (m : Constant) : Prop :=
  e.notice? m = some s!"{m.name} is deprecated, no reason given"

variable {e : Enumeration} {m : Constant} {name : String}

theorem recommendation_inj {member a b : String} :
    s!"{member} is a deprecated alias, use {a}" = s!"{member} is a deprecated alias, use {b}" ↔
      a = b := by
  simp only [String.append_assoc, String.append_right_inj]
  rfl

theorem recommendation_ne {member a : String} :
    s!"{member} is a deprecated alias, use {a}" ≠ s!"{member} is deprecated, no reason given" := by
  intro h
  simp only [String.append_assoc, String.append_right_inj] at h
  change " is a deprecated alias, use " ++ a = " is deprecated, no reason given" at h
  have hfourth := congrArg (fun text => text.toList[4]?) h
  simp [String.toList_append] at hfourth

theorem notice?_eq_none_iff : e.notice? m = none ↔ m.deprecation = .absent := by
  rw [notice?]
  cases m.deprecation <;> simp

theorem recommends_iff :
    e.Recommends m name ↔ m.deprecation = .renamed ∧ name = (e.canonical m).name := by
  rw [Recommends, notice?]
  cases m.deprecation with
  | absent => simp
  | renamed => simp only [Option.some.injEq, recommendation_inj, true_and, eq_comm]
  | unexplained => simp [recommendation_ne.symm]

theorem discourages_iff : e.Discourages m ↔ m.deprecation = .unexplained := by
  rw [Discourages, notice?]
  cases m.deprecation with
  | absent => simp
  | renamed => simp [recommendation_ne]
  | unexplained => simp

/-- The mark of a member decides what its notice says. A replacement is no alias and has the same
value; it is another member exactly when the member itself is an alias. -/
theorem notice_exact {b : Block} (hresolve : b.resolve = .ok e) (hm : m ∈ e.members) :
    (e.notice? m = none ↔ m.deprecation = .absent) ∧
    (e.Discourages m ↔ m.deprecation = .unexplained) ∧
    ((∃ name, e.Recommends m name) ↔ m.deprecation = .renamed) ∧
    ∀ name, e.Recommends m name → ∃ t ∈ e.members, t.name = name ∧ t.isAlias = false ∧
      t.value = m.value ∧ (t.name ≠ m.name ↔ m.isAlias = true) := by
  have h := Block.sound_of_resolve hresolve
  refine ⟨notice?_eq_none_iff, discourages_iff, ?_, ?_⟩
  · simp only [recommends_iff, exists_and_left, exists_eq, and_true]
  · intro name hname
    obtain ⟨-, rfl⟩ := recommends_iff.mp hname
    obtain ⟨hcanonical, hvalue⟩ := h.canonical_mem hm
    obtain ⟨hmem, halias⟩ := mem_canonicalMembers.mp hcanonical
    refine ⟨_, hmem, rfl, halias, hvalue, ?_⟩
    have hself : (e.canonical m).name = m.name ↔ m.isAlias = false := by
      rw [← h.canonical_eq_self_iff hm]
      exact ⟨h.eq_of_name hmem hm, congrArg fun t : Constant => t.name⟩
    rw [ne_eq, hself, Bool.not_eq_false]

/-- An old name for a literal, and another literal that is marked as if it were one. -/
def markedLiteral : Block :=
  ⟨"E", ⟨"VK_A"⟩,
    [⟨"OLD", .reference "NEW", ⟨"VK_A"⟩, .renamed⟩,
     ⟨"NEW", .literal 1, ⟨"VK_A"⟩, .absent⟩,
     ⟨"ODD", .literal 2, ⟨"VK_A"⟩, .renamed⟩]⟩

def markedEnumeration : Enumeration :=
  ⟨"E", ⟨"VK_A"⟩, List.zipWith (fun d (value, index) => ⟨d, value, index⟩) markedLiteral.members
    [(1, 1), (1, 1), (2, 2)], .ofEntries [("OLD", 0), ("NEW", 1), ("ODD", 2)]⟩

theorem notice_exact_marked : ∃ t ∈ markedEnumeration.members, t.name = "NEW" ∧
    t.isAlias = false ∧ t.value = 1 ∧ t.name ≠ "OLD" := by
  have hresolve : markedLiteral.resolve = .ok markedEnumeration := by decide +kernel
  have hrecommends : markedEnumeration.Recommends
      ⟨⟨"OLD", .reference "NEW", ⟨"VK_A"⟩, .renamed⟩, 1, 1⟩ "NEW" :=
    recommends_iff.mpr ⟨rfl, rfl⟩
  obtain ⟨-, -, -, hreplacement⟩ := notice_exact hresolve List.mem_cons_self
  obtain ⟨t, ht, hname, halias, hvalue, hother⟩ := hreplacement "NEW" hrecommends
  exact ⟨t, ht, hname, halias, hvalue, hother.mpr rfl⟩

def markedText : String :=
  BlockText.ofLines ["// Provided by VK_A".toList, BlockText.openingLine "E".toList,
    "// OLD is a deprecated alias".toList, "OLD = NEW,".toList, "NEW = 1,".toList,
    "// ODD is a deprecated alias".toList, "ODD = 2,".toList, BlockText.closingLine "E".toList]

/-- Even where blocks are read from texts, a notice may name a member as the replacement of itself,
and this member is no alias. -/
theorem marked_literal_replaces_itself :
    ¬ ∀ source text blocks, BlockText.read source text = .ok blocks →
      ∀ b ∈ blocks, ∀ e, b.resolve = .ok e → ∀ m ∈ e.members, ∀ name, e.Recommends m name →
        m.isAlias = true ∧ name ≠ m.name := by
  intro h
  have hread : BlockText.read "marked.h" markedText = .ok [markedLiteral] := by decide +kernel
  have hresolve : markedLiteral.resolve = .ok markedEnumeration := by decide +kernel
  have hrecommends : markedEnumeration.Recommends
      ⟨⟨"ODD", .literal 2, ⟨"VK_A"⟩, .renamed⟩, 2, 2⟩ "ODD" :=
    recommends_iff.mpr ⟨rfl, rfl⟩
  have hother := h _ _ _ hread _ List.mem_cons_self _ hresolve _ (by decide +kernel) _ hrecommends
  exact hother.2 rfl

end ConstantCatalog.Enumeration
