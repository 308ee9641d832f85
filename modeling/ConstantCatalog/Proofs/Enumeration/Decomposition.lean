import ConstantCatalog.Proofs.Catalog.Lookup
import ConstantCatalog.Proofs.Enumeration.Flags

/-! # Masks taken apart

The names that a flags enumeration gives for a mask, said by its members. Aliases give no name, but
they leave no bit over either: the value of an alias is that of a canonical member, so that a bit is
unknown only if no member at all has it alone. Where no bit is unknown there is one flag for each
bit, and together the flags are the mask again. -/

namespace ConstantCatalog
set_option autoImplicit false
open Mask

namespace Enumeration

/-- The first member with a property, among those that are no aliases. -/
structure FirstCanonical (e : Enumeration) (p : Constant → Prop) (m : Constant) : Prop where
  canonical : m.isAlias = false
  holds : p m
  first : ∃ before after, e.members = before ++ m :: after ∧
    ∀ n ∈ before, n.isAlias = false → ¬ p n

/-- The bits of a mask that no member has alone, be it an alias or not. -/
def unknownBits (e : Enumeration) (mask : UInt32) : UInt32 :=
  union ((bits mask).filter fun bit => e.members.all (·.bits != bit))

/-- One flag for each bit of a mask, lowest bit first. -/
structure Decomposes (e : Enumeration) (mask : UInt32) (flags : List Constant) : Prop where
  bits : flags.map (·.bits) = bits mask
  ascending : (flags.map (·.bits)).Pairwise (· < ·)
  first : ∀ m ∈ flags, e.FirstCanonical (·.bits = m.bits) m
  names_nodup : (flags.map (·.name)).Nodup
  access : ∀ m ∈ flags, ∀ o, (e.access o m.name).outcome = .ok m
  union : union (flags.map (·.bits)) = mask

variable {e : Enumeration} {m : Constant} {mask bit : UInt32}

theorem find?_canonicalMembers_eq_some_iff {p : Constant → Bool} :
    e.canonicalMembers.find? p = some m ↔ e.FirstCanonical (p · = true) m := by
  rw [canonicalMembers, List.find?_filter, List.find?_eq_some_iff_append]
  constructor
  · rintro ⟨hm, before, after, hsplit, hbefore⟩
    have hm' : m.isAlias = false ∧ p m = true := by simpa using hm
    refine ⟨hm'.1, hm'.2, before, after, hsplit, ?_⟩
    intro n hn halias
    simpa [halias] using hbefore n hn
  · rintro ⟨hm, hp, before, after, hsplit, hbefore⟩
    refine ⟨by simp [hm, hp], before, after, hsplit, ?_⟩
    intro n hn
    cases halias : n.isAlias with
    | true => simp
    | false => simpa using hbefore n hn halias

theorem FirstCanonical.mem {p : Constant → Prop} (h : e.FirstCanonical p m) : m ∈ e.members := by
  obtain ⟨before, after, hsplit, -⟩ := h.first
  simp [hsplit]

theorem canonicalWithBits?_eq_some_iff :
    e.canonicalWithBits? bit = some m ↔ e.FirstCanonical (·.bits = bit) m := by
  simp only [canonicalWithBits?, find?_canonicalMembers_eq_some_iff, beq_iff_eq]

theorem canonicalWithValue?_eq_some_iff {value : Int32} :
    e.canonicalWithValue? value = some m ↔ e.FirstCanonical (·.value = value) m := by
  simp only [canonicalWithValue?, find?_canonicalMembers_eq_some_iff, beq_iff_eq]

theorem uncovered_eq_zero_iff :
    e.uncovered mask = 0 ↔ ∀ bit ∈ bits mask, ∃ m, e.canonicalWithBits? bit = some m := by
  constructor
  · intro hzero bit hbit
    obtain ⟨hsingle, hmeets⟩ := mem_bits.mp hbit
    apply Option.ne_none_iff_exists'.mp
    intro hnone
    have hmet := (uncovered_and_ne_zero_iff hsingle).mpr ⟨hmeets, hnone⟩
    rw [hzero, UInt32.zero_and] at hmet
    exact hmet rfl
  · intro hall
    have hnil : (bits mask).filter (fun bit => (e.canonicalWithBits? bit).isNone) = [] := by
      rw [List.filter_eq_nil_iff]
      intro bit hbit
      obtain ⟨m, hm⟩ := hall bit hbit
      simp [hm]
    rw [uncovered, hnil, union_nil]

namespace Sound
variable (h : e.Sound)
include h

/-- A bit pattern that a member has is the literal of a member. -/
theorem canonicalWithBits?_eq_none_iff :
    e.canonicalWithBits? bit = none ↔ ∀ m ∈ e.members, m.bits ≠ bit := by
  rw [canonicalWithBits?, List.find?_eq_none]
  constructor
  · intro hnone m hm hbits
    obtain ⟨hcanonical, hvalue⟩ := h.canonical_mem hm
    apply hnone _ hcanonical
    rw [beq_iff_eq, Constant.bits, hvalue]
    exact hbits
  · intro hnone m hm
    simpa using hnone m (mem_canonicalMembers.mp hm).1

theorem unknownBits_eq_uncovered : e.unknownBits mask = e.uncovered mask := by
  rw [unknownBits, uncovered]
  congr 1
  apply List.filter_congr
  intro bit _
  rw [Bool.eq_iff_iff, Option.isNone_iff_eq_none, h.canonicalWithBits?_eq_none_iff]
  simp

theorem outcome_access_of_mem (hm : m ∈ e.members) (o : Options) :
    (e.access o m.name).outcome = .ok m := by
  rw [outcome_access, h.member_eq_ok]
  exact ⟨hm, rfl⟩

/-- The scan over the bits of a mask finds one flag for each of them. -/
theorem decomposes (hzero : e.uncovered mask = 0) :
    e.Decomposes mask ((bits mask).filterMap e.canonicalWithBits?) := by
  have hbits : ((bits mask).filterMap e.canonicalWithBits?).map (·.bits) = bits mask := by
    rw [List.map_filterMap]
    conv => right; rw [← List.filterMap_some (l := bits mask)]
    apply List.filterMap_congr
    intro bit hbit
    obtain ⟨m, hm⟩ := uncovered_eq_zero_iff.mp hzero bit hbit
    rw [hm, Option.map_some, (canonicalWithBits?_eq_some_iff.mp hm).holds]
  have hfirst : ∀ m ∈ (bits mask).filterMap e.canonicalWithBits?,
      e.FirstCanonical (·.bits = m.bits) m := by
    intro m hm
    obtain ⟨bit, -, hm⟩ := List.mem_filterMap.mp hm
    have hflag := canonicalWithBits?_eq_some_iff.mp hm
    rwa [hflag.holds]
  have hascending := bits_pairwise_lt mask
  rw [← hbits] at hascending
  refine ⟨hbits, hascending, hfirst, ?_, ?_, ?_⟩
  · have hnodup : ((bits mask).filterMap e.canonicalWithBits?).Nodup := by
      apply List.Nodup.of_map (·.bits)
      exact hascending.imp UInt32.ne_of_lt
    apply hnodup.map_on
    intro m hm n hn
    exact h.eq_of_name (hfirst m hm).mem (hfirst n hn).mem
  · intro m hm
    exact h.outcome_access_of_mem (hfirst m hm).mem
  · rw [hbits, union_bits]

/-- Either no member has the value zero, or the first canonical one that has it is the answer. -/
theorem flagNames_zero_cases (hflags : e.kind = .flags) :
    ((∀ m ∈ e.members, m.value ≠ 0) ∧ e.flagNames 0 = .ok []) ∨
      ∃ m, e.FirstCanonical (·.value = 0) m ∧ e.flagNames 0 = .ok [m.name] := by
  rw [flagNames_zero hflags]
  cases hzero : e.canonicalWithValue? 0 with
  | some m => exact Or.inr ⟨m, canonicalWithValue?_eq_some_iff.mp hzero, rfl⟩
  | none =>
    refine Or.inl ⟨?_, rfl⟩
    intro m hm hvalue
    have hmem : m ∈ e.withValue 0 := mem_withValue.mpr ⟨hm, hvalue⟩
    rw [h.canonicalWithValue?_eq_none_iff.mp hzero] at hmem
    exact absurd hmem List.not_mem_nil

end Sound

theorem flagNames_eq_notFlags_iff {name : String} :
    e.flagNames mask = .error (.notFlags name) ↔ e.kind ≠ .flags ∧ name = e.name := by
  constructor
  · intro h
    unfold flagNames at h
    split at h
    · rename_i hkind
      cases h
      exact ⟨hkind, rfl⟩
    · split at h
      · cases h
      · split at h <;> cases h
  · intro ⟨hkind, hname⟩
    rw [flagNames, if_pos hkind, hname]

/-- What an enumeration answers for a mask. If it is none of flags, that is the fault, whatever the
mask. Otherwise the empty mask has the name of the first canonical member with value zero, or no
name if no member has that value. Any other mask fails with its unknown bits if there are some, and
is else taken apart into one flag for each bit. -/
theorem flagNames_exact {b : Block} (hresolve : b.resolve = .ok e) (mask : UInt32) :
    (∀ name, e.flagNames mask = .error (.notFlags name) ↔
      ¬ "FlagBits".toList <:+: e.name.toList ∧ name = e.name) ∧
    ("FlagBits".toList <:+: e.name.toList →
      (e.flagNames 0 = .ok [] ↔ ∀ m ∈ e.members, m.value ≠ 0) ∧
      ((∃ m ∈ e.members, m.value = 0) →
        ∃ m, e.FirstCanonical (·.value = 0) m ∧ e.flagNames 0 = .ok [m.name]) ∧
      (mask ≠ 0 → e.unknownBits mask ≠ 0 →
        e.flagNames mask = .error (.uncoveredBits e.name (e.unknownBits mask))) ∧
      (mask ≠ 0 → e.unknownBits mask = 0 →
        ∃ flags, e.flagNames mask = .ok (flags.map (·.name)) ∧ e.Decomposes mask flags)) := by
  have h := Block.sound_of_resolve hresolve
  rw [← Kind.ofName_eq_flags_iff, h.unknownBits_eq_uncovered]
  refine ⟨fun name => flagNames_eq_notFlags_iff, ?_⟩
  intro hflags
  refine ⟨?_, ?_, flagNames_of_uncovered_ne_zero hflags, ?_⟩
  · rcases h.flagNames_zero_cases hflags with ⟨hnone, hnames⟩ | ⟨m, hm, hnames⟩
    · exact iff_of_true hnames hnone
    · rw [hnames]
      exact iff_of_false (by simp) fun hnone => hnone m hm.mem hm.holds
  · intro ⟨m, hm, hvalue⟩
    exact (h.flagNames_zero_cases hflags).resolve_left fun hnone => hnone.1 m hm hvalue
  · intro hmask hzero
    exact ⟨_, flagNames_of_uncovered_eq_zero hflags hmask hzero, h.decomposes hzero⟩

/-- Two members with the lowest bit, one with two bits, and the sign bit behind an alias of it. -/
def overlappingFlags : Block :=
  ⟨"OverlapFlagBits", ⟨"VK_A"⟩,
    [⟨"OLD", .reference "SIGN", ⟨"VK_A"⟩, .renamed⟩,
     ⟨"BOTH", .literal (-2147483647), ⟨"VK_A"⟩, .absent⟩,
     ⟨"LOW", .literal 1, ⟨"VK_A"⟩, .absent⟩,
     ⟨"LEAST", .literal 1, ⟨"VK_A"⟩, .absent⟩,
     ⟨"SIGN", .literal (-2147483648), ⟨"VK_A"⟩, .absent⟩]⟩

def overlappingEnumeration : Enumeration :=
  ⟨"OverlapFlagBits", ⟨"VK_A"⟩, List.zipWith (fun d (value, index) => ⟨d, value, index⟩)
    overlappingFlags.members [(-2147483648, 4), (-2147483647, 1), (1, 2), (1, 3), (-2147483648, 4)],
    .ofEntries [("OLD", 0), ("BOTH", 1), ("LOW", 2), ("LEAST", 3), ("SIGN", 4)]⟩

/-- The first mask has the lowest bit and the sign bit, the second one two more bits. -/
theorem flagNames_exact_overlapping :
    (∃ flags, overlappingEnumeration.flagNames 2147483649 = .ok ["LOW", "SIGN"] ∧
      flags.map (·.name) = ["LOW", "SIGN"] ∧
      overlappingEnumeration.Decomposes 2147483649 flags) ∧
    overlappingEnumeration.flagNames 2147483655 = .error (.uncoveredBits "OverlapFlagBits" 6) ∧
    overlappingEnumeration.flagNames 0 = .ok [] := by
  have hresolve : overlappingFlags.resolve = .ok overlappingEnumeration := by decide +kernel
  have hflags : "FlagBits".toList <:+: overlappingEnumeration.name.toList :=
    ⟨"Overlap".toList, [], rfl⟩
  have hnames : overlappingEnumeration.flagNames 2147483649 = .ok ["LOW", "SIGN"] := by
    decide +kernel
  have hunknown : overlappingEnumeration.unknownBits 2147483655 = 6 := by decide +kernel
  refine ⟨?_, ?_, ?_⟩
  · obtain ⟨-, -, -, hknown⟩ := (flagNames_exact hresolve 2147483649).2 hflags
    obtain ⟨flags, hanswer, hdecomposes⟩ := hknown (by decide) (by decide +kernel)
    exact ⟨flags, hnames, Except.ok.inj (hanswer.symm.trans hnames), hdecomposes⟩
  · obtain ⟨-, -, hfault, -⟩ := (flagNames_exact hresolve 2147483655).2 hflags
    rw [hunknown] at hfault
    exact hfault (by decide) (by decide)
  · obtain ⟨hempty, -⟩ := (flagNames_exact hresolve 0).2 hflags
    exact hempty.mpr (by decide +kernel)

end Enumeration

end ConstantCatalog
