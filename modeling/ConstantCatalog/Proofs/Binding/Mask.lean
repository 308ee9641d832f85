import ConstantCatalog.Proofs.Binding.Agreement
import ConstantCatalog.Proofs.Catalog.Access
import ConstantCatalog.Proofs.Enumeration.Flags

/-! # Two ways to take a mask apart

A binding keeps the variants whose bits a mask includes, an enumeration goes through the single bits
of the mask. Where they agree, the variants with a single bit, lowest first, have the names that the
enumeration gives for the covered part of the mask. Variants with several bits are known to the
binding only, and the one without bits to the enumeration only. -/

namespace ConstantCatalog.Binding
set_option autoImplicit false
open Mask

variable {b : Binding} {e : Enumeration} {mask bit : UInt32}

/-- The variants of a mask that have exactly one bit, lowest first. -/
def singlesIn (b : Binding) (mask : UInt32) : List Variant :=
  ((b.ofMask mask).filter (·.bits ∈ singles)).mergeSort fun v w => v.bits ≤ w.bits

def withBits? (b : Binding) (bits : UInt32) : Option Variant :=
  b.variants.find? (·.bits == bits)

theorem toUInt32_injective : Function.Injective Int32.toUInt32 := by
  intro x y h
  cases x
  cases y
  exact congrArg Int32.ofUInt32 h

theorem bits_nodup (b : Binding) : (b.variants.map (·.bits)).Nodup := by
  have hbits := List.Nodup.map toUInt32_injective b.raw_nodup
  rwa [List.map_map] at hbits

theorem withBits?_eq_some_iff {v : Variant} :
    b.withBits? bit = some v ↔ v ∈ b.variants ∧ v.bits = bit :=
  Keyed.find?_eq_some_iff b.bits_nodup

theorem withBits?_eq_none_iff : b.withBits? bit = none ↔ ∀ v ∈ b.variants, v.bits ≠ bit :=
  Keyed.find?_eq_none_iff

/-! ## Variants with one bit -/

theorem mem_singlesIn {v : Variant} :
    v ∈ b.singlesIn mask ↔ v ∈ b.variants ∧ v.bits ∈ bits mask := by
  rw [singlesIn, List.mem_mergeSort, List.mem_filter, ofMask, List.mem_filter, mem_bits]
  simp only [Bool.and_eq_true, bne_iff_ne, decide_eq_true_eq]
  constructor
  · intro ⟨⟨hv, _, hincludes⟩, hsingle⟩
    exact ⟨hv, hsingle, (includes_single_iff hsingle).mp hincludes⟩
  · intro ⟨hv, hsingle, hmeets⟩
    exact ⟨⟨hv, ne_zero_of_mem_singles hsingle, (includes_single_iff hsingle).mpr hmeets⟩, hsingle⟩

theorem singlesIn_pairwise_le (b : Binding) (mask : UInt32) :
    (b.singlesIn mask).Pairwise fun v w => v.bits ≤ w.bits := by
  have hsorted : (b.singlesIn mask).Pairwise fun v w => decide (v.bits ≤ w.bits) = true := by
    apply List.pairwise_mergeSort
    · intro u v w huv hvw
      exact decide_eq_true (UInt32.le_trans (of_decide_eq_true huv) (of_decide_eq_true hvw))
    · intro v w
      simpa using UInt32.le_total v.bits w.bits
  exact hsorted.imp of_decide_eq_true

theorem variants_nodup (b : Binding) : b.variants.Nodup :=
  b.raw_nodup.of_map _

theorem withBits?_pairwise_lt (b : Binding) (mask : UInt32) :
    ((bits mask).filterMap b.withBits?).Pairwise fun v w => v.bits < w.bits := by
  apply (bits_pairwise_lt mask).filterMap
  intro bit bit' hlt v hv w hw
  rwa [(withBits?_eq_some_iff.mp hv).2, (withBits?_eq_some_iff.mp hw).2]

theorem singlesIn_perm (b : Binding) (mask : UInt32) :
    (b.singlesIn mask).Perm ((bits mask).filterMap b.withBits?) := by
  have hnodup : (b.singlesIn mask).Nodup := by
    apply (List.mergeSort_perm _ _).nodup_iff.mpr
    exact (b.variants_nodup.filter _).filter _
  have hnodup' : ((bits mask).filterMap b.withBits?).Nodup := by
    apply (b.withBits?_pairwise_lt mask).imp
    intro v w hlt heq
    rw [heq] at hlt
    exact UInt32.lt_irrefl _ hlt
  apply (List.perm_ext_iff_of_nodup hnodup hnodup').mpr
  intro v
  rw [mem_singlesIn, List.mem_filterMap]
  simp only [withBits?_eq_some_iff]
  constructor
  · intro ⟨hv, hbit⟩
    exact ⟨_, hbit, hv, rfl⟩
  · intro ⟨bit, hbit, hv, heq⟩
    exact ⟨hv, heq ▸ hbit⟩

/-- The binding may as well go through the single bits of the mask. -/
theorem singlesIn_eq (b : Binding) (mask : UInt32) :
    b.singlesIn mask = (bits mask).filterMap b.withBits? := by
  have hle := (b.withBits?_pairwise_lt mask).imp UInt32.le_of_lt
  have hperm := b.singlesIn_perm mask
  apply hperm.eq_of_pairwise ?_ (b.singlesIn_pairwise_le mask) hle
  intro v w hv hw hvw hwv
  have hw' := mem_singlesIn.mp (hperm.mem_iff.mpr hw)
  exact List.inj_on_of_nodup_map b.bits_nodup (mem_singlesIn.mp hv).1 hw'.1
    (UInt32.le_antisymm hvw hwv)

/-! ## Members and variants with the same bits -/

/-- A property that tells a value picks out a member and the variant of the same name. -/
theorem Agrees.map_find? (h : b.Agrees e) (he : e.Sound) {p : Int32 → Bool}
    (hp : ∀ x y, p x = true → p y = true → x = y) :
    (e.canonicalMembers.find? fun m => p m.value).map (·.name) =
      (b.variants.find? fun v => p v.raw).map (·.symbol) := by
  cases hv : b.variants.find? fun v => p v.raw with
  | some v =>
    obtain ⟨m, hm, hname, hvalue⟩ := h.exists_member (List.mem_of_find?_eq_some hv)
    have hpv : p v.raw = true := List.find?_some (p := fun v : Variant => p v.raw) hv
    have hpm : p m.value = true := hvalue ▸ hpv
    obtain ⟨m', hm'⟩ : ∃ m', (e.canonicalMembers.find? fun m => p m.value) = some m' := by
      apply Option.isSome_iff_exists.mp
      rw [List.find?_isSome]
      exact ⟨m, hm, hpm⟩
    have heq : m' = m := List.inj_on_of_nodup_map (h.values_nodup he)
      (List.mem_of_find?_eq_some hm') hm
      (hp _ _ (List.find?_some (p := fun m : Constant => p m.value) hm') hpm)
    rw [hm', heq, Option.map_some, Option.map_some, hname]
  | none =>
    have hnone : (e.canonicalMembers.find? fun m => p m.value) = none := by
      apply List.find?_eq_none.mpr
      intro m hm hpm
      obtain ⟨v, hmem, -, hraw⟩ := h.exists_variant hm
      exact List.find?_eq_none.mp hv v hmem (hraw ▸ hpm)
    rw [hnone]
    rfl

theorem Agrees.map_canonicalWithBits? (h : b.Agrees e) (he : e.Sound) (bit : UInt32) :
    (e.canonicalWithBits? bit).map (·.name) = (b.withBits? bit).map (·.symbol) := by
  apply h.map_find? he (p := fun value => value.toUInt32 == bit)
  intro x y hx hy
  exact toUInt32_injective ((eq_of_beq hx).trans (eq_of_beq hy).symm)

theorem Agrees.canonicalWithBits?_eq_none_iff (h : b.Agrees e) (he : e.Sound) :
    e.canonicalWithBits? bit = none ↔ ∀ v ∈ b.variants, v.bits ≠ bit := by
  rw [← withBits?_eq_none_iff, ← Option.map_eq_none_iff, h.map_canonicalWithBits? he,
    Option.map_eq_none_iff]

theorem Agrees.map_symbol_singlesIn (h : b.Agrees e) (he : e.Sound) (mask : UInt32) :
    (b.singlesIn mask).map (·.symbol) =
      ((bits mask).filterMap e.canonicalWithBits?).map (·.name) := by
  rw [singlesIn_eq, List.map_filterMap, List.map_filterMap]
  simp only [h.map_canonicalWithBits? he]

/-- Without the bits that have no name, the flags of a mask are its single-bit variants. -/
theorem Agrees.flagNames_covered (h : b.Agrees e) (he : e.Sound) (hflags : e.kind = .flags)
    (hcovered : e.covered mask ≠ 0) :
    e.flagNames (e.covered mask) = .ok ((b.singlesIn mask).map (·.symbol)) := by
  rw [h.map_symbol_singlesIn he]
  exact Enumeration.flagNames_covered hflags hcovered

theorem Agrees.singlesIn_eq_nil (h : b.Agrees e) (he : e.Sound) (hcovered : e.covered mask = 0) :
    b.singlesIn mask = [] := by
  apply List.map_eq_nil_iff.mp
  rw [h.map_symbol_singlesIn he, ← Enumeration.filterMap_bits_covered, hcovered, bits_zero]
  rfl

theorem Agrees.flagNames_zero (h : b.Agrees e) (he : e.Sound) (hflags : e.kind = .flags) :
    e.flagNames 0 = .ok ((b.ofRaw? 0).map (·.symbol)).toList := by
  have hzero := h.map_find? he (p := (· == 0))
    (fun x y hx hy => (eq_of_beq hx).trans (eq_of_beq hy).symm)
  rw [Enumeration.flagNames_zero hflags, Enumeration.canonicalWithValue?, hzero]
  rfl

theorem ofMask_zero (b : Binding) : b.ofMask 0 = [] := by
  rw [ofMask, List.filter_eq_nil_iff]
  intro v _ hmeets
  obtain ⟨hbits, hincludes⟩ := Bool.and_eq_true_iff.mp hmeets
  rw [includes, UInt32.zero_and, beq_iff_eq] at hincludes
  exact bne_iff_ne.mp hbits hincludes.symm

/-- After a successful check the single-bit variants of a mask are named like its flags, apart from
the bits that no such variant has. -/
theorem singlesIn_exact {o : Options} {blocks : List Block} {c : Catalog}
    (hload : (Catalog.load o blocks).outcome = .ok c) {b : Binding}
    (hflags : "FlagBits".toList <:+: b.enumeration.toList) (hcheck : b.check c = .ok ()) :
    (∀ mask : UInt32, mask ≠ 0 → ∃ unknown : UInt32,
      ((∃ names, c.flagNames b.enumeration mask = .ok names) ∧ unknown = 0 ∨
        c.flagNames b.enumeration mask = .error (.uncoveredBits b.enumeration unknown)) ∧
      (mask &&& ~~~unknown ≠ 0 → c.flagNames b.enumeration (mask &&& ~~~unknown) =
        .ok ((b.singlesIn mask).map (·.symbol))) ∧
      (mask &&& ~~~unknown = 0 → b.singlesIn mask = []) ∧
      ∀ bit ∈ singles, unknown &&& bit ≠ 0 ↔
        mask &&& bit ≠ 0 ∧ ∀ v ∈ b.variants, v.bits ≠ bit) ∧
    b.ofMask 0 = [] ∧
    (∀ v ∈ b.variants, v.raw = 0 → c.flagNames b.enumeration 0 = .ok [v.symbol]) ∧
    ((∀ v ∈ b.variants, v.raw ≠ 0) → c.flagNames b.enumeration 0 = .ok []) := by
  have hc := Catalog.sound_of_load hload
  obtain ⟨e, hmem, hname, hagrees⟩ := (check_eq_ok_iff hc).mp hcheck
  have he := hc.enumerations e hmem
  have hkind : e.kind = .flags := by
    rw [Enumeration.kind, hname]
    exact Kind.ofName_eq_flags_iff.mpr hflags
  have hfound := hc.enumeration_eq_ok_iff.mpr ⟨hmem, hname⟩
  simp only [Catalog.flagNames_of_enumeration hfound, hagrees.flagNames_zero he hkind]
  refine ⟨?_, b.ofMask_zero, ?_, ?_⟩
  · intro mask hmask
    refine ⟨e.uncovered mask, ?_, ?_, ?_, ?_⟩
    · by_cases hzero : e.uncovered mask = 0
      · exact Or.inl ⟨⟨_, Enumeration.flagNames_of_uncovered_eq_zero hkind hmask hzero⟩, hzero⟩
      · rw [← hname]
        exact Or.inr (Enumeration.flagNames_of_uncovered_ne_zero hkind hmask hzero)
    · exact hagrees.flagNames_covered he hkind
    · exact hagrees.singlesIn_eq_nil he
    · intro bit hbit
      rw [Enumeration.uncovered_and_ne_zero_iff hbit, hagrees.canonicalWithBits?_eq_none_iff he]
  · intro v hv hraw
    rw [ofRaw?_eq_some_iff.mpr ⟨hv, hraw⟩]
    rfl
  · intro hnone
    have hzero : b.ofRaw? 0 = none := Keyed.find?_eq_none_iff.mpr hnone
    rw [hzero]
    rfl

/-- The mask has the sign bit, the lowest bit and one without a name. -/
theorem singlesIn_exact_mixedFlags :
    (mixedBinding.singlesIn 2147483651).map (·.symbol) = ["LOW", "HIGH"] ∧
      mixedBinding.singlesIn 6 = [] ∧
      Catalog.flagNames mixedCatalog "MixedFlagBits" 0 = .ok ["NONE"] := by
  have hflags : "FlagBits".toList <:+: mixedBinding.enumeration.toList :=
    ⟨"Mixed".toList, [], rfl⟩
  have hcheck : mixedBinding.check mixedCatalog = .ok () := by decide +kernel
  have hpartly : Catalog.flagNames mixedCatalog mixedBinding.enumeration 2147483651 =
      .error (.uncoveredBits "MixedFlagBits" 2) := by decide +kernel
  have hwholly : Catalog.flagNames mixedCatalog mixedBinding.enumeration 6 =
      .error (.uncoveredBits "MixedFlagBits" 6) := by decide +kernel
  have hnames : Catalog.flagNames mixedCatalog mixedBinding.enumeration 2147483649 =
      .ok ["LOW", "HIGH"] := by decide +kernel
  obtain ⟨hmask, -, hzero, -⟩ := singlesIn_exact load_mixedFlags hflags hcheck
  obtain ⟨unknown, hanswer, hcovered, -⟩ := hmask 2147483651 (by decide)
  obtain ⟨unknown', hanswer', -, hnothing, -⟩ := hmask 6 (by decide)
  refine ⟨?_, ?_, hzero ⟨"None", "NONE", 0⟩ (by decide) rfl⟩
  · rw [hpartly] at hanswer
    rcases hanswer with ⟨⟨_, hok⟩, -⟩ | herror
    · cases hok
    · cases herror
      have hmasked : (2147483651 : UInt32) &&& ~~~2 = 2147483649 := by decide
      rw [hmasked, hnames] at hcovered
      exact (Except.ok.inj (hcovered (by decide))).symm
  · rw [hwholly] at hanswer'
    rcases hanswer' with ⟨⟨_, hok⟩, -⟩ | herror
    · cases hok
    · cases herror
      exact hnothing (by decide)

end ConstantCatalog.Binding
