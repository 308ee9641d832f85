import ConstantCatalog.Availability
import ConstantCatalog.Proofs.BlockText.Line

/-! # Versions

Versions are in a linear order, so that of several ones there is a greatest and a least. A term
names a major and a minor number only, and every pair of these is named by some term. -/

namespace ConstantCatalog.Version
set_option autoImplicit false
open Text BlockText

/-! ## Order -/

theorem le_iff {v w : Version} : v ≤ w ↔ v.major.toNat < w.major.toNat ∨
    v.major.toNat = w.major.toNat ∧ (v.minor.toNat < w.minor.toNat ∨
      v.minor.toNat = w.minor.toNat ∧ v.patch.toNat ≤ w.patch.toNat) := by
  change v.major < w.major ∨ (v.major = w.major ∧
    (v.minor < w.minor ∨ (v.minor = w.minor ∧ v.patch ≤ w.patch))) ↔ _
  rw [UInt32.lt_iff_toNat_lt, UInt32.lt_iff_toNat_lt, UInt32.le_iff_toNat_le,
    ← UInt32.toNat_inj, ← UInt32.toNat_inj]

theorem eq_of_toNat_eq {v w : Version} (hmajor : v.major.toNat = w.major.toNat)
    (hminor : v.minor.toNat = w.minor.toNat) (hpatch : v.patch.toNat = w.patch.toNat) : v = w := by
  cases v
  cases w
  rw [UInt32.toNat_inj] at hmajor hminor hpatch
  cases hmajor
  cases hminor
  cases hpatch
  rfl

instance : Std.IsLinearOrder Version where
  le_refl := by
    intro v
    rw [le_iff]
    omega
  le_trans := by
    intro u v w
    rw [le_iff, le_iff, le_iff]
    omega
  le_antisymm := by
    intro v w hvw hwv
    rw [le_iff] at hvw hwv
    exact eq_of_toNat_eq (by omega) (by omega) (by omega)
  le_total := by
    intro v w
    rw [le_iff, le_iff]
    omega

instance : Std.LawfulOrderLeftLeaningMin Version where
  min_eq_left := fun _ _ h => if_pos h
  min_eq_right := fun _ _ h => if_neg h

instance : Std.LawfulOrderLeftLeaningMax Version where
  max_eq_left := by
    intro v w hwv
    by_cases hvw : v ≤ w
    · rw [Std.le_antisymm hvw hwv]
      exact ite_self w
    · exact if_neg hvw
  max_eq_right := by
    intro v w hwv
    exact if_pos ((Std.le_total : v ≤ w ∨ w ≤ v).resolve_right hwv)

/-- The version is not later than the given one, patch levels apart. -/
def Within (v : Version) (major minor : UInt32) : Prop :=
  v.major < major ∨ (v.major = major ∧ v.minor ≤ minor)

theorem within_iff_le {v : Version} (h : v.patch = 0) {major minor : UInt32} :
    v.Within major minor ↔ v ≤ ⟨major, minor, 0⟩ := by
  rw [Within, le_iff, h, UInt32.lt_iff_toNat_lt, UInt32.le_iff_toNat_le, ← UInt32.toNat_inj]
  change _ ↔ v.major.toNat < major.toNat ∨ v.major.toNat = major.toNat ∧
    (v.minor.toNat < minor.toNat ∨ v.minor.toNat = minor.toNat ∧ 0 ≤ 0)
  omega

theorem within_iff_le_of_patch {v w : Version} (hv : v.patch = 0) (hw : w.patch = 0) :
    v.Within w.major w.minor ↔ v ≤ w := by
  rw [within_iff_le hv, ← hw]

/-- The greatest version stands for all of them. -/
theorem within_max?_iff {vs : List Version} (h : ∀ v ∈ vs, v.patch = 0) {major minor : UInt32} :
    (∀ v ∈ vs.max?, v.Within major minor) ↔ ∀ v ∈ vs, v.Within major minor := by
  cases hmax : vs.max? with
  | none => simp [List.max?_eq_none_iff.mp hmax]
  | some greatest =>
    obtain ⟨hmem, hle⟩ := List.max?_eq_some_iff.mp hmax
    constructor
    · intro hwithin v hv
      have hgreatest := hwithin greatest rfl
      rw [within_iff_le (h greatest hmem)] at hgreatest
      rw [within_iff_le (h v hv)]
      exact Std.le_trans (hle v hv) hgreatest
    · rintro hwithin _ ⟨⟩
      exact hwithin greatest hmem

/-! ## Terms -/

def term (v : Version) : List Char :=
  "VK_VERSION_".toList ++ (Nat.toDigits 10 v.major.toNat ++ '_' :: Nat.toDigits 10 v.minor.toNat)

theorem patch_of_ofTerm? {t : List Char} {v : Version} (h : ofTerm? t = some v) : v.patch = 0 := by
  obtain ⟨numbers, -, h⟩ := Option.bind_eq_some_iff.mp h
  obtain ⟨⟨major, minor⟩, -, h⟩ := Option.bind_eq_some_iff.mp h
  obtain ⟨p, -, h⟩ := Option.bind_eq_some_iff.mp h
  obtain ⟨q, -, h⟩ := Option.bind_eq_some_iff.mp h
  cases h
  rfl

theorem ofTerm?_append {numbers major minor : List Char}
    (h : cut? '_' [] numbers = some (major, minor)) : ofTerm? ("VK_VERSION_".toList ++ numbers) =
      (word? 10 major).bind fun p => (word? 10 minor).bind fun q => some ⟨p, q, 0⟩ := by
  have hstart := List.isPrefixOf?_eq_some_iff_append_eq.mpr
    (Eq.refl ("VK_VERSION_".toList ++ numbers))
  rw [ofTerm?, hstart, Option.bind_eq_bind, Option.bind_some, h]
  rfl

theorem ofTerm?_term {v : Version} (h : v.patch = 0) : ofTerm? v.term = some v := by
  have hmark : '_' ∉ Nat.toDigits 10 v.major.toNat :=
    notMem_toDigits (by omega) (by omega) (by decide) _
  have hword : ∀ w : UInt32, word? 10 (Nat.toDigits 10 w.toNat) = some w :=
    word?_toDigits (by omega) (by omega)
  have hcut := cut?_eq_some_iff.mpr ⟨Eq.refl (Nat.toDigits 10 v.major.toNat ++ '_' ::
    Nat.toDigits 10 v.minor.toNat), hmark⟩
  refine (ofTerm?_append hcut).trans ?_
  rw [hword, hword, Option.bind_some, Option.bind_some, ← h]

/-- A term is a word. -/
theorem isIdentifier_term (v : Version) : isIdentifier v.term = true := by
  have hdigits : ∀ n, ∀ c ∈ Nat.toDigits 10 n, isNameChar c = true := by
    intro n c hc
    have hlt := digitValue_lt_of_mem_toDigits (by omega) (by omega) hc
    exact isNameChar_of_digitValue_lt (by omega)
  have hstart : "K_VERSION_".toList.all isNameChar = true := by decide
  change ("K_VERSION_".toList ++
    (Nat.toDigits 10 v.major.toNat ++ '_' :: Nat.toDigits 10 v.minor.toNat)).all isNameChar = true
  rw [List.all_append, List.all_append, List.all_cons, hstart, List.all_eq_true.mpr (hdigits _),
    List.all_eq_true.mpr (hdigits _)]
  rfl

end ConstantCatalog.Version
