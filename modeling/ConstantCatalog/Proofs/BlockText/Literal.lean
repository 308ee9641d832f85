import Mathlib.Data.Int.ModEq
import ConstantCatalog.Enumeration.Basic
import ConstantCatalog.Proofs.Text.Positional

/-! # What literals are

A literal is a numeral whose value fits: a hexadecimal one has to fit into 32 bits and stands for
the signed value with these bits, a decimal one has to be a signed 32-bit value itself. No value out
of range is taken for one inside, and no writing of a value inside is refused. -/

namespace ConstantCatalog.BlockText.Literal
set_option autoImplicit false
open Text

variable {s ds digits : List Char} {v : Int32} {n : Nat} {mark : Char}

/-- The signed value and the bits agree up to a multiple of the number of words. -/
theorem toInt_modEq (v : Int32) : v.toInt ≡ v.toUInt32.toNat [ZMOD 2 ^ 32] := by
  have hvalue : v.toInt = (v.toUInt32.toNat : Int).bmod (2 ^ 32) := v.toBitVec.toInt_eq_toNat_bmod
  rw [hvalue]
  exact Int.bmod_emod

theorem read?_marked (h : mark = 'x' ∨ mark = 'X') :
    read? ('0' :: mark :: digits) = ofPattern? digits := by
  rcases h with rfl | rfl <;> rfl

theorem read?_unmarked (hx : ¬ "0x".toList <+: s) (hX : ¬ "0X".toList <+: s) :
    read? s = ofDecimal? s := by
  unfold read?
  split
  · rename_i t
    exact absurd (List.prefix_append "0x".toList t) hx
  · rename_i t
    exact absurd (List.prefix_append "0X".toList t) hX
  · rfl

theorem ofPattern?_eq_some_iff :
    ofPattern? digits = some v ↔ IsNatural 16 digits v.toUInt32.toNat := by
  rw [← word?_eq_some_iff (Nat.le_refl 16), ofPattern?, Option.map_eq_some_iff]
  constructor
  · rintro ⟨w, hw, rfl⟩
    rwa [UInt32.toUInt32_toInt32]
  · intro h
    exact ⟨_, h, Int32.toInt32_toUInt32 v⟩

theorem ofDecimal?_eq_some_iff : ofDecimal? s = some v ↔ IsInteger s v.toInt := by
  rw [← integer?_eq_some_iff, ofDecimal?, Option.bind_eq_some_iff]
  constructor
  · rintro ⟨z, hz, h⟩
    split at h
    · rename_i hrange
      obtain ⟨hlow, hhigh⟩ : -2 ^ 31 ≤ z ∧ z ≤ 2 ^ 31 - 1 := hrange
      cases h
      rwa [Int32.toInt_ofInt_of_le hlow (by omega)]
    · cases h
  · intro h
    exact ⟨v.toInt, h, by rw [if_pos ⟨v.le_toInt, v.toInt_le⟩, Int32.ofInt_toInt]⟩

/-- Every word is the pattern of a value. -/
theorem isSome_ofPattern?_iff :
    (∃ v, ofPattern? digits = some v) ↔ ∃ n, IsNatural 16 digits n ∧ n < 2 ^ 32 := by
  simp only [ofPattern?_eq_some_iff]
  constructor
  · rintro ⟨v, h⟩
    exact ⟨_, h, v.toUInt32.toNat_lt⟩
  · rintro ⟨n, h, hlt⟩
    refine ⟨(UInt32.ofNat n).toInt32, ?_⟩
    rwa [UInt32.toUInt32_toInt32, UInt32.toNat_ofNat_of_lt' hlt]

theorem isSome_ofDecimal?_iff : (∃ v, ofDecimal? s = some v) ↔
    ∃ z, IsInteger s z ∧ -2 ^ 31 ≤ z ∧ z ≤ 2 ^ 31 - 1 := by
  simp only [ofDecimal?_eq_some_iff]
  constructor
  · rintro ⟨v, h⟩
    exact ⟨_, h, v.le_toInt, v.toInt_le⟩
  · rintro ⟨z, h, hlow, hhigh⟩
    refine ⟨Int32.ofInt z, ?_⟩
    rwa [Int32.toInt_ofInt_of_le hlow (by omega)]

/-! ## Leading zeros -/

theorem natural?_zeros {base : Nat} (hlow : 0 < base) (hbase : base ≤ 16)
    (h : IsNumeral base ds n) (k : Nat) {sign : List Char} (hsign : sign = [] ∨ sign = ['+']) :
    natural? base (sign ++ (List.replicate k '0' ++ ds)) = some n := by
  rw [natural?_eq_some_iff hbase]
  refine ⟨_, h.replicate_zero_append hlow k, ?_⟩
  rcases hsign with rfl | rfl
  · exact .inl rfl
  · exact .inr rfl

theorem ofPattern?_zeros (h : IsNumeral 16 ds n) (k : Nat) {sign : List Char}
    (hsign : sign = [] ∨ sign = ['+']) :
    ofPattern? (sign ++ (List.replicate k '0' ++ ds)) = ofPattern? (sign ++ ds) := by
  have hzeros := natural?_zeros (by decide) (Nat.le_refl 16) h k hsign
  have hnone := natural?_zeros (by decide) (Nat.le_refl 16) h 0 hsign
  rw [List.replicate_zero, List.nil_append] at hnone
  rw [ofPattern?, ofPattern?, word?, word?, hzeros, hnone]

/-- No signed decimal numeral has a mark of another base. -/
theorem read?_of_isInteger {z : Int} (h : IsInteger s z) : read? s = ofDecimal? s := by
  have hmark : ∀ c, 10 ≤ digitValue c → c ≠ '-' → c ≠ '+' → c ∉ s := by
    intro c hc hminus hplus hmem
    rcases eq_or_digitValue_lt_of_integer? (integer?_eq_some_iff.mpr h) c hmem with heq | heq | hlt
    · exact hminus heq
    · exact hplus heq
    · omega
  apply read?_unmarked
  · exact fun hx => hmark 'x' (by decide) (by decide) (by decide) (hx.subset (by decide))
  · exact fun hX => hmark 'X' (by decide) (by decide) (by decide) (hX.subset (by decide))

theorem read?_zeros (h : IsNumeral 10 ds n) (k : Nat) {sign : List Char}
    (hsign : sign = [] ∨ sign = ['+'] ∨ sign = ['-']) :
    read? (sign ++ (List.replicate k '0' ++ ds)) = read? (sign ++ ds) := by
  obtain ⟨z, hz⟩ : ∃ z : Int, ∀ k, IsInteger (sign ++ (List.replicate k '0' ++ ds)) z := by
    rcases hsign with rfl | rfl | rfl
    · exact ⟨n, fun k => ⟨_, n, h.replicate_zero_append (by decide) k, .inl ⟨.inl rfl, rfl⟩⟩⟩
    · exact ⟨n, fun k => ⟨_, n, h.replicate_zero_append (by decide) k, .inl ⟨.inr rfl, rfl⟩⟩⟩
    · exact ⟨-n, fun k => ⟨_, n, h.replicate_zero_append (by decide) k, .inr ⟨rfl, rfl⟩⟩⟩
  have hnone := hz 0
  rw [List.replicate_zero, List.nil_append] at hnone
  rw [read?_of_isInteger (hz k), read?_of_isInteger hnone, ofDecimal?, ofDecimal?,
    integer?_eq_some_iff.mpr (hz k), integer?_eq_some_iff.mpr hnone]

/-- A text is a literal when it is a numeral in range, and stands for the value with these bits
after a mark and for the value of the numeral without one. Leading zeros do not count, and every
value is read back from its bits as from its decimal numeral. -/
theorem read?_exact :
    (∀ mark digits, mark = 'x' ∨ mark = 'X' →
      ((∃ v, read? ('0' :: mark :: digits) = some v) ↔ ∃ n, IsNatural 16 digits n ∧ n < 2 ^ 32) ∧
      (∀ v, read? ('0' :: mark :: digits) = some v ↔ IsNatural 16 digits v.toUInt32.toNat) ∧
      (∀ c : Constant, read? ('0' :: mark :: digits) = some c.value →
        IsNatural 16 digits c.bits.toNat) ∧
      ∀ ds n k sign, IsNumeral 16 ds n → sign = [] ∨ sign = ['+'] →
        read? ('0' :: mark :: (sign ++ (List.replicate k '0' ++ ds))) =
          read? ('0' :: mark :: (sign ++ ds))) ∧
    (∀ s, ¬ "0x".toList <+: s → ¬ "0X".toList <+: s →
      ((∃ v, read? s = some v) ↔ ∃ z, IsInteger s z ∧ -2 ^ 31 ≤ z ∧ z ≤ 2 ^ 31 - 1) ∧
      ∀ v, read? s = some v ↔ IsInteger s v.toInt) ∧
    (∀ ds n k sign, IsNumeral 10 ds n → sign = [] ∨ sign = ['+'] ∨ sign = ['-'] →
      read? (sign ++ (List.replicate k '0' ++ ds)) = read? (sign ++ ds)) ∧
    (∀ v : Int32, v.toInt ≡ v.toUInt32.toNat [ZMOD 2 ^ 32] ∧ read? (decimal v) = some v ∧
      read? (pattern v) = some v ∧
      ∀ ds, IsNumeral 16 ds v.toUInt32.toNat → read? ('0' :: 'x' :: ds) = some v) ∧
    read? "0x80000000".toList = some Int32.minValue := by
  refine ⟨?_, ?_, ?_, ?_, by decide⟩
  · intro mark digits hmark
    simp only [read?_marked hmark]
    exact ⟨isSome_ofPattern?_iff, fun v => ofPattern?_eq_some_iff,
      fun c hc => ofPattern?_eq_some_iff.mp hc,
      fun ds n k sign h hsign => ofPattern?_zeros h k hsign⟩
  · intro s hx hX
    rw [read?_unmarked hx hX]
    exact ⟨isSome_ofDecimal?_iff, fun v => ofDecimal?_eq_some_iff⟩
  · exact fun ds n k sign h hsign => read?_zeros h k hsign
  · intro v
    refine ⟨toInt_modEq v, read?_decimal v, read?_pattern v, ?_⟩
    intro ds h
    exact ofPattern?_eq_some_iff.mpr ⟨ds, h, .inl rfl⟩

/-- The sign stands after the mark, and a pattern has no minus sign. -/
example : read? "0x+0fF".toList = some 255 ∧ read? "+0x1".toList = none ∧
    read? "0x-1".toList = none := by
  decide

end ConstantCatalog.BlockText.Literal
