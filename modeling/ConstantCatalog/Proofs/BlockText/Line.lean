import ConstantCatalog.BlockText.Line
import ConstantCatalog.Proofs.Text.Numeral
import ConstantCatalog.Proofs.Text.Trim

/-! # What lines say

A line is told by how it starts, and no two of the starts agree. Identifiers hold neither blanks nor
any of the signs around them, and no written literal is an identifier. -/

namespace ConstantCatalog.BlockText
set_option autoImplicit false
open Text

/-- A character that may stand after the first one of an identifier. -/
def isNameChar (c : Char) : Bool :=
  c.isAlphanum || c == '_'

theorem isUpper_iff {c : Char} : c.isUpper = true ↔ 65 ≤ c.toNat ∧ c.toNat ≤ 90 := by
  change decide ('A'.val ≤ c.val ∧ c.val ≤ 'Z'.val) = true ↔ _
  rw [decide_eq_true_iff, UInt32.le_iff_toNat_le, UInt32.le_iff_toNat_le]
  exact Iff.rfl

theorem isLower_iff {c : Char} : c.isLower = true ↔ 97 ≤ c.toNat ∧ c.toNat ≤ 122 := by
  change (decide ('a'.val ≤ c.val) && decide (c.val ≤ 'z'.val)) = true ↔ _
  rw [Bool.and_eq_true, decide_eq_true_iff, decide_eq_true_iff, UInt32.le_iff_toNat_le,
    UInt32.le_iff_toNat_le]
  exact Iff.rfl

theorem isAlpha_iff {c : Char} : c.isAlpha = true ↔
    (65 ≤ c.toNat ∧ c.toNat ≤ 90) ∨ (97 ≤ c.toNat ∧ c.toNat ≤ 122) := by
  change (c.isUpper || c.isLower) = true ↔ _
  rw [Bool.or_eq_true, isUpper_iff, isLower_iff]

theorem isNameChar_iff {c : Char} : isNameChar c = true ↔
    (65 ≤ c.toNat ∧ c.toNat ≤ 90) ∨ (97 ≤ c.toNat ∧ c.toNat ≤ 122) ∨
      (48 ≤ c.toNat ∧ c.toNat ≤ 57) ∨ c = '_' := by
  change ((c.isAlpha || c.isDigit) || c == '_') = true ↔ _
  rw [Bool.or_eq_true, Bool.or_eq_true, isAlpha_iff, Char.isDigit_iff_toNat, beq_iff_eq, or_assoc,
    or_assoc]
  exact Iff.rfl

theorem isNameChar_of_digitValue_lt {c : Char} (h : digitValue c < 36) : isNameChar c = true := by
  rw [isNameChar_iff]
  unfold digitValue at h
  split at h
  · rename_i hdigit
    exact Or.inr (Or.inr (Or.inl hdigit))
  · split at h
    · rename_i hlower
      exact Or.inr (Or.inl hlower)
    · split at h
      · rename_i hupper
        exact Or.inl hupper
      · omega

theorem isBlank_of_isNameChar {c : Char} (h : isNameChar c = true) : isBlank c = false := by
  have hrange : 48 ≤ c.toNat ∧ c.toNat ≤ 122 := by
    rcases isNameChar_iff.mp h with h | h | h | rfl
    · omega
    · omega
    · omega
    · decide
  simp only [isBlank, Bool.or_eq_false_iff, Bool.and_eq_false_iff, decide_eq_false_iff_not,
    beq_eq_false_iff_ne]
  omega

section Identifier
variable {s : List Char} (h : isIdentifier s = true)
include h

theorem ne_nil_of_isIdentifier : s ≠ [] := by
  rintro rfl
  cases h

theorem isNameChar_of_mem {c : Char} (hc : c ∈ s) : isNameChar c = true := by
  cases s with
  | nil => cases hc
  | cons d s =>
    simp only [isIdentifier, Bool.and_eq_true, List.all_eq_true] at h
    rcases List.mem_cons.mp hc with rfl | hc
    · have hstart := h.1
      simp only [Bool.or_eq_true, beq_iff_eq] at hstart
      rcases hstart with halpha | rfl
      · simp [isNameChar, Char.isAlphanum, halpha]
      · rfl
    · exact h.2 c hc

theorem notMem_of_isIdentifier {c : Char} (hc : isNameChar c = false) : c ∉ s := by
  intro hmem
  rw [isNameChar_of_mem h hmem] at hc
  cases hc

theorem isBlank_of_isIdentifier {c : Char} (hc : c ∈ s) : isBlank c = false :=
  isBlank_of_isNameChar (isNameChar_of_mem h hc)

theorem unpadded_of_isIdentifier : Unpadded s where
  head := fun _ hc => isBlank_of_isIdentifier h (List.mem_of_head? hc)
  last := fun _ hc => isBlank_of_isIdentifier h (List.mem_of_getLast? hc)

end Identifier

namespace Line

theorem ofTrimmed_comment (s : List Char) : ofTrimmed ("//".toList ++ s) = ofComment (trim s) :=
  rfl

theorem ofTrimmed_opening (s : List Char) :
    ofTrimmed ("typedef enum".toList ++ s) = .opening (nameBefore '{' s) :=
  rfl

theorem ofTrimmed_closing (s : List Char) : ofTrimmed ('}' :: s) = .closing (nameBefore ';' s) :=
  rfl

theorem ofTrimmed_declaration {s : List Char} (hne : s ≠ []) (hcomment : ¬ "//".toList <+: s)
    (hopening : ¬ "typedef enum".toList <+: s) (hclosing : ¬ ['}'] <+: s) :
    ofTrimmed s = .declaration s := by
  rw [← isPrefixOf?_eq_none_iff] at hcomment hopening hclosing
  simp only [ofTrimmed, hne, if_false, hcomment, hopening, hclosing]

theorem ofComment_tag (text : List Char) :
    ofComment ("Provided by ".toList ++ text) = .tag (.ofTag (String.ofList text)) := by
  rw [ofComment, List.isPrefixOf?_eq_some_iff_append_eq.mpr rfl]

theorem ofComment_note {comment : List Char} {d : Deprecation}
    (htag : ¬ "Provided by ".toList <+: comment) (hnote : noteIn? comment = some d) :
    ofComment comment = .note d := by
  simp only [ofComment, isPrefixOf?_eq_none_iff.mpr htag, hnote]

end Line

/-- No digit starts an identifier. -/
theorem isIdentifier_of_digitValue_lt {c : Char} (h : digitValue c < 10) (s : List Char) :
    isIdentifier (c :: s) = false := by
  have hdigit : '0' ≤ c ∧ c ≤ '9' := by
    by_contra hc
    simp only [digitValue, hc, if_false] at h
    split at h
    · omega
    · split at h <;> omega
  have hrange : 48 ≤ c.toNat ∧ c.toNat ≤ 57 := hdigit
  have halpha : ¬ c.isAlpha = true := by
    rw [isAlpha_iff]
    omega
  have hunder : c ≠ '_' := by
    rintro rfl
    exact absurd hrange (by decide)
  simp [isIdentifier, halpha, hunder]

/-- No literal is an identifier. -/
theorem isIdentifier_of_read? {text : List Char} {v : Int32} (h : Literal.read? text = some v) :
    isIdentifier text = false := by
  unfold Literal.read? at h
  split at h
  · rfl
  · rfl
  · cases text with
    | nil => rfl
    | cons c s =>
      rcases Literal.eq_or_digitValue_lt_of_ofDecimal? h c List.mem_cons_self with rfl | rfl | hlt
      · rfl
      · rfl
      · exact isIdentifier_of_digitValue_lt hlt s

inductive SaysValue (text : List Char) : RightSide → Prop
  | reference : isIdentifier text = true → SaysValue text (.reference (String.ofList text))
  | literal {v : Int32} : Literal.read? text = some v → SaysValue text (.literal v)

theorem SaysValue.ne_nil {text : List Char} {r : RightSide} (h : SaysValue text r) : text ≠ [] := by
  rintro rfl
  rcases h with hname | hvalue
  · cases hname
  · cases hvalue

/-- A right side is one word, and no comma belongs to it. -/
theorem SaysValue.isBlank_of_mem {text : List Char} {r : RightSide} (h : SaysValue text r)
    {c : Char} (hc : c ∈ text) : isBlank c = false ∧ c ≠ ',' := by
  have hword : c = '-' ∨ c = '+' ∨ isNameChar c = true := by
    rcases h with hname | hvalue
    · exact Or.inr (Or.inr (isNameChar_of_mem hname hc))
    · rcases Literal.eq_or_digitValue_lt_of_read? hvalue c hc with heq | heq | hlt
      · exact Or.inl heq
      · exact Or.inr (Or.inl heq)
      · exact Or.inr (Or.inr (isNameChar_of_digitValue_lt hlt))
  rcases hword with rfl | rfl | hchar
  · exact ⟨by decide, by decide⟩
  · exact ⟨by decide, by decide⟩
  · refine ⟨isBlank_of_isNameChar hchar, ?_⟩
    rintro rfl
    cases hchar

theorem SaysValue.unpadded {text : List Char} {r : RightSide} (h : SaysValue text r) :
    Unpadded text where
  head := fun _ hc => (h.isBlank_of_mem (List.mem_of_head? hc)).1
  last := fun _ hc => (h.isBlank_of_mem (List.mem_of_getLast? hc)).1

theorem readDeclaration_eq_ok_iff {text : List Char} {name : String} {rightSide : RightSide} :
    readDeclaration text = .ok (name, rightSide) ↔ ∃ left right,
      trim (dropEndWhile (· == ',') text) = left ++ '=' :: right ∧ '=' ∉ left ∧
      isIdentifier (trim left) = true ∧ String.ofList (trim left) = name ∧
      SaysValue (trim right) rightSide := by
  constructor
  · intro h
    simp only [readDeclaration] at h
    split at h
    · cases h
    · rename_i left right hcut
      obtain ⟨hsplit, hnot⟩ := cut?_eq_some_iff.mp hcut
      refine ⟨left, right, hsplit, hnot, ?_⟩
      split at h
      · cases h
      · rename_i hname
        refine ⟨by simpa using hname, ?_⟩
        split at h
        · rename_i hvalue
          cases h
          exact ⟨rfl, .reference hvalue⟩
        · split at h
          · rename_i v hvalue
            cases h
            exact ⟨rfl, .literal hvalue⟩
          · cases h
  · rintro ⟨left, right, hsplit, hnot, hname, rfl, hvalue⟩
    have hcut := cut?_eq_some_iff.mpr ⟨hsplit, hnot⟩
    cases hvalue with
    | reference h => simp [readDeclaration, hcut, hname, h]
    | literal h => simp [readDeclaration, hcut, hname, isIdentifier_of_read? h, h]

end ConstantCatalog.BlockText
