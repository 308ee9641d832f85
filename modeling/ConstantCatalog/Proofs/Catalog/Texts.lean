import ConstantCatalog.Proofs.BlockText.Concatenation
import ConstantCatalog.Proofs.Catalog.Load

/-! # Catalogs of texts

All texts are read before the first block is loaded, so that a text which does not read goes before
whatever is wrong with the blocks of the others. Blocks load in the order of their texts, and it
does not matter to the catalog how they are spread over texts. -/

namespace ConstantCatalog.Catalog
set_option autoImplicit false
open BlockText

variable {o : Options} {texts : List (String × String)} {blocks : List Block}

/-- Either all texts read, or the first one that does not read decides. -/
theorem readTexts_cases (texts : List (String × String)) :
    (∃ parts, List.Forall₂ (fun t blocks => read t.1 t.2 = .ok blocks) texts parts ∧
      readTexts texts = .ok parts.flatten) ∨
    ∃ before source text after line malformation, texts = before ++ (source, text) :: after ∧
      (∀ t ∈ before, ∃ blocks, read t.1 t.2 = .ok blocks) ∧
      read source text = .error (.malformed source line malformation) ∧
      readTexts texts = .error (.malformed source line malformation) := by
  induction texts with
  | nil => exact Or.inl ⟨[], .nil, rfl⟩
  | cons t texts ih =>
    obtain ⟨source, text⟩ := t
    rw [readTexts]
    cases ht : read source text with
    | error f =>
      obtain ⟨c, -, rfl⟩ := read_eq_error_iff.mp ht
      exact Or.inr ⟨[], source, text, texts, c.line, c.malformation, rfl, by simp, ht, rfl⟩
    | ok blocks =>
      rcases ih with ⟨parts, hparts, hread⟩ |
        ⟨before, source', text', after, line, malformation, rfl, hbefore, hfault, hread⟩
      · rw [hread]
        exact Or.inl ⟨blocks :: parts, .cons ht hparts, rfl⟩
      · rw [hread]
        refine Or.inr ⟨(source, text) :: before, source', text', after, line, malformation, rfl, ?_,
          hfault, rfl⟩
        exact List.forall_mem_cons.mpr ⟨⟨blocks, ht⟩, hbefore⟩

theorem ofTexts_of_ok (o : Options) (h : readTexts texts = .ok blocks) :
    ofTexts o texts = load o blocks := by
  rw [ofTexts, h, Logged.bind_of_ok rfl]
  rfl

theorem ofTexts_of_error (o : Options) {f : Fault} (h : readTexts texts = .error f) :
    ofTexts o texts = ⟨.error f, []⟩ := by
  rw [ofTexts, h, Logged.bind_of_error rfl]
  rfl

theorem readTexts_singleton (source text : String) :
    readTexts [(source, text)] = read source text := by
  rw [readTexts, readTexts]
  cases read source text with
  | error f => rfl
  | ok blocks => simp [bind, Except.bind, pure, Except.pure]

/-- The texts may as well stand one behind the other in a single one. -/
theorem readTexts_intercalate {parts : List (List Block)}
    (h : List.Forall₂ (fun t blocks => read t.1 t.2 = .ok blocks) texts parts) (source : String) :
    readTexts [(source, "\n".intercalate (texts.map (·.2)))] = .ok parts.flatten := by
  rw [readTexts_singleton, BlockText.read, String.toList_intercalate, Outcome.mapError_eq_ok,
    List.map_map]
  apply blocksOf_intercalate
  rw [List.forall₂_map_left_iff]
  exact h.imp fun t blocks ht => Outcome.mapError_eq_ok.mp ht

/-- If some text does not read, then building a catalog of the texts ends with the fault of the
first such text and reports nothing. Otherwise it is loading the blocks of all texts in their order,
and so is building a catalog of one text in which they stand one behind the other. -/
theorem ofTexts_exact (o : Options) (texts : List (String × String)) :
    ((∃ t ∈ texts, ∀ blocks, read t.1 t.2 ≠ .ok blocks) →
      ∃ before source text after line malformation, texts = before ++ (source, text) :: after ∧
        (∀ t ∈ before, ∃ blocks, read t.1 t.2 = .ok blocks) ∧
        read source text = .error (.malformed source line malformation) ∧
        ofTexts o texts = ⟨.error (.malformed source line malformation), []⟩) ∧
    ((∀ t ∈ texts, ∃ blocks, read t.1 t.2 = .ok blocks) →
      ∃ parts, List.Forall₂ (fun t blocks => read t.1 t.2 = .ok blocks) texts parts ∧
        ofTexts o texts = load o parts.flatten ∧
        ∀ source, ofTexts o [(source, "\n".intercalate (texts.map (·.2)))] =
          load o parts.flatten) := by
  rcases readTexts_cases texts with ⟨parts, hparts, hread⟩ |
    ⟨before, source, text, after, line, malformation, hsplit, hbefore, hfault, hread⟩
  · constructor
    · intro ⟨t, ht, hnone⟩
      have hall : ∀ t ∈ texts, ∃ blocks, read t.1 t.2 = .ok blocks :=
        ((List.forall₂_and_left texts parts).mp
          (hparts.imp fun _ blocks h => ⟨⟨blocks, h⟩, h⟩)).1
      obtain ⟨blocks, hblocks⟩ := hall t ht
      exact absurd hblocks (hnone blocks)
    · intro _
      exact ⟨parts, hparts, ofTexts_of_ok o hread,
        fun source => ofTexts_of_ok o (readTexts_intercalate hparts source)⟩
  · constructor
    · intro _
      exact ⟨before, source, text, after, line, malformation, hsplit, hbefore, hfault,
        ofTexts_of_error o hread⟩
    · intro hall
      obtain ⟨blocks, hblocks⟩ := hall (source, text) (by simp [hsplit])
      cases hfault.symm.trans hblocks

/-- The first two texts repeat an enumeration, whose second block has a cycle, and the third one
does not read. -/
def faultyTexts : List (String × String) :=
  [("first", ofLines ["// Provided by A".toList, openingLine "E".toList, closingLine "E".toList,
      "// Provided by B".toList]),
   ("second", ofLines ["// Provided by A".toList, openingLine "E".toList, "X = X".toList,
      closingLine "E".toList]),
   ("third", "\nX = 1")]

/-- The text that does not read goes before the repeated name. Without it the texts are as good as
one. -/
theorem ofTexts_exact_faultyTexts :
    ofTexts .full faultyTexts =
      ⟨.error (.malformed "third" 2 (.outsideBlock "X = 1")), []⟩ ∧
    ofTexts .full [("whole", "\n".intercalate ((faultyTexts.take 2).map (·.2)))] =
      ofTexts .full (faultyTexts.take 2) := by
  have hread : ∀ t ∈ faultyTexts.take 2, ∃ blocks, read t.1 t.2 = .ok blocks := by
    have hok : ∀ t ∈ faultyTexts.take 2, (read t.1 t.2).isOk := by decide +kernel
    intro t ht
    have hisOk := hok t ht
    cases h : read t.1 t.2 with
    | ok blocks => exact ⟨blocks, rfl⟩
    | error f =>
      rw [h] at hisOk
      cases hisOk
  have hthird : read "third" "\nX = 1" = .error (.malformed "third" 2 (.outsideBlock "X = 1")) := by
    decide +kernel
  constructor
  · obtain ⟨before, source, text, after, line, malformation, hsplit, -, hfault, htexts⟩ :=
      (ofTexts_exact .full faultyTexts).1
        ⟨("third", "\nX = 1"), by simp [faultyTexts], by simp [hthird]⟩
    have hmem : (source, text) ∈ faultyTexts.take 2 ++ [("third", "\nX = 1")] := by
      change (source, text) ∈ faultyTexts
      simp [hsplit]
    rcases List.mem_append.mp hmem with hmem | hmem
    · obtain ⟨blocks, hblocks⟩ := hread _ hmem
      cases hfault.symm.trans hblocks
    · cases List.mem_singleton.mp hmem
      cases hfault.symm.trans hthird
      exact htexts
  · obtain ⟨parts, -, htexts, hwhole⟩ := (ofTexts_exact .full (faultyTexts.take 2)).2 hread
    rw [htexts, hwhole]

end ConstantCatalog.Catalog
