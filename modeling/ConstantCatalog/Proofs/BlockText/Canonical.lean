import ConstantCatalog.Proofs.BlockText.Acceptance
import ConstantCatalog.Proofs.BlockText.RoundTrip

/-! # Canonical text

Whatever the reader accepts, its blocks can be written: names are identifiers, and a tag is never
empty. The reader keeps this from line to line, and the canonical text of what it has read therefore
reads as the same blocks. The text that was read may look quite different. -/

namespace ConstantCatalog.BlockText
set_option autoImplicit false
open Text

/-! ## Tags -/

/-- Something follows the words that begin a tag. -/
theorem trim_ne_nil_of_tag {body text : List Char} (h : "Provided by ".toList ++ text = trim body) :
    trim text ≠ [] := by
  intro hnil
  have hblank := trim_eq_nil_iff.mp hnil
  -- Of the whole comment at least the blank before `text` would be no part.
  have hall : ∀ c ∈ ' ' :: text, isBlank c = true := List.forall_mem_cons.mpr ⟨rfl, hblank⟩
  have hwords : "Provided by ".toList ++ text = "Provided by".toList ++ ' ' :: text := by simp
  have hself : trim (trim body) = trim body := (unpadded_trim body).trim_eq
  have hword : trim "Provided by".toList = "Provided by".toList := by decide
  rw [← h, hwords, trim_append_of_all hall, hword] at hself
  simp at hself

theorem Line.exists_of_ofTrimmed_eq_tag {s : List Char} {a : Availability}
    (h : Line.ofTrimmed s = .tag a) : ∃ body text, "//".toList ++ body = s ∧
      "Provided by ".toList ++ text = trim body ∧ .ofTag (String.ofList text) = a := by
  simp only [ofTrimmed] at h
  split at h
  · cases h
  · split at h
    · rename_i body hbody
      rw [ofComment] at h
      split at h
      · rename_i text htext
        cases h
        exact ⟨body, text, List.isPrefixOf?_eq_some_iff_append_eq.mp hbody,
          List.isPrefixOf?_eq_some_iff_append_eq.mp htext, rfl⟩
      · split at h <;> cases h
    · split at h
      · cases h
      · split at h <;> cases h

theorem writable_of_tag {line : List Char} {a : Availability} (hfeed : '\n' ∉ line)
    (h : Line.ofText line = .tag a) : a.Writable := by
  obtain ⟨body, text, hbody, htext, rfl⟩ := Line.exists_of_ofTrimmed_eq_tag h
  have hwithin : trim text <:+: line := calc
    trim text <:+: text := isInfix_trim text
    text <:+: trim body := htext ▸ (List.suffix_append _ _).isInfix
    trim body <:+: body := isInfix_trim body
    body <:+: trim line := hbody ▸ (List.suffix_append _ _).isInfix
    trim line <:+: line := isInfix_trim line
  refine ⟨?_, ?_, ?_⟩
  · simpa [Availability.ofTag] using trim_ne_nil_of_tag htext
  · simp [Availability.ofTag, (unpadded_trim text).trim_eq]
  · simpa [Availability.ofTag] using fun hmem => hfeed (hwithin.subset hmem)

/-! ## The reader -/

theorem SaysValue.writable {text : List Char} {r : RightSide} (h : SaysValue text r) :
    r.Writable := by
  cases h with
  | reference hname => rwa [RightSide.Writable, String.toList_ofList]
  | literal hvalue => trivial

namespace Mode

def Writable : Mode → Prop
  | outside pending => ∀ a ∈ pending, a.Writable
  | inside block _ pending _ => block.Writable ∧ ∀ a ∈ pending, a.Writable

variable {m next last : Mode} {number : Nat} {completed : Option Block} {blocks : List Block}

theorem Writable.tag (hm : m.Writable) {a : Availability} (ha : a.Writable) :
    (m.tag a).Writable := by
  have hpending : ∀ a' ∈ some a, a'.Writable := by
    rintro a' ⟨⟩
    exact ha
  cases m with
  | outside pending => exact hpending
  | inside b openedAt pending d => exact ⟨hm.1, hpending⟩

theorem Writable.opening (hm : m.Writable) {name : List Char}
    (h : m.opening number name = .ok next) : next.Writable := by
  cases m with
  | inside b openedAt pending d => cases h
  | outside pending =>
    obtain ⟨hname, a, rfl, rfl⟩ := outside_opening_eq_ok_iff.mp h
    refine ⟨⟨?_, hm a rfl, List.forall_mem_nil _⟩, nofun⟩
    rwa [String.toList_ofList]

theorem Writable.closing (hm : m.Writable) {name : List Char} {b : Block}
    (h : m.closing name = .ok b) : b.Writable := by
  cases m with
  | outside pending => cases h
  | inside b' openedAt pending d =>
    rw [Mode.closing] at h
    split at h
    · cases h
      exact hm.1
    · cases h

theorem Writable.declaration (hm : m.Writable) {text : List Char}
    (h : m.declaration text = .ok next) : next.Writable := by
  cases m with
  | outside pending => cases h
  | inside b openedAt pending d =>
    obtain ⟨⟨hname, ha, hmembers⟩, hpending⟩ := hm
    obtain ⟨⟨name, rightSide⟩, hread, hnext⟩ := Outcome.bind_eq_ok.mp h
    obtain ⟨left, right, -, -, hleft, rfl, hright⟩ := readDeclaration_eq_ok_iff.mp hread
    cases hnext
    have havailability : (pending.getD b.availability).Writable := by
      cases pending with
      | none => exact ha
      | some a => exact hpending a rfl
    refine ⟨⟨hname, ha, ?_⟩, nofun⟩
    apply List.forall_mem_append.mpr ⟨hmembers, List.forall_mem_singleton.mpr _⟩
    exact ⟨by rwa [String.toList_ofList], hright.writable, havailability⟩

theorem Writable.step (hm : m.Writable) {line : Line} (htag : ∀ a, line = .tag a → a.Writable)
    (h : m.step number line = .ok (completed, next)) :
    (∀ b ∈ completed, b.Writable) ∧ next.Writable := by
  cases line with
  | blank =>
    cases h
    exact ⟨nofun, hm⟩
  | remark =>
    cases h
    exact ⟨nofun, hm⟩
  | tag a =>
    cases h
    exact ⟨nofun, hm.tag (htag a rfl)⟩
  | note d =>
    cases h
    cases m with
    | outside pending => exact ⟨nofun, hm⟩
    | inside b openedAt pending d' => exact ⟨nofun, hm⟩
  | opening name =>
    obtain ⟨next', hopening, hresult⟩ := Outcome.map_eq_ok.mp h
    cases hresult
    exact ⟨nofun, hm.opening hopening⟩
  | closing name =>
    obtain ⟨b, hclosing, hresult⟩ := Outcome.map_eq_ok.mp h
    cases hresult
    refine ⟨?_, nofun⟩
    rintro b' ⟨⟩
    exact hm.closing hclosing
  | declaration text =>
    obtain ⟨next', hdeclaration, hresult⟩ := Outcome.map_eq_ok.mp h
    cases hresult
    exact ⟨nofun, hm.declaration hdeclaration⟩

theorem Writable.after (hm : m.Writable) {texts : List (List Char)}
    (hfeed : ∀ l ∈ texts, '\n' ∉ l) (h : m.after number texts = .ok (blocks, last)) :
    ∀ b ∈ blocks, b.Writable := by
  induction texts generalizing m number blocks with
  | nil =>
    cases h
    exact List.forall_mem_nil _
  | cons text texts ih =>
    obtain ⟨htext, htexts⟩ := List.forall_mem_cons.mp hfeed
    obtain ⟨completed, next, tail, hstep, htail, rfl⟩ := after_cons_eq_ok_iff.mp h
    obtain ⟨hcompleted, hnext⟩ := hm.step (fun a ha => writable_of_tag htext ha) hstep
    apply List.forall_mem_append.mpr ⟨?_, ih hnext htexts htail⟩
    simpa using hcompleted

end Mode

theorem writable_of_read {source text : String} {blocks : List Block}
    (h : read source text = .ok blocks) : ∀ b ∈ blocks, b.Writable := by
  obtain ⟨pending, hafter⟩ := read_eq_ok_iff.mp h
  have hstart : Mode.start.Writable := nofun
  exact hstart.after notMem_of_mem_lines hafter

/-- The blocks of every text that reads can be written, and their canonical text reads as the same
blocks again. -/
theorem read_canonical {source text : String} {blocks : List Block}
    (h : read source text = .ok blocks) :
    (∀ b ∈ blocks, b.Writable ∧ .ofTag b.availability.tag = b.availability ∧
      ∀ d ∈ b.members, .ofTag d.availability.tag = d.availability) ∧
    ∀ source', read source' (canonical blocks) = .ok blocks := by
  have hwritable := writable_of_read h
  constructor
  · intro b hb
    obtain ⟨hname, ha, hmembers⟩ := hwritable b hb
    exact ⟨⟨hname, ha, hmembers⟩, ha.ofTag_tag, fun d hd => (hmembers d hd).availability.ofTag_tag⟩
  · intro source'
    exact read_print source' _ blocks hwritable

/-- A text with a carriage return within its tag, a comment that looks like a tag, and more or fewer
blanks and marks than the writer would make. -/
def untidy : String :=
  String.ofList ("//Provided by  A\rB\u00A0\n// Provided by\ntypedef enumE\u2003".toList ++
    ['{', '{'] ++ "\r\n// is deprecated\nX=0xFFFFFFFF,,\n\nY =X\n".toList ++ ['}', 'E'])

def tidied : List Block :=
  [⟨"E", ⟨"A\rB"⟩, [⟨"X", .literal (-1), ⟨"A\rB"⟩, .unexplained⟩,
    ⟨"Y", .reference "X", ⟨"A\rB"⟩, .absent⟩]⟩]

theorem read_canonical_untidy : read "source" untidy = .ok tidied ∧
    canonical tidied = ofLines ["// Provided by A\rB".toList, openingLine "E".toList,
      "// Provided by A\rB".toList, "// X is deprecated".toList, "X = -1,".toList,
      "// Provided by A\rB".toList, "Y = X,".toList, closingLine "E".toList] ∧
    read "canonical" (canonical tidied) = .ok tidied := by
  have hread : read "source" untidy = .ok tidied := by decide +kernel
  exact ⟨hread, by decide +kernel, (read_canonical hread).2 "canonical"⟩

end ConstantCatalog.BlockText
