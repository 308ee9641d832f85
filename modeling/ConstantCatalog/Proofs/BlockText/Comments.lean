import ConstantCatalog.Proofs.BlockText.Grammar

/-! # What comments say

A comment is a tag, a note or neither, and a tag is no note whatever it goes on to say. Of several
comments in a row the last tag and the last note count. -/

namespace ConstantCatalog.BlockText
set_option autoImplicit false
open Text

def tagOf? (s : List Char) : Option Availability :=
  ("//".toList.isPrefixOf? s).bind fun body =>
    ("Provided by ".toList.isPrefixOf? (trim body)).map fun text => .ofTag (String.ofList text)

/-- How a comment marks the next member; a tag marks nothing. -/
def noteOf? (s : List Char) : Option Deprecation :=
  ("//".toList.isPrefixOf? s).bind fun body =>
    if "Provided by ".toList <+: trim body then none
    else if "is a deprecated alias".toList <:+: trim body then some .renamed
    else if "is deprecated".toList <:+: trim body then some .unexplained
    else none

def lastTag? (comments : List (List Char)) : Option Availability :=
  (comments.filterMap tagOf?).getLast?

def lastNote? (comments : List (List Char)) : Option Deprecation :=
  (comments.filterMap noteOf?).getLast?

theorem tagOf?_comment (body : List Char) : tagOf? ("//".toList ++ body) =
    ("Provided by ".toList.isPrefixOf? (trim body)).map fun text => .ofTag (String.ofList text) :=
  rfl

theorem noteOf?_comment (body : List Char) : noteOf? ("//".toList ++ body) =
    if "Provided by ".toList <+: trim body then none else Line.noteIn? (trim body) := by
  have hbody : noteOf? ("//".toList ++ body) = if "Provided by ".toList <+: trim body then none
      else if "is a deprecated alias".toList <:+: trim body then some .renamed
      else if "is deprecated".toList <:+: trim body then some .unexplained
      else none := rfl
  rw [hbody, Line.noteIn?]
  simp only [occursIn_iff]

theorem isSome_tagOf?_iff {s : List Char} : (tagOf? s).isSome = true ↔ IsTag s := by
  constructor
  · intro h
    obtain ⟨a, ha⟩ := Option.isSome_iff_exists.mp h
    obtain ⟨body, hbody, htext⟩ := Option.bind_eq_some_iff.mp ha
    obtain ⟨text, hprefix, -⟩ := Option.map_eq_some_iff.mp htext
    refine ⟨body, (List.isPrefixOf?_eq_some_iff_append_eq.mp hbody).symm, text, ?_⟩
    exact List.isPrefixOf?_eq_some_iff_append_eq.mp hprefix
  · intro ⟨body, hbody, text, htext⟩
    rw [hbody, tagOf?_comment, List.isPrefixOf?_eq_some_iff_append_eq.mpr htext]
    rfl

/-- A comment says one thing at most. -/
theorem IsComment.cases {s : List Char} (h : IsComment s) :
    (∃ a, tagOf? s = some a ∧ noteOf? s = none ∧ Line.ofTrimmed s = .tag a) ∨
    (∃ d, tagOf? s = none ∧ noteOf? s = some d ∧ Line.ofTrimmed s = .note d) ∨
    (tagOf? s = none ∧ noteOf? s = none ∧ Line.ofTrimmed s = .remark) := by
  obtain ⟨body, rfl⟩ := h
  rw [Line.ofTrimmed_comment, tagOf?_comment, noteOf?_comment]
  by_cases htag : "Provided by ".toList <+: trim body
  · obtain ⟨text, htext⟩ := htag
    apply Or.inl
    refine ⟨.ofTag (String.ofList text), ?_, ?_, ?_⟩
    · rw [List.isPrefixOf?_eq_some_iff_append_eq.mpr htext]
      rfl
    · rw [if_pos ⟨text, htext⟩]
    · rw [← htext, Line.ofComment_tag]
  · have hnone := isPrefixOf?_eq_none_iff.mpr htag
    rw [hnone, if_neg htag]
    apply Or.inr
    cases hnote : Line.noteIn? (trim body) with
    | some d => exact Or.inl ⟨d, rfl, rfl, Line.ofComment_note htag hnote⟩
    | none =>
      refine Or.inr ⟨rfl, rfl, ?_⟩
      simp only [Line.ofComment, hnone, hnote]

/-! ## Several comments -/

theorem getLast?_filterMap_cons {α β : Type} (f : α → Option β) (x : α) (xs : List α) :
    ((x :: xs).filterMap f).getLast? = ((xs.filterMap f).getLast?).or (f x) := by
  cases hx : f x with
  | none => simp [hx]
  | some y =>
    rw [List.filterMap_cons_some hx, List.getLast?_cons]
    cases (xs.filterMap f).getLast? with
    | none => rfl
    | some z => rfl

theorem lastTag?_cons (s : List Char) (comments : List (List Char)) :
    lastTag? (s :: comments) = (lastTag? comments).or (tagOf? s) :=
  getLast?_filterMap_cons tagOf? s comments

theorem lastNote?_cons (s : List Char) (comments : List (List Char)) :
    lastNote? (s :: comments) = (lastNote? comments).or (noteOf? s) :=
  getLast?_filterMap_cons noteOf? s comments

theorem isSome_lastTag?_iff {comments : List (List Char)} :
    (lastTag? comments).isSome = true ↔ ∃ s ∈ comments, IsTag s := by
  induction comments with
  | nil => simp [lastTag?]
  | cons s comments ih =>
    rw [lastTag?_cons, Option.isSome_or, Bool.or_eq_true, ih, isSome_tagOf?_iff,
      List.exists_mem_cons_iff, or_comm]

end ConstantCatalog.BlockText
