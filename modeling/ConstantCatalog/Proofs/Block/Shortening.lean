import ConstantCatalog.Proofs.Block.Accounts

/-! # Shortened chains

Any choice of the aliases of a block may refer straight to their canonical members. The chain of a
member then takes some of its former steps and perhaps one that skips the rest, so that it ends
where it did, and no cycle can come up. The names stand where they stood, and what lookups find and
report is the same. -/

namespace ConstantCatalog
set_option autoImplicit false

namespace Enumeration

/-- The declaration with its canonical member for its target, if it is a chosen alias. -/
def shorten (e : Enumeration) (chosen : Declaration → Bool) (d : Declaration) : Declaration :=
  match d.rightSide, e.member d.name with
  | .reference _, .ok m =>
    if chosen d then { d with rightSide := .reference (e.canonical m).name } else d
  | _, _ => d

variable {e : Enumeration} {chosen : Declaration → Bool} {d : Declaration}

theorem shorten_of_literal {value : Int32} (h : d.rightSide = .literal value) :
    e.shorten chosen d = d := by
  simp only [shorten, h]

theorem shorten_eq_or (e : Enumeration) (chosen : Declaration → Bool) (d : Declaration) :
    e.shorten chosen d = d ∨ ∃ m target, e.member d.name = .ok m ∧
      d.rightSide = .reference target ∧
      e.shorten chosen d = { d with rightSide := .reference (e.canonical m).name } := by
  cases hright : d.rightSide with
  | literal value => exact .inl (shorten_of_literal hright)
  | reference target =>
    cases hmember : e.member d.name with
    | error f =>
      apply Or.inl
      simp only [shorten, hright, hmember]
    | ok m =>
      by_cases hchosen : chosen d = true
      · apply Or.inr
        refine ⟨m, target, rfl, rfl, ?_⟩
        simp only [shorten, hright, hmember, hchosen, if_true]
      · apply Or.inl
        simp only [shorten, hright, hmember, if_neg hchosen]

/-- Nothing but the target changes, and an alias stays an alias. -/
theorem shorten_fields (e : Enumeration) (chosen : Declaration → Bool) (d : Declaration) :
    (e.shorten chosen d).name = d.name ∧ (e.shorten chosen d).availability = d.availability ∧
      (e.shorten chosen d).deprecation = d.deprecation ∧
      (e.shorten chosen d).rightSide.isReference = d.rightSide.isReference := by
  rcases e.shorten_eq_or chosen d with h | ⟨m, target, -, hright, h⟩
  · rw [h]
    exact ⟨rfl, rfl, rfl, rfl⟩
  · rw [h, hright]
    exact ⟨rfl, rfl, rfl, rfl⟩

theorem shorten_name (e : Enumeration) (chosen : Declaration → Bool) (d : Declaration) :
    (e.shorten chosen d).name = d.name :=
  (e.shorten_fields chosen d).1

end Enumeration

namespace Block
variable {b : Block} {e : Enumeration}

def shorten (b : Block) (e : Enumeration) (chosen : Declaration → Bool) : Block :=
  { b with members := b.members.map (e.shorten chosen) }

theorem names_shorten (b : Block) (e : Enumeration) (chosen : Declaration → Bool) :
    (b.shorten e chosen).members.map (·.name) = b.members.map (·.name) := by
  rw [shorten, List.map_map]
  exact List.map_congr_left fun d _ => e.shorten_name chosen d

theorem Leads.shorten (h : b.resolve = .ok e) {d last : Declaration} {value : Int32}
    (hleads : Leads b.members d last value) (chosen : Declaration → Bool) :
    Leads (b.shorten e chosen).members (e.shorten chosen d) last value := by
  have hmem : ∀ {t}, t ∈ b.members → e.shorten chosen t ∈ (b.shorten e chosen).members :=
    fun ht => List.mem_map_of_mem ht
  induction hleads with
  | literal hd hvalue =>
    have hsame := hmem hd
    rw [Enumeration.shorten_of_literal hvalue] at hsame ⊢
    exact .literal hsame hvalue
  | @reference d t last value hd ht htarget hrest ih =>
    rcases e.shorten_eq_or chosen d with hkept | ⟨m, target, hmember, -, hshort⟩
    · have hsame := hmem hd
      rw [hkept] at hsame ⊢
      exact .reference hsame (hmem ht) (by rw [e.shorten_name chosen t, htarget]) ih
    · -- The target is now the end of the chain, which is a literal and was not edited.
      obtain ⟨m', hm', rfl⟩ := (mem_members_iff h).mp hd
      obtain ⟨hm, hname⟩ := (sound_of_resolve h).member_eq_ok.mp hmember
      obtain rfl := (sound_of_resolve h).eq_of_name hm hm' hname
      obtain ⟨hcanonical, -⟩ :=
        (leads_of_resolve h hm).unique (resolve_eq_ok_iff.mp h).1 (.reference hd ht htarget hrest)
      obtain ⟨hlast, hliteral⟩ := hrest.last_literal
      have hend := hmem hlast
      rw [Enumeration.shorten_of_literal hliteral] at hend
      have hedge := hmem hd
      rw [hshort] at hedge ⊢
      exact .reference hedge hend (by rw [hcanonical]) (.literal hend hliteral)

/-- The accounts of a shortened block are those of the block with their targets edited. -/
theorem resolve_shorten_accounts (h : b.resolve = .ok e) (chosen : Declaration → Bool) :
    ∃ e', (b.shorten e chosen).resolve = .ok e' ∧ e'.accounts = e.accounts.map fun a =>
      { a with declaration := e.shorten chosen a.declaration } := by
  apply resolve_accounts_iff.mpr
  refine ⟨?_, ?_, ?_⟩
  · rw [NamesDistinct, names_shorten]
    exact (resolve_eq_ok_iff.mp h).1
  · rw [shorten, ← declarations_accounts h, List.map_map, List.map_map]
    rfl
  · intro a' ha'
    obtain ⟨a, ha, rfl⟩ := List.mem_map.mp ha'
    exact (holdsIn_of_resolve h ha).shorten h chosen

end Block

namespace Enumeration
variable {e e' : Enumeration} {m m' : Constant}

/-- Where the names stand in the same order, canonical members with the same declaration and value
are the same altogether. -/
theorem Sound.canonical_eq (h : e.Sound) (h' : e'.Sound)
    (hnames : e'.members.map (·.name) = e.members.map (·.name)) (hm : m ∈ e.members)
    (hm' : m' ∈ e'.members) (hvalue : m'.value = m.value)
    (hdeclaration : (e'.canonical m').toDeclaration = (e.canonical m).toDeclaration) :
    e'.canonical m' = e.canonical m := by
  obtain ⟨hcanonical, hcvalue⟩ := h.canonical_mem hm
  obtain ⟨hcanonical', hcvalue'⟩ := h'.canonical_mem hm'
  obtain ⟨hmem, halias⟩ := mem_canonicalMembers.mp hcanonical
  obtain ⟨hmem', halias'⟩ := mem_canonicalMembers.mp hcanonical'
  have hself := h.getElem?_origin hmem
  have hself' := h'.getElem?_origin hmem'
  rw [(h.canonical_eq_self_iff hmem).mpr halias] at hself
  rw [(h'.canonical_eq_self_iff hmem').mpr halias'] at hself'
  generalize e.canonical m = t at *
  generalize e'.canonical m' = t' at *
  have hname' : (e.members[t'.origin]?).map (·.name) = some t.name := by
    rw [← List.getElem?_map, ← hnames, List.getElem?_map, hself', Option.map_some, hdeclaration]
  have horigin : t'.origin = t.origin :=
    index_unique h.names_nodup hname' (by rw [hself, Option.map_some])
  cases t
  cases t'
  simp_all

section Shortened
variable {chosen : Declaration → Bool}
variable (haccounts : e'.accounts = e.accounts.map fun a =>
  { a with declaration := e.shorten chosen a.declaration })
include haccounts

theorem names_of_shortened : e'.members.map (·.name) = e.members.map (·.name) := by
  have hnames := congrArg (List.map (·.declaration.name)) haccounts
  rw [accounts, accounts, List.map_map, List.map_map, List.map_map] at hnames
  exact hnames.trans (List.map_congr_left fun m _ => e.shorten_name chosen m.toDeclaration)

theorem exists_shortened (hm : m ∈ e.members) : ∃ m' ∈ e'.members,
    m'.toDeclaration = e.shorten chosen m.toDeclaration ∧ m'.value = m.value ∧
      (e'.canonical m').toDeclaration = (e.canonical m).toDeclaration := by
  have hmem : { e.account m with declaration := e.shorten chosen m.toDeclaration } ∈
      e'.accounts := by
    rw [haccounts]
    exact List.mem_map_of_mem (List.mem_map_of_mem hm)
  obtain ⟨m', hm', heq⟩ := List.mem_map.mp hmem
  exact ⟨m', hm', by simpa [account] using heq⟩

/-- Every name has its former value, canonical member and kind, with the same warnings. -/
theorem access_eq_of_shortened (h : e.Sound) (h' : e'.Sound) (hname : e'.name = e.name)
    (o : Options) (name : String) :
    (·.value) <$> e'.access o name = (·.value) <$> e.access o name ∧
    e'.canonical <$> e'.access o name = e.canonical <$> e.access o name ∧
    (·.isAlias) <$> e'.access o name = (·.isAlias) <$> e.access o name := by
  have hnames := names_of_shortened haccounts
  cases hmember : e.member name with
  | error f =>
    have hmember' : e'.member name = .error f := by
      rwa [h'.member_eq_error_iff, hname, hnames, ← h.member_eq_error_iff]
    simp only [access_of_member_eq_error hmember, access_of_member_eq_error hmember',
      Logged.map_error, and_self]
  | ok m =>
    obtain ⟨hm, rfl⟩ := h.member_eq_ok.mp hmember
    obtain ⟨m', hm', hdeclaration, hvalue, hcanonical⟩ := exists_shortened haccounts hm
    obtain ⟨hsame, -, hdeprecation, hreference⟩ := e.shorten_fields chosen m.toDeclaration
    rw [← hdeclaration] at hsame hdeprecation hreference
    have hmember' : e'.member m.name = .ok m' := h'.member_eq_ok.mpr ⟨hm', hsame⟩
    have hevents : e'.useEvents o m' = e.useEvents o m := by
      simp only [useEvents, notice?, hdeprecation, hsame, hcanonical]
    have hcanonical' := h.canonical_eq h' hnames hm hm' hvalue hcanonical
    simp only [access_of_member hmember, access_of_member hmember', Logged.map_ok, hevents,
      hvalue, hcanonical', Constant.isAlias, hreference, and_self]

end Shortened

end Enumeration

/-- Whichever aliases of a block are made to refer straight to their canonical members, the block
resolves, and every name has the value, the canonical member and the kind that it had. -/
theorem Block.resolve_shorten {b : Block} {e : Enumeration} (h : b.resolve = .ok e)
    (chosen : Declaration → Bool) : ∃ e', (b.shorten e chosen).resolve = .ok e' ∧ ∀ o name,
      (·.value) <$> e'.access o name = (·.value) <$> e.access o name ∧
      e'.canonical <$> e'.access o name = e.canonical <$> e.access o name ∧
      (·.isAlias) <$> e'.access o name = (·.isAlias) <$> e.access o name := by
  obtain ⟨e', he', haccounts⟩ := resolve_shorten_accounts h chosen
  refine ⟨e', he', fun o name => ?_⟩
  apply Enumeration.access_eq_of_shortened haccounts (sound_of_resolve h) (sound_of_resolve he')
  rw [(resolves_of_resolve he').name, (resolves_of_resolve h).name]
  rfl

/-- Only the first member of the longest chain refers to its end. -/
theorem Block.resolve_shorten_sharedValues : ∃ e',
    (Catalog.sharedValues.shorten Catalog.sharedEnumeration (·.name == "NEWEST")).resolve = .ok e' ∧
      e'.members.map (·.rightSide.text) = ["SECOND", "FIRST", "7", "SECOND", "7"] ∧
      ∀ o, e'.canonical <$> e'.access o "NEWEST" =
        Catalog.sharedEnumeration.canonical <$> Catalog.sharedEnumeration.access o "NEWEST" := by
  obtain ⟨e', he', hsame⟩ := resolve_shorten Catalog.resolve_sharedValues (·.name == "NEWEST")
  refine ⟨e', he', ?_, fun o => (hsame o "NEWEST").2.1⟩
  have htexts : (Catalog.sharedValues.shorten Catalog.sharedEnumeration
      (·.name == "NEWEST")).members.map (·.rightSide.text) =
        ["SECOND", "FIRST", "7", "SECOND", "7"] := by decide +kernel
  rw [← htexts, ← (resolves_of_resolve he').declarations, List.map_map]
  rfl

end ConstantCatalog
