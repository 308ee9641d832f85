import ConstantCatalog.Proofs.Block.Diagnosis

/-! # Chains of declarations

Where the aliases of a block lead, said of its declarations and not of their indices. Nothing but
membership is used, so that neither the order of the members nor further members change a chain.
How resolving a block ends is decided by its names, its targets and its chains, in this order. -/

namespace ConstantCatalog.Block
set_option autoImplicit false

/-- Following alias targets among the members from one declaration ends at another one, where the
literal stands. -/
inductive Leads (members : List Declaration) : Declaration → Declaration → Int32 → Prop where
  | literal {d : Declaration} {value : Int32} :
      d ∈ members → d.rightSide = .literal value → Leads members d d value
  | reference {d t last : Declaration} {value : Int32} :
      d ∈ members → t ∈ members → d.rightSide = .reference t.name →
      Leads members t last value → Leads members d last value

namespace Leads
variable {members members' : List Declaration} {d last last' : Declaration} {value value' : Int32}

theorem mono (h : Leads members d last value) (hsub : members ⊆ members') :
    Leads members' d last value := by
  induction h with
  | literal hd hvalue => exact .literal (hsub hd) hvalue
  | reference hd ht htarget _ ih => exact .reference (hsub hd) (hsub ht) htarget ih

/-- Where names are distinct, a chain has one end. -/
theorem unique (hn : (members.map (·.name)).Nodup) (h : Leads members d last value)
    (h' : Leads members d last' value') : last = last' ∧ value = value' := by
  -- The second chain takes each step of the first one, as only one member has the target's name.
  induction h with
  | literal _ hvalue =>
    cases h' with
    | literal _ hvalue' => exact ⟨rfl, RightSide.literal.inj (hvalue.symm.trans hvalue')⟩
    | reference _ _ htarget' _ => cases hvalue.symm.trans htarget'
  | reference _ ht htarget _ ih =>
    cases h' with
    | literal _ hvalue' => cases htarget.symm.trans hvalue'
    | reference _ ht' htarget' h' =>
      have hname := RightSide.reference.inj (htarget.symm.trans htarget')
      obtain rfl := List.inj_on_of_nodup_map hn ht ht' hname
      exact ih h'

end Leads

variable {b b' : Block}

theorem EndsAt.leads {i j : Fin b.members.length} {value : Int32} (h : b.EndsAt i j value) :
    Leads b.members (b.members.get i) (b.members.get j) value := by
  obtain ⟨hreach, hliteral⟩ := h
  induction hreach using Relation.ReflTransGen.head_induction_on with
  | refl => exact .literal (List.get_mem ..) hliteral
  | head hij _ ih => exact .reference (List.get_mem ..) (List.get_mem ..) hij ih

theorem Leads.exists_endsAt {d last : Declaration} {value : Int32}
    (h : Leads b.members d last value) {i : Fin b.members.length} (hi : b.members.get i = d) :
    ∃ j, b.EndsAt i j value := by
  induction h generalizing i with
  | literal _ hvalue => exact ⟨i, .refl, hi ▸ hvalue⟩
  | reference _ ht htarget _ ih =>
    obtain ⟨k, hk⟩ := List.mem_iff_get.mp ht
    obtain ⟨j, hreach, hliteral⟩ := ih hk
    have hik : b.Refers i k := by rw [Refers, hi, hk, htarget]
    exact ⟨j, .head hik hreach, hliteral⟩

def AllLead (b : Block) : Prop :=
  ∀ d ∈ b.members, ∃ last value, Leads b.members d last value

theorem allLead_iff : b.AllLead ↔ ∀ i, ∃ j value, b.EndsAt i j value := by
  constructor
  · intro h i
    obtain ⟨last, value, hleads⟩ := h _ (List.get_mem ..)
    obtain ⟨j, hj⟩ := hleads.exists_endsAt rfl
    exact ⟨j, value, hj⟩
  · intro h d hd
    obtain ⟨i, rfl⟩ := List.mem_iff_get.mp hd
    obtain ⟨j, value, hj⟩ := h i
    exact ⟨_, value, hj.leads⟩

theorem isOk_resolve_iff_allLead :
    (∃ e, b.resolve = .ok e) ↔ b.NamesDistinct ∧ b.TargetsDeclared ∧ b.AllLead := by
  rw [isOk_resolve_iff, allLead_iff]

/-! ## How resolving ends -/

inductive Ending where
  | resolved
  | repeatedMember
  | danglingAlias
  | aliasCycle
  deriving DecidableEq

def ending? : Except Fault Enumeration → Option Ending
  | .ok _ => some .resolved
  | .error (.repeatedMember ..) => some .repeatedMember
  | .error (.danglingAlias ..) => some .danglingAlias
  | .error (.aliasCycle ..) => some .aliasCycle
  | .error _ => none

/-- What decides how resolving a block ends. -/
inductive EndsIn (b : Block) : Ending → Prop where
  | repeatedMember : ¬ b.NamesDistinct → EndsIn b .repeatedMember
  | danglingAlias : b.NamesDistinct → ¬ b.TargetsDeclared → EndsIn b .danglingAlias
  | aliasCycle : b.NamesDistinct → b.TargetsDeclared → ¬ b.AllLead → EndsIn b .aliasCycle
  | resolved : b.NamesDistinct → b.TargetsDeclared → b.AllLead → EndsIn b .resolved

theorem endsIn_of_diagnosis {f : Fault} (h : b.Diagnosis f) :
    ∃ k, ending? (.error f) = some k ∧ b.EndsIn k := by
  cases h with
  | repeatedMember hi =>
    refine ⟨_, rfl, .repeatedMember ?_⟩
    exact fun hn => namesDistinct_iff.mp hn _ hi.1
  | danglingAlias hn hi _ =>
    refine ⟨_, rfl, .danglingAlias hn ?_⟩
    exact fun ht => targetsDeclared_iff_not_danglesAt.mp ht _ hi.1
  | aliasCycle hn ht hi _ =>
    refine ⟨_, rfl, .aliasCycle hn ht ?_⟩
    intro hl
    obtain ⟨j, value, hj⟩ := allLead_iff.mp hl _
    exact hi.1 j value hj

theorem exists_ending_resolve (b : Block) : ∃ k, ending? b.resolve = some k ∧ b.EndsIn k := by
  cases hresolve : b.resolve with
  | ok e =>
    obtain ⟨hn, ht, hl⟩ := isOk_resolve_iff_allLead.mp ⟨e, hresolve⟩
    exact ⟨_, rfl, .resolved hn ht hl⟩
  | error f => exact endsIn_of_diagnosis (diagnosis_of_resolve hresolve)

theorem EndsIn.unique {k k' : Ending} (h : b.EndsIn k) (h' : b.EndsIn k') : k = k' := by
  cases h <;> cases h' <;> first | rfl | contradiction

/-! ## The order of the members -/

section Perm
variable (h : b.members.Perm b'.members)
include h

theorem namesDistinct_perm : b.NamesDistinct ↔ b'.NamesDistinct :=
  (h.map _).nodup_iff

theorem targetsDeclared_perm : b.TargetsDeclared ↔ b'.TargetsDeclared := by
  simp only [TargetsDeclared, h.mem_iff]

theorem leads_perm {d last : Declaration} {value : Int32} :
    Leads b.members d last value ↔ Leads b'.members d last value :=
  ⟨fun hleads => hleads.mono h.subset, fun hleads => hleads.mono h.symm.subset⟩

theorem allLead_perm : b.AllLead ↔ b'.AllLead := by
  simp only [AllLead, leads_perm h, h.mem_iff]

theorem EndsIn.perm {ending : Ending} (hends : b.EndsIn ending) : b'.EndsIn ending := by
  cases hends with
  | repeatedMember hn => exact .repeatedMember ((namesDistinct_perm h).not.mp hn)
  | danglingAlias hn ht =>
    exact .danglingAlias ((namesDistinct_perm h).mp hn) ((targetsDeclared_perm h).not.mp ht)
  | aliasCycle hn ht hl =>
    exact .aliasCycle ((namesDistinct_perm h).mp hn) ((targetsDeclared_perm h).mp ht)
      ((allLead_perm h).not.mp hl)
  | resolved hn ht hl =>
    exact .resolved ((namesDistinct_perm h).mp hn) ((targetsDeclared_perm h).mp ht)
      ((allLead_perm h).mp hl)

end Perm

end ConstantCatalog.Block
