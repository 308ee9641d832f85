import ConstantCatalog.Proofs.Enumeration.Order

/-! # Accounts

A block resolves exactly when each of its declarations has an account that its chain bears out, and
these accounts are then all that the enumeration holds of its members, apart from where they stand.
What an edited block resolves to can thus be said by editing accounts. No index comes in, although
an edit may change the origin of every member. -/

namespace ConstantCatalog
set_option autoImplicit false

/-- The chain of the declaration ends at its canonical declaration, where its value stands. -/
def Account.HoldsIn (a : Account) (members : List Declaration) : Prop :=
  Block.Leads members a.declaration a.canonical a.value

def Enumeration.accounts (e : Enumeration) : List Account :=
  e.members.map e.account

namespace Block
variable {b : Block} {e : Enumeration}

theorem Leads.last_literal {members : List Declaration} {d last : Declaration} {value : Int32}
    (h : Leads members d last value) : last ∈ members ∧ last.rightSide = .literal value := by
  induction h with
  | literal hd hvalue => exact ⟨hd, hvalue⟩
  | reference _ _ _ _ ih => exact ih

theorem AllLead.targetsDeclared (h : b.AllLead) : b.TargetsDeclared := by
  intro d hd target htarget
  obtain ⟨last, value, hleads⟩ := h d hd
  cases hleads with
  | literal _ hvalue => cases hvalue.symm.trans htarget
  | reference _ ht htarget' _ =>
    exact ⟨_, ht, RightSide.reference.inj (htarget'.symm.trans htarget)⟩

theorem declarations_accounts (h : b.resolve = .ok e) :
    e.accounts.map (·.declaration) = b.members := by
  rw [← (resolves_of_resolve h).declarations, Enumeration.accounts, List.map_map]
  rfl

theorem holdsIn_of_resolve (h : b.resolve = .ok e) {a : Account} (ha : a ∈ e.accounts) :
    a.HoldsIn b.members := by
  obtain ⟨m, hm, rfl⟩ := List.mem_map.mp ha
  exact leads_of_resolve h hm

/-- Where names are distinct, a declaration has one account at most. -/
theorem accounts_unique (hn : b.NamesDistinct) {accounts accounts' : List Account}
    (hdeclaration : accounts.map (·.declaration) = accounts'.map (·.declaration))
    (h : ∀ a ∈ accounts, a.HoldsIn b.members) (h' : ∀ a ∈ accounts', a.HoldsIn b.members) :
    accounts = accounts' := by
  induction accounts generalizing accounts' with
  | nil => exact (List.map_eq_nil_iff.mp hdeclaration.symm).symm
  | cons a accounts ih =>
    obtain ⟨a', rest, rfl, ha', hrest⟩ := List.map_eq_cons_iff.mp hdeclaration.symm
    obtain ⟨hhead, htail⟩ := List.forall_mem_cons.mp h
    obtain ⟨hhead', htail'⟩ := List.forall_mem_cons.mp h'
    rw [Account.HoldsIn, ha'] at hhead'
    obtain ⟨hcanonical, hvalue⟩ := hhead.unique hn hhead'
    have hsame : a = a' := by
      cases a
      cases a'
      simp_all
    rw [hsame, ih hrest.symm htail htail']

/-- A block resolves to the accounts that its chains bear out. -/
theorem resolve_accounts_iff {accounts : List Account} :
    (∃ e, b.resolve = .ok e ∧ e.accounts = accounts) ↔ b.NamesDistinct ∧
      accounts.map (·.declaration) = b.members ∧ ∀ a ∈ accounts, a.HoldsIn b.members := by
  constructor
  · intro ⟨e, he, haccounts⟩
    rw [← haccounts]
    exact ⟨(resolve_eq_ok_iff.mp he).1, declarations_accounts he, fun a => holdsIn_of_resolve he⟩
  · intro ⟨hn, hdeclaration, hholds⟩
    have hleads : b.AllLead := by
      intro d hd
      rw [← hdeclaration] at hd
      obtain ⟨a, ha, rfl⟩ := List.mem_map.mp hd
      exact ⟨_, _, hholds a ha⟩
    obtain ⟨e, he⟩ := isOk_resolve_iff_allLead.mpr ⟨hn, hleads.targetsDeclared, hleads⟩
    refine ⟨e, he, accounts_unique hn ?_ (fun a => holdsIn_of_resolve he) hholds⟩
    rw [declarations_accounts he, hdeclaration]

end Block

end ConstantCatalog
