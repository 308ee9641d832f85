import Mathlib.Data.List.InsertIdx
import ConstantCatalog.Proofs.Block.Accounts

/-! # Inserted declarations

A block that resolves may be given one more declaration at any place, as long as its name is new and
it refers to no member that is not there. No chain of the block runs over the new name, so that all
accounts stay as they were. The new one starts at its literal, or continues with the chain of its
target. -/

namespace ConstantCatalog
set_option autoImplicit false

def Block.insertIdx (b : Block) (i : Nat) (d : Declaration) : Block :=
  { b with members := b.members.insertIdx i d }

/-- What a new declaration comes to beside the members of an enumeration. -/
inductive Enumeration.Adds (e : Enumeration) (d : Declaration) : Account → Prop where
  | literal {value : Int32} : d.rightSide = .literal value → Adds e d ⟨d, value, d⟩
  | reference {m : Constant} : m ∈ e.members → d.rightSide = .reference m.name →
      Adds e d ⟨d, m.value, (e.canonical m).toDeclaration⟩

namespace Block
variable {b : Block} {e : Enumeration} {i : Nat} {d : Declaration} {a : Account}

theorem exists_adds (h : b.resolve = .ok e)
    (htarget : ∀ target, d.rightSide = .reference target → ∃ m ∈ b.members, m.name = target) :
    ∃ a, e.Adds d a := by
  cases hright : d.rightSide with
  | literal value => exact ⟨_, .literal hright⟩
  | reference target =>
    obtain ⟨t, ht, rfl⟩ := htarget target hright
    obtain ⟨m, hm, rfl⟩ := (mem_members_iff h).mp ht
    exact ⟨_, .reference hm hright⟩

theorem declaration_of_adds (ha : e.Adds d a) : a.declaration = d := by
  cases ha with
  | literal _ => rfl
  | reference _ _ => rfl

theorem subset_insertIdx (b : Block) (i : Nat) (d : Declaration) :
    b.members ⊆ (b.insertIdx i d).members :=
  List.subset_insertIdx b.members i d

section Insert
variable (h : b.resolve = .ok e) (hi : i ≤ b.members.length)
include h hi

theorem namesDistinct_insertIdx (hfresh : ∀ m ∈ b.members, m.name ≠ d.name) :
    (b.insertIdx i d).NamesDistinct := by
  have hperm : (b.insertIdx i d).members.Perm (d :: b.members) := List.perm_insertIdx d b.members hi
  rw [NamesDistinct, (hperm.map _).nodup_iff, List.map_cons, List.nodup_cons]
  refine ⟨?_, (resolve_eq_ok_iff.mp h).1⟩
  intro hmem
  obtain ⟨m, hm, hname⟩ := List.mem_map.mp hmem
  exact hfresh m hm hname

theorem holdsIn_of_adds (ha : e.Adds d a) : a.HoldsIn (b.insertIdx i d).members := by
  have hd : d ∈ (b.insertIdx i d).members := (List.mem_insertIdx hi).mpr (.inl rfl)
  have hsub := subset_insertIdx b i d
  cases ha with
  | literal hvalue => exact .literal hd hvalue
  | reference hm hright =>
    have htarget := (mem_members_iff h).mpr ⟨_, hm, rfl⟩
    exact .reference hd (hsub htarget) hright ((leads_of_resolve h hm).mono hsub)

theorem resolve_insertIdx_accounts (hfresh : ∀ m ∈ b.members, m.name ≠ d.name)
    (ha : e.Adds d a) : ∃ e', (b.insertIdx i d).resolve = .ok e' ∧
      e'.accounts = e.accounts.insertIdx i a := by
  have hlength : e.accounts.length = b.members.length := by
    rw [← declarations_accounts h, List.length_map]
  apply resolve_accounts_iff.mpr
  refine ⟨namesDistinct_insertIdx h hi hfresh, ?_, ?_⟩
  · rw [List.map_insertIdx, declarations_accounts h, declaration_of_adds ha, insertIdx]
  · intro a' ha'
    rcases (List.mem_insertIdx (hlength ▸ hi)).mp ha' with rfl | hold
    · exact holdsIn_of_adds h hi ha
    · exact (holdsIn_of_resolve h hold).mono (subset_insertIdx b i d)

end Insert

/-- A block that resolves also resolves with one more declaration at any place, if its name is new
and its target, if any, is a member. The accounts of the old members are the same in the same order,
and their lookups find and report the same. The new member has its literal, or the value and the
canonical member of its target. -/
theorem resolve_insertIdx (h : b.resolve = .ok e) (hi : i ≤ b.members.length)
    (hfresh : ∀ m ∈ b.members, m.name ≠ d.name)
    (htarget : ∀ target, d.rightSide = .reference target → ∃ m ∈ b.members, m.name = target) :
    ∃ e' a, (b.insertIdx i d).resolve = .ok e' ∧ e.Adds d a ∧
      e'.name = e.name ∧ e'.availability = e.availability ∧
      e'.accounts = e.accounts.insertIdx i a ∧
      ∀ o name, e.contains name = true → e'.told o name = e.told o name := by
  obtain ⟨a, ha⟩ := exists_adds h htarget
  obtain ⟨e', he', haccounts⟩ := resolve_insertIdx_accounts h hi hfresh ha
  have hres := resolves_of_resolve h
  have hres' := resolves_of_resolve he'
  refine ⟨e', a, he', ha, hres'.name.trans hres.name.symm,
    hres'.availability.trans hres.availability.symm, haccounts, ?_⟩
  intro o name hcontains
  have hsound := sound_of_resolve h
  obtain ⟨m, hm, hname⟩ := List.mem_map.mp (hsound.contains_iff.mp hcontains)
  have hwithin := within_of_subset h he' (subset_insertIdx b i d)
  exact hwithin.told_eq_of_member hsound (sound_of_resolve he')
    (hsound.member_eq_ok.mpr ⟨hm, hname⟩)

/-- An alias of the first member of the longest chain. -/
def latestAlias : Declaration :=
  ⟨"LATEST", .reference "NEWEST", ⟨"VK_B"⟩, .unexplained⟩

/-- Before the first literal the alias moves every origin by one. -/
theorem resolve_insertIdx_sharedValues :
    ∃ e' a, (Catalog.sharedValues.insertIdx 2 latestAlias).resolve = .ok e' ∧
      e'.members.map (·.origin) = [5, 3, 5, 3, 5, 5] ∧
      Catalog.sharedEnumeration.Adds latestAlias a ∧
      e'.accounts = Catalog.sharedEnumeration.accounts.insertIdx 2 a ∧
      ∀ o, e'.told o "NEWEST" = Catalog.sharedEnumeration.told o "NEWEST" := by
  have hresolve : (Catalog.sharedValues.insertIdx 2 latestAlias).resolve =
      .ok ⟨"Shared", ⟨"VK_A"⟩, List.zipWith (fun d index => ⟨d, 7, index⟩)
        (Catalog.sharedValues.members.insertIdx 2 latestAlias) [5, 3, 5, 3, 5, 5],
        .ofEntries [("NEWEST", 0), ("OTHER", 1), ("LATEST", 2), ("FIRST", 3), ("NEW", 4),
          ("SECOND", 5)]⟩ := by
    decide +kernel
  have htarget : ∀ target, latestAlias.rightSide = .reference target →
      ∃ m ∈ Catalog.sharedValues.members, m.name = target := by
    intro target htarget
    cases htarget
    exact ⟨_, List.mem_cons_self, rfl⟩
  obtain ⟨e', a, he', ha, -, -, haccounts, htold⟩ :=
    resolve_insertIdx (i := 2) Catalog.resolve_sharedValues (by decide) (by decide) htarget
  obtain rfl := Except.ok.inj (hresolve.symm.trans he')
  exact ⟨_, a, hresolve, rfl, ha, haccounts, fun o => htold o "NEWEST" (by decide +kernel)⟩

end Block

end ConstantCatalog
