import ConstantCatalog.Proofs.Block.Chains
import ConstantCatalog.Proofs.Catalog.Lookup

/-! # The order of declarations

Two enumerations are compared by their accounts of members, which say nothing of indices. A block
whose members are among those of another one gives the same accounts of them, since its chains are
chains of the other block. Blocks with the same members in another order thus agree on all lookups,
although every origin may be another index. -/

namespace ConstantCatalog
set_option autoImplicit false

/-- What an enumeration holds of a member, apart from where it stands. -/
structure Account where
  declaration : Declaration
  value : Int32
  /-- The declaration whose literal the value is. -/
  canonical : Declaration
  deriving DecidableEq

namespace Enumeration

def account (e : Enumeration) (m : Constant) : Account :=
  ⟨m.toDeclaration, m.value, (e.canonical m).toDeclaration⟩

/-- The account of the member of the given name, with the warning for its use. -/
def told (e : Enumeration) (o : Options) (name : String) : Logged Account :=
  e.account <$> e.access o name

/-- Every account of the one enumeration is one of the other. -/
def Within (e e' : Enumeration) : Prop :=
  ∀ m ∈ e.members, ∃ m' ∈ e'.members, e'.account m' = e.account m

variable {e e' : Enumeration} {m m' : Constant} {name : String} {o : Options}

theorem account_eq_iff : e'.account m' = e.account m ↔ m'.toDeclaration = m.toDeclaration ∧
    m'.value = m.value ∧ (e'.canonical m').toDeclaration = (e.canonical m).toDeclaration := by
  simp [account]

theorem notice?_congr (h : e'.account m' = e.account m) : e'.notice? m' = e.notice? m := by
  obtain ⟨hdeclaration, -, hcanonical⟩ := account_eq_iff.mp h
  rw [notice?, notice?, hdeclaration, hcanonical]

theorem access_of_member (h : e.member name = .ok m) :
    e.access o name = ⟨.ok m, e.useEvents o m⟩ := by
  rw [access, h, Logged.bind_of_ok rfl, Logged.bind_of_ok rfl]
  simp

theorem access_of_member_eq_error {f : Fault} (h : e.member name = .error f) :
    e.access o name = ⟨.error f, []⟩ := by
  rw [access, h]
  rfl

theorem told_of_member (h : e.member name = .ok m) :
    e.told o name = ⟨.ok (e.account m), e.useEvents o m⟩ := by
  rw [told, access_of_member h, Logged.map_ok]

theorem told_of_member_eq_error {f : Fault} (h : e.member name = .error f) :
    e.told o name = ⟨.error f, []⟩ := by
  rw [told, access_of_member_eq_error h, Logged.map_error]

namespace Within

theorem names_subset (h : e.Within e') : e.members.map (·.name) ⊆ e'.members.map (·.name) := by
  intro name hname
  obtain ⟨m, hm, rfl⟩ := List.mem_map.mp hname
  obtain ⟨m', hm', haccount⟩ := h m hm
  obtain ⟨hdeclaration, -⟩ := account_eq_iff.mp haccount
  exact List.mem_map.mpr ⟨m', hm', by rw [hdeclaration]⟩

theorem told_eq_of_member (h : e.Within e') (hsound : e.Sound) (hsound' : e'.Sound)
    (hmember : e.member name = .ok m) : e'.told o name = e.told o name := by
  obtain ⟨hm, rfl⟩ := hsound.member_eq_ok.mp hmember
  obtain ⟨m', hm', haccount⟩ := h m hm
  obtain ⟨hdeclaration, -⟩ := account_eq_iff.mp haccount
  have hmember' : e'.member m.name = .ok m' := by
    rw [hsound'.member_eq_ok, hdeclaration]
    exact ⟨hm', rfl⟩
  rw [told_of_member hmember, told_of_member hmember', haccount, useEvents, useEvents,
    notice?_congr haccount]

theorem mem_withValue (h : e.Within e') {value : Int32}
    (hname : name ∈ (e.withValue value).map (·.name)) :
    name ∈ (e'.withValue value).map (·.name) := by
  obtain ⟨m, hvalued, rfl⟩ := List.mem_map.mp hname
  obtain ⟨hm, rfl⟩ := Enumeration.mem_withValue.mp hvalued
  obtain ⟨m', hm', haccount⟩ := h m hm
  obtain ⟨hdeclaration, hvalue, -⟩ := account_eq_iff.mp haccount
  exact List.mem_map.mpr ⟨m', Enumeration.mem_withValue.mpr ⟨hm', hvalue⟩, by rw [hdeclaration]⟩

end Within

theorem Sound.nodup_withValue (h : e.Sound) (value : Int32) :
    ((e.withValue value).map (·.name)).Nodup :=
  ((e.withValue_sublist value).map _).nodup h.names_nodup

/-- Enumerations that hold the same of their members answer alike. -/
theorem agree_of_within (hname : e'.name = e.name) (hsound : e.Sound) (hsound' : e'.Sound)
    (h : e.Within e') (h' : e'.Within e) :
    (∀ name, e'.contains name = e.contains name) ∧
    (∀ o name, e'.told o name = e.told o name) ∧
    ∀ value, ((e'.withValue value).map (·.name)).Perm ((e.withValue value).map (·.name)) := by
  have hnames : ∀ name, name ∈ e'.members.map (·.name) ↔ name ∈ e.members.map (·.name) :=
    fun name => ⟨fun hmem => h'.names_subset hmem, fun hmem => h.names_subset hmem⟩
  refine ⟨?_, ?_, ?_⟩
  · intro name
    rw [Bool.eq_iff_iff, hsound.contains_iff, hsound'.contains_iff, hnames]
  · intro o name
    cases hmember : e.member name with
    | ok m => exact h.told_eq_of_member hsound hsound' hmember
    | error f =>
      have hmember' : e'.member name = .error f := by
        rwa [hsound'.member_eq_error_iff, hname, hnames, ← hsound.member_eq_error_iff]
      rw [told_of_member_eq_error hmember, told_of_member_eq_error hmember']
  · intro value
    rw [List.perm_ext_iff_of_nodup (hsound'.nodup_withValue value) (hsound.nodup_withValue value)]
    exact fun name => ⟨h'.mem_withValue, h.mem_withValue⟩

end Enumeration

namespace Block
variable {b b' : Block} {e e' : Enumeration}

/-- The chain of a member leads to its canonical member and its value. -/
theorem leads_of_resolve (h : b.resolve = .ok e) {m : Constant} (hm : m ∈ e.members) :
    Leads b.members m.toDeclaration (e.canonical m).toDeclaration m.value := by
  have hres := resolves_of_resolve h
  obtain ⟨i, j, hi, hj, hend⟩ := hres.exists_endsAt hm
  have hcanonical := (sound_of_resolve h).getElem?_origin hm
  rw [hj] at hcanonical
  rw [← hres.declaration_eq hi, ← hres.declaration_eq hcanonical]
  exact hend.leads

theorem mem_members_iff (h : b.resolve = .ok e) {d : Declaration} :
    d ∈ b.members ↔ ∃ m ∈ e.members, m.toDeclaration = d := by
  rw [← (resolves_of_resolve h).declarations, List.mem_map]

/-- Further declarations and another order change no account. -/
theorem within_of_subset (h : b.resolve = .ok e) (h' : b'.resolve = .ok e')
    (hsub : b.members ⊆ b'.members) : e.Within e' := by
  intro m hm
  have hmem := hsub ((mem_members_iff h).mpr ⟨m, hm, rfl⟩)
  obtain ⟨m', hm', hdeclaration⟩ := (mem_members_iff h').mp hmem
  have hleads' := leads_of_resolve h' hm'
  rw [hdeclaration] at hleads'
  -- Now both chains start at the same declaration and run in the larger block.
  have hleads := (leads_of_resolve h hm).mono hsub
  obtain ⟨hcanonical, hvalue⟩ := hleads'.unique (resolve_eq_ok_iff.mp h').1 hleads
  exact ⟨m', hm', Enumeration.account_eq_iff.mpr ⟨hdeclaration, hvalue, hcanonical⟩⟩

/-- The order of the declarations does not matter to how resolving ends, nor to any lookup in what
it resolves to. The members with a value have the same names, in the order of the declarations. -/
theorem resolve_perm {members : List Declaration} (hperm : members.Perm b.members) :
    (∃ ending, ending? b.resolve = some ending ∧
      ending? { b with members := members }.resolve = some ending) ∧
    ∀ e e', b.resolve = .ok e → { b with members := members }.resolve = .ok e' →
      (∀ name, e'.contains name = e.contains name) ∧
      (∀ o name, e'.told o name = e.told o name) ∧
      ∀ value, ((e'.withValue value).map (·.name)).Perm ((e.withValue value).map (·.name)) := by
  constructor
  · obtain ⟨ending, hending, h⟩ := exists_ending_resolve b
    obtain ⟨ending', hending', h'⟩ := exists_ending_resolve { b with members := members }
    obtain rfl : ending = ending' := (h.perm hperm.symm).unique h'
    exact ⟨ending, hending, hending'⟩
  · intro e e' he he'
    apply Enumeration.agree_of_within _ (sound_of_resolve he) (sound_of_resolve he')
      (within_of_subset he he' hperm.symm.subset) (within_of_subset he' he hperm.subset)
    rw [(resolves_of_resolve he).name, (resolves_of_resolve he').name]

/-- Back to front, the longest chain ends at the first member and no more at the last. -/
theorem resolve_perm_sharedValues :
    ∃ e', { Catalog.sharedValues with members := Catalog.sharedValues.members.reverse }.resolve =
        .ok e' ∧
      Catalog.sharedEnumeration.members.map (·.origin) = [4, 2, 2, 4, 4] ∧
      e'.members.map (·.origin) = [0, 0, 2, 2, 0] ∧
      (∀ o name, e'.told o name = Catalog.sharedEnumeration.told o name) ∧
      ((e'.withValue 7).map (·.name)).Perm
        ((Catalog.sharedEnumeration.withValue 7).map (·.name)) := by
  have he : Catalog.sharedValues.resolve = .ok Catalog.sharedEnumeration := by decide +kernel
  have he' : { Catalog.sharedValues with
      members := Catalog.sharedValues.members.reverse }.resolve =
        .ok ⟨"Shared", ⟨"VK_A"⟩, List.zipWith (fun d index => ⟨d, 7, index⟩)
          Catalog.sharedValues.members.reverse [0, 0, 2, 2, 0],
          .ofEntries [("SECOND", 0), ("NEW", 1), ("FIRST", 2), ("OTHER", 3), ("NEWEST", 4)]⟩ := by
    decide +kernel
  obtain ⟨-, htold, hvalue⟩ :=
    (resolve_perm (List.reverse_perm Catalog.sharedValues.members)).2 _ _ he he'
  exact ⟨_, he', rfl, rfl, htold, hvalue 7⟩

end Block

end ConstantCatalog
