import Mathlib.Data.List.Chain
import Mathlib.Data.List.Nodup
import Mathlib.Logic.Relator
import ConstantCatalog.Alias.Graph

/-! # Loops of references

A walk that follows references without end runs into a loop: it has a lead, which it passes once,
and then goes round. The description is that of any relation with at most one successor, and nothing
here says how a loop is found. In an alias graph a member that runs into a loop has no origin. -/

namespace ConstantCatalog.Alias
set_option autoImplicit false

universe u
variable {α : Type u} {r : α → α → Prop} {start entry : α} {lead rest : List α}

/-- From `start` the relation leads through `lead` to `entry`, the first element that comes twice,
and from there through `rest` back to it. -/
structure EntersLoop (r : α → α → Prop) (start : α) (lead : List α) (entry : α)
    (rest : List α) : Prop where
  starts : (lead ++ [entry]).head? = some start
  nodup : (lead ++ entry :: rest).Nodup
  follows : (lead ++ entry :: rest ++ [entry]).IsChain r

/-- Two chains from one start, of a relation with at most one successor, differ in length only. -/
theorem prefix_or_prefix_of_isChain (hr : Relator.RightUnique r) {xs ys : List α}
    (hx : xs.IsChain r) (hy : ys.IsChain r) (hs : xs.head? = ys.head?) : xs <+: ys ∨ ys <+: xs := by
  induction xs generalizing ys with
  | nil => exact Or.inl List.nil_prefix
  | cons x xs ih =>
    cases ys with
    | nil => exact Or.inr List.nil_prefix
    | cons y ys =>
      obtain rfl : x = y := by simpa using hs
      cases xs with
      | nil => exact Or.inl (by simp)
      | cons x' xs =>
        cases ys with
        | nil => exact Or.inr (by simp)
        | cons y' ys =>
          rw [List.isChain_cons_cons] at hx hy
          have heq : x' = y' := hr hx.1 hy.1
          have := ih hx.2 hy.2 (by simp [heq])
          simpa only [List.prefix_cons_inj] using this

namespace EntersLoop

theorem head?_path (h : EntersLoop r start lead entry rest) :
    (lead ++ entry :: rest ++ [entry]).head? = some start := by
  have hs := h.starts
  cases lead <;> simpa using hs

theorem start_mem (h : EntersLoop r start lead entry rest) : start ∈ lead ++ entry :: rest := by
  have hs := h.starts
  cases lead <;> simp_all

/-- Every element of the lead and the loop leads to the next one, and the last one to the entry. -/
theorem rel_head (h : EntersLoop r start lead entry rest) {before after : List α} {a : α}
    (heq : lead ++ entry :: rest = before ++ a :: after) : r a (after.head?.getD entry) := by
  have hchain := h.follows
  rw [heq, List.append_assoc, List.cons_append, List.isChain_split] at hchain
  cases after with
  | nil => simpa using hchain.2
  | cons b after => exact (List.isChain_cons_cons.mp hchain.2).1

theorem exists_rel (h : EntersLoop r start lead entry rest) {a : α}
    (ha : a ∈ lead ++ entry :: rest) : ∃ b ∈ lead ++ entry :: rest, r a b := by
  obtain ⟨before, after, heq⟩ := List.append_of_mem ha
  refine ⟨_, ?_, h.rel_head heq⟩
  cases after with
  | nil => simp
  | cons b after => rw [heq]; simp

/-- No successor of an element lies outside the lead and the loop. -/
theorem mem_of_rel (hr : Relator.RightUnique r) (h : EntersLoop r start lead entry rest) {a b : α}
    (ha : a ∈ lead ++ entry :: rest) (hab : r a b) : b ∈ lead ++ entry :: rest := by
  obtain ⟨c, hc, hac⟩ := h.exists_rel ha
  rwa [hr hab hac]

theorem mem_of_reflTransGen (hr : Relator.RightUnique r) (h : EntersLoop r start lead entry rest)
    {a : α} (ha : Relation.ReflTransGen r start a) : a ∈ lead ++ entry :: rest := by
  induction ha with
  | refl => exact h.start_mem
  | tail _ hab ih => exact h.mem_of_rel hr ih hab

/-- An element that leads to itself is all there is of the loop. -/
theorem eq_of_rel_self (hr : Relator.RightUnique r) (h : EntersLoop r start lead entry rest) {a : α}
    (ha : a ∈ lead ++ entry :: rest) (haa : r a a) : entry = a ∧ rest = [] := by
  obtain ⟨before, after, heq⟩ := List.append_of_mem ha
  have hn := h.nodup
  have hnext : after.head?.getD entry = a := hr (h.rel_head heq) haa
  cases after with
  | nil =>
    obtain rfl : entry = a := hnext
    have hmem : entry ∉ lead ∧ entry ∉ rest := by
      simpa [not_or] using (List.nodup_middle.mp hn).notMem
    have := (List.append_cons_inj_of_notMem hmem.1 hmem.2).mp heq
    exact ⟨rfl, this.2.2⟩
  | cons b after =>
    obtain rfl : b = a := hnext
    rw [heq] at hn
    simp [List.nodup_append] at hn

private theorem not_prefix_init {lead' rest' : List α} {entry' : α}
    (h' : (lead' ++ entry' :: rest').Nodup) :
    ¬ lead ++ entry :: rest ++ [entry] <+: lead' ++ entry' :: rest' := by
  intro hp
  have hn := h'.sublist hp.sublist
  simp [List.nodup_append] at hn

/-- There is only one way to run into a loop. -/
theorem unique (hr : Relator.RightUnique r) {lead' rest' : List α} {entry' : α}
    (h : EntersLoop r start lead entry rest) (h' : EntersLoop r start lead' entry' rest') :
    lead = lead' ∧ entry = entry' ∧ rest = rest' := by
  have hpath : lead ++ entry :: rest ++ [entry] = lead' ++ entry' :: rest' ++ [entry'] := by
    rcases prefix_or_prefix_of_isChain hr h.follows h'.follows
      (h.head?_path.trans h'.head?_path.symm) with hp | hp
    · exact (List.prefix_concat_iff.mp hp).resolve_right (not_prefix_init h'.nodup)
    · exact ((List.prefix_concat_iff.mp hp).resolve_right (not_prefix_init h.nodup)).symm
  obtain ⟨hinit, hlast⟩ := List.append_inj' hpath rfl
  obtain rfl : entry = entry' := by simpa using hlast
  have hmem : entry ∉ lead ∧ entry ∉ rest := by
    simpa [not_or] using (List.nodup_middle.mp h.nodup).notMem
  have := (List.append_cons_inj_of_notMem hmem.1 hmem.2).mp hinit
  exact ⟨this.1, rfl, this.2.2⟩

end EntersLoop

variable {n : Nat} {g : Graph n}

def Refers (g : Graph n) (i j : Fin n) : Prop := g i = .reference j

theorem refers_rightUnique (g : Graph n) : Relator.RightUnique (Refers g) := by
  intro i j k hj hk
  exact Edge.reference.inj (hj.symm.trans hk)

theorem EntersLoop.not_endsAt {start entry : Fin n} {lead rest : List (Fin n)}
    (h : EntersLoop (Refers g) start lead entry rest) (origin : Origin n) :
    ¬ EndsAt g start origin := by
  have go : ∀ {i}, EndsAt g i origin → i ∉ lead ++ entry :: rest := by
    intro i hi
    induction hi with
    | literal hv =>
      intro hmem
      obtain ⟨j, -, hj⟩ := h.exists_rel hmem
      cases hv.symm.trans hj
    | reference hj _ ih => exact fun hmem => ih (h.mem_of_rel (refers_rightUnique g) hmem hj)
  exact fun hs => go hs h.start_mem

end ConstantCatalog.Alias
