import ConstantCatalog.Proofs.Alias.Progress
import ConstantCatalog.Proofs.Block.Resolution

/-! # The walks through a block

What holds while the aliases of a block are resolved, said of its members by their names: between
two walks, and wherever a walk has come to. Names have to be distinct and targets declared, and
chains may close. The walks end on every such block, and they come to the last member exactly when
the block resolves. -/

namespace ConstantCatalog.Block
set_option autoImplicit false
open Alias

variable {b : Block} {g : Graph b.members.length} {k : Nat}

/-- Between two walks nothing is active, what is settled is right, and the members walked from have
one origin each, in order. -/
structure BetweenWalks (b : Block) (k : Nat) (marks : Marks b.members.length)
    (origins : List (Origin b.members.length)) : Prop where
  quiet : ∀ i : Fin b.members.length, marks.get i ≠ .active
  right : ∀ (i : Fin b.members.length) (o : Origin b.members.length), marks.get i = .settled o →
    b.EndsAt i o.index o.value
  length : origins.length = k
  settled : ∀ i : Fin b.members.length, i.val < k →
    ∃ o, origins[i.val]? = some o ∧ marks.get i = .settled o

/-- During a walk the active members are those on the path, which goes from alias to target without
coming back and leads to where the walk is. What is settled is right. -/
structure DuringWalk (b : Block) (w : Walk b.members.length) : Prop where
  active : ∀ i : Fin b.members.length, w.marks.get i = .active ↔ i ∈ w.path
  nodup : w.path.Nodup
  follows : (w.path ++ [w.current]).IsChain b.Refers
  right : ∀ (i : Fin b.members.length) (o : Origin b.members.length), w.marks.get i = .settled o →
    b.EndsAt i o.index o.value

/-- What the next step of a walk comes to: one fresh member fewer, or the end of the walk, which
tells a loop by the place of the member on the path. -/
structure Advances (g : Graph b.members.length) (w : Walk b.members.length) : Prop where
  fewer : ∀ next, w.step g = .follow next → next.freshCount < w.freshCount
  found : w.marks.get w.current = .active → ∃ j, w.path.findIdx? (· == w.current) = some j ∧
    w.step g = .loop (w.path.drop j ++ [w.current])
  bounded : ∀ ws, (w :: ws).IsChain (Walk.Follows g) → ws.length ≤ w.freshCount
  ends : ∃ last, Relation.ReflTransGen (Walk.Follows g) w last ∧
    ((∃ origin marks, last.step g = .arrive origin marks ∧
        w.run g = .ok (origin, marks.settle last.path origin)) ∨
      ∃ chain, last.step g = .loop chain ∧ w.run g = .error chain)

theorem betweenWalks_of_reached (hn : b.NamesDistinct) (hg : b.graph = .ok g)
    {marks : Marks b.members.length} {origins : List (Origin b.members.length)}
    (h : Reached g k marks origins) : b.BetweenWalks k marks origins where
  quiet := h.sound.quiet
  right := fun i o hi => (graph_endsAt_iff hg hn).mp (h.sound.origin i o hi)
  length := h.settled.1
  settled := h.settled.2

theorem duringWalk_of_sound (hn : b.NamesDistinct) (hg : b.graph = .ok g)
    {start : Fin b.members.length} {w : Walk b.members.length} (h : w.Sound g start) :
    b.DuringWalk w where
  active := h.active
  nodup := h.nodup
  follows := graph_refers_eq hg hn ▸ h.follows
  right := fun i o hi => (graph_endsAt_iff hg hn).mp (h.origin i o hi)

theorem advances_of_sound {start : Fin b.members.length} {w : Walk b.members.length}
    (h : w.Sound g start) : Advances g w where
  fewer := fun _ => Walk.freshCount_lt_of_follow
  found := h.exists_index
  bounded := fun _ => Walk.length_le_freshCount
  ends := Walk.exists_last g w

theorem isOk_resolve_iff_reached (hn : b.NamesDistinct) (hg : b.graph = .ok g) :
    (∃ e, b.resolve = .ok e) ↔ ∃ marks origins, Reached g b.members.length marks origins := by
  simp only [resolve_eq_ok_iff]
  constructor
  · rintro ⟨e, -, g', hg', origins, ho, -⟩
    rw [hg] at hg'
    cases hg'
    obtain ⟨marks, h⟩ := Graph.origins_eq_ok_iff.mp ho
    exact ⟨marks, origins, h⟩
  · rintro ⟨marks, origins, h⟩
    exact ⟨_, hn, g, hg, origins, h.origins_eq_ok, rfl⟩

/-- The invariants of the walks, that they end, and what has come of them in the end. -/
theorem walks_exact (hn : b.NamesDistinct) (ht : b.TargetsDeclared) : ∃ g, b.graph = .ok g ∧
    (∀ k marks origins, Reached g k marks origins → b.BetweenWalks k marks origins ∧
      ∀ (hk : k < b.members.length) (w : Walk b.members.length),
        Relation.ReflTransGen (Walk.Follows g) (.begin marks ⟨k, hk⟩) w →
          b.DuringWalk w ∧ Advances g w) ∧
    ((∃ e, b.resolve = .ok e) ↔ ∃ marks origins, Reached g b.members.length marks origins) ∧
    (∀ origins, g.origins = .ok origins ↔
      ∃ marks, Reached g b.members.length marks origins) ∧
    (∀ chain, g.origins = .error chain ↔ ∃ (k : Nat) (hk : k < b.members.length)
      (marks : Marks b.members.length) (origins : List (Origin b.members.length)),
        Reached g k marks origins ∧ (Walk.begin marks ⟨k, hk⟩).run g = .error chain) ∧
    ∀ marks origins, Reached g b.members.length marks origins →
      origins.length = b.members.length ∧ ∀ i : Fin b.members.length,
        ∃ o, origins[i.val]? = some o ∧ marks.get i = .settled o ∧ b.EndsAt i o.index o.value := by
  obtain ⟨g, hg⟩ := targetsDeclared_iff.mp ht
  refine ⟨g, hg, ?_, isOk_resolve_iff_reached hn hg, fun _ => Graph.origins_eq_ok_iff,
    fun _ => Graph.origins_eq_error_iff, ?_⟩
  · intro k marks origins h
    refine ⟨betweenWalks_of_reached hn hg h, ?_⟩
    intro hk w hw
    have hsound := (Walk.sound_begin h.sound ⟨k, hk⟩).of_follows hw
    exact ⟨duringWalk_of_sound hn hg hsound, advances_of_sound hsound⟩
  · intro marks origins h
    have hbetween := betweenWalks_of_reached hn hg h
    refine ⟨hbetween.length, ?_⟩
    intro i
    obtain ⟨o, ho, hmark⟩ := hbetween.settled i i.isLt
    exact ⟨o, ho, hmark, hbetween.right i o hmark⟩

/-- Two chains that meet before they come to the literal. -/
def meetingChains : Block :=
  ⟨"Meeting", ⟨"VK_A"⟩,
    [⟨"FIRST", .reference "SHARED", ⟨"VK_A"⟩, .absent⟩,
     ⟨"SHARED", .reference "END", ⟨"VK_A"⟩, .absent⟩,
     ⟨"END", .literal 7, ⟨"VK_A"⟩, .absent⟩,
     ⟨"LAST", .reference "SHARED", ⟨"VK_A"⟩, .absent⟩]⟩

theorem walks_meetingChains : ∃ g : Graph 4, meetingChains.graph = .ok g ∧
    ∃ marks origins, Reached g 4 marks origins ∧ origins.length = 4 ∧
      ∀ i : Fin 4, ∃ o, origins[i.val]? = some o ∧ marks.get i = .settled o ∧
        meetingChains.EndsAt i o.index o.value := by
  have hn : meetingChains.NamesDistinct := by
    unfold NamesDistinct
    decide
  have ht : meetingChains.TargetsDeclared := by
    simp [TargetsDeclared, meetingChains]
  have hresolve : (meetingChains.resolve).isOk = true := by decide +kernel
  obtain ⟨g, hg, -, hok, -, -, hdone⟩ := walks_exact hn ht
  cases hr : meetingChains.resolve with
  | error f =>
    rw [hr] at hresolve
    cases hresolve
  | ok e =>
    obtain ⟨marks, origins, hreached⟩ := hok.mp ⟨e, hr⟩
    obtain ⟨hlength, hsettled⟩ := hdone marks origins hreached
    exact ⟨g, hg, marks, origins, hreached, hlength, hsettled⟩

end ConstantCatalog.Block
