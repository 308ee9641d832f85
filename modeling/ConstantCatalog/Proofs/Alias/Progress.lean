import ConstantCatalog.Proofs.Alias.Walk

/-! # Walks in progress

Everything that the walks from all members go through: the marks and origins between two walks, and
the walks that one walk becomes by following references. The invariants of both hold wherever they
are reached, a walk ends after at most as many steps as there were fresh members, and when the last
walk is over every member is settled with its origin. -/

namespace ConstantCatalog.Alias
set_option autoImplicit false

variable {n k : Nat} {g : Graph n} {marks next : Marks n} {origins : List (Origin n)}

namespace Marks
variable {i j : Fin n} {o : Origin n}

theorem get_put (marks : Marks n) (i j : Fin n) (mark : Mark n) :
    (marks.put i mark).get j = if i = j then mark else marks.get j :=
  marks.getElem_put i j mark

theorem get_settle (marks : Marks n) (path : List (Fin n)) (origin : Origin n) (j : Fin n) :
    (marks.settle path origin).get j = if j ∈ path then .settled origin else marks.get j :=
  marks.getElem_settle path origin j

/-- A mark that replaces a fresh one leaves the settled ones alone. -/
theorem settled_put (hfresh : marks.get j = .fresh) (mark : Mark n)
    (hi : marks.get i = .settled o) : (marks.put j mark).get i = .settled o := by
  have hne : j ≠ i := by
    rintro rfl
    cases hfresh.symm.trans hi
  rw [get_put, if_neg hne]
  exact hi

end Marks

namespace Walk
variable {start i : Fin n} {w last : Walk n} {o origin : Origin n}

def Follows (g : Graph n) (w next : Walk n) : Prop := w.step g = .follow next

theorem Sound.of_follows (h : w.Sound g start) (hw : Relation.ReflTransGen (Follows g) w last) :
    last.Sound g start := by
  induction hw with
  | refl => exact h
  | tail _ hs ih => exact ih.follow hs

/-- An active member is found on the path, and the loop is the path from there on. -/
theorem Sound.exists_index (h : w.Sound g start) (hactive : w.marks.get w.current = .active) :
    ∃ j, w.path.findIdx? (· == w.current) = some j ∧
      w.step g = .loop (w.path.drop j ++ [w.current]) := by
  obtain ⟨lead, rest, hpath, hlead⟩ := List.eq_append_cons_of_mem ((h.active _).mp hactive)
  have hnone : lead.findIdx? (· == w.current) = none := by
    rw [List.findIdx?_eq_none_iff]
    intro i hi
    simpa using ne_of_mem_of_not_mem hi hlead
  have hloop : w.step g = .loop (w.path.dropWhile (· ≠ w.current) ++ [w.current]) := by
    have hmark : w.marks[w.current] = .active := hactive
    unfold step
    rw [hmark]
  refine ⟨lead.length, ?_, ?_⟩
  · rw [hpath, List.findIdx?_append, hnone, List.findIdx?_cons, beq_self_eq_true]
    simp
  · rw [hloop, hpath, List.drop_left, List.dropWhile_append_of_pos]
    · simp
    · intro i hi
      simpa using ne_of_mem_of_not_mem hi hlead

/-- No walk goes on for longer than there are fresh members. -/
theorem length_le_freshCount {ws : List (Walk n)} (h : (w :: ws).IsChain (Follows g)) :
    ws.length ≤ w.freshCount := by
  induction ws generalizing w with
  | nil => exact Nat.zero_le _
  | cons next ws ih =>
    rw [List.isChain_cons_cons] at h
    have hfewer := freshCount_lt_of_follow h.1
    have hrest := ih h.2
    rw [List.length_cons]
    omega

/-- A walk comes to a last step, and what this step finds is what the walk finds. -/
theorem exists_last (g : Graph n) (w : Walk n) :
    ∃ last, Relation.ReflTransGen (Follows g) w last ∧
      ((∃ origin marks, last.step g = .arrive origin marks ∧
          w.run g = .ok (origin, marks.settle last.path origin)) ∨
        ∃ chain, last.step g = .loop chain ∧ w.run g = .error chain) := by
  induction w using Walk.run.induct g with
  | case1 w next hs ih =>
    obtain ⟨last, hreach, hlast⟩ := ih
    rw [run_of_follow hs]
    exact ⟨last, .head hs hreach, hlast⟩
  | case2 w origin marks hs => exact ⟨w, .refl, .inl ⟨origin, marks, hs, run_of_arrive hs⟩⟩
  | case3 w chain hs => exact ⟨w, .refl, .inr ⟨chain, hs, run_of_loop hs⟩⟩

theorem settled_of_arrive {marks : Marks n} (hs : w.step g = .arrive origin marks)
    (hi : w.marks.get i = .settled o) : marks.get i = .settled o := by
  rcases step_eq_arrive hs with ⟨-, rfl⟩ | ⟨hfresh, -, -, rfl⟩
  · exact hi
  · exact Marks.settled_put hfresh _ hi

theorem current_of_arrive {marks : Marks n} (hs : w.step g = .arrive origin marks) :
    marks.get w.current = .settled origin := by
  rcases step_eq_arrive hs with ⟨hm, rfl⟩ | ⟨-, -, -, rfl⟩
  · exact hm
  · rw [Marks.get_put, if_pos rfl]

theorem Sound.run_settled (h : w.Sound g start) (hr : w.run g = .ok (origin, next)) :
    (∀ (i : Fin n) (o : Origin n), w.marks.get i = .settled o → next.get i = .settled o) ∧
      ∀ i ∈ w.path ++ [w.current], next.get i = .settled origin := by
  induction w using Walk.run.induct g with
  | case1 w after hs ih =>
    obtain ⟨hkept, hpassed⟩ := ih (h.follow hs) (run_of_follow hs ▸ hr)
    obtain ⟨hfresh, target, -, rfl⟩ := step_eq_follow hs
    refine ⟨?_, fun i hi => hpassed i (List.mem_append_left _ hi)⟩
    intro i o hi
    apply hkept
    exact Marks.settled_put hfresh _ hi
  | case2 w arrived marks hs =>
    rw [run_of_arrive hs] at hr
    cases hr
    refine ⟨?_, ?_⟩
    · intro i o hi
      have hoff : i ∉ w.path := by
        intro hmem
        cases hi.symm.trans ((h.active i).mpr hmem)
      rw [Marks.get_settle, if_neg hoff]
      exact settled_of_arrive hs hi
    · intro i hi
      rw [Marks.get_settle]
      by_cases hpath : i ∈ w.path
      · rw [if_pos hpath]
      · obtain rfl : i = w.current := by simpa [hpath] using hi
        rw [if_neg hpath]
        exact current_of_arrive hs
  | case3 w chain hs =>
    rw [run_of_loop hs] at hr
    cases hr

end Walk

/-! ## From walk to walk -/

/-- The marks and the origins that there are when the walks from the first `k` members are over. -/
inductive Reached (g : Graph n) : Nat → Marks n → List (Origin n) → Prop
  | start : Reached g 0 (.replicate n .fresh) []
  | walk {k : Nat} {marks next : Marks n} {origins : List (Origin n)} {origin : Origin n}
      (hk : k < n) (before : Reached g k marks origins)
      (found : (Walk.begin marks ⟨k, hk⟩).run g = .ok (origin, next)) :
      Reached g (k + 1) next (origins ++ [origin])

namespace Reached

theorem sound (h : Reached g k marks origins) : marks.Sound g := by
  induction h with
  | start => exact Marks.sound_fresh g
  | walk hk _ found ih => exact ((Walk.sound_begin ih _).run_ok found).2

theorem settled (h : Reached g k marks origins) : origins.length = k ∧
    ∀ i : Fin n, i.val < k → ∃ o, origins[i.val]? = some o ∧ marks.get i = .settled o := by
  induction h with
  | start => exact ⟨rfl, nofun⟩
  | @walk k marks next origins origin hk before found ih =>
    obtain ⟨hlength, hsettled⟩ := ih
    obtain ⟨hkept, hpassed⟩ := (Walk.sound_begin before.sound ⟨k, hk⟩).run_settled found
    refine ⟨by simp [hlength], ?_⟩
    intro i hi
    by_cases hik : i.val < k
    · obtain ⟨o, ho, hmark⟩ := hsettled i hik
      refine ⟨o, ?_, hkept i o hmark⟩
      rw [List.getElem?_append_left (by omega), ho]
    · have heq : i.val = k := by omega
      obtain rfl : i = ⟨k, hk⟩ := Fin.ext heq
      refine ⟨origin, ?_, hpassed _ (by simp [Walk.begin])⟩
      rw [List.getElem?_append_right (by omega)]
      simp [hlength]

theorem drop_finRange (hk : k < n) :
    (List.finRange n).drop k = ⟨k, hk⟩ :: (List.finRange n).drop (k + 1) := by
  rw [List.drop_eq_getElem_cons (by simpa using hk)]
  simp

/-- What is left to be done, once the first walks are over. -/
theorem origins_eq (h : Reached g k marks origins) : g.origins =
    (originsFrom g marks ((List.finRange n).drop k)).map (origins ++ ·) := by
  induction h with
  | start =>
    rw [List.drop_zero, Graph.origins]
    cases originsFrom g _ (List.finRange n) <;> rfl
  | @walk k marks next origins origin hk before found ih =>
    rw [ih, drop_finRange hk, originsFrom, found]
    change ((originsFrom g next ((List.finRange n).drop (k + 1))).map (origin :: ·)).map
      (origins ++ ·) = _
    cases originsFrom g next ((List.finRange n).drop (k + 1)) with
    | error chain => rfl
    | ok rest => simp [Except.map]

theorem origins_eq_ok (h : Reached g n marks origins) : g.origins = .ok origins := by
  have hnil : (List.finRange n).drop n = [] := List.drop_eq_nil_of_le (by simp)
  rw [h.origins_eq, hnil, originsFrom, Except.map, List.append_nil]

theorem origins_eq_error (h : Reached g k marks origins) (hk : k < n) {chain : List (Fin n)}
    (hloop : (Walk.begin marks ⟨k, hk⟩).run g = .error chain) : g.origins = .error chain := by
  rw [h.origins_eq, drop_finRange hk, originsFrom, hloop]
  rfl

end Reached

/-- The walks go on until one of them runs into a loop. -/
theorem reached_or_loop (g : Graph n) (hk : k ≤ n) : (∃ marks origins, Reached g k marks origins) ∨
    ∃ (j : Nat) (hj : j < n) (marks : Marks n) (origins : List (Origin n)) (chain : List (Fin n)),
      Reached g j marks origins ∧ (Walk.begin marks ⟨j, hj⟩).run g = .error chain := by
  induction k with
  | zero => exact .inl ⟨_, _, .start⟩
  | succ k ih =>
    rcases ih (by omega) with ⟨marks, origins, hreached⟩ | hloop
    · cases hrun : (Walk.begin marks ⟨k, hk⟩).run g with
      | ok found => exact .inl ⟨found.2, _, .walk hk hreached hrun⟩
      | error chain => exact .inr ⟨k, hk, marks, origins, chain, hreached, hrun⟩
    · exact .inr hloop

theorem Graph.origins_eq_ok_iff : g.origins = .ok origins ↔ ∃ marks, Reached g n marks origins := by
  constructor
  · intro h
    rcases reached_or_loop g (Nat.le_refl n) with ⟨marks, found, hreached⟩ | hloop
    · have heq := hreached.origins_eq_ok
      rw [h] at heq
      cases heq
      exact ⟨marks, hreached⟩
    · obtain ⟨j, hj, marks, found, chain, hreached, hrun⟩ := hloop
      rw [hreached.origins_eq_error hj hrun] at h
      cases h
  · rintro ⟨marks, hreached⟩
    exact hreached.origins_eq_ok

theorem Graph.origins_eq_error_iff {chain : List (Fin n)} : g.origins = .error chain ↔
    ∃ (j : Nat) (hj : j < n) (marks : Marks n) (origins : List (Origin n)),
      Reached g j marks origins ∧ (Walk.begin marks ⟨j, hj⟩).run g = .error chain := by
  constructor
  · intro h
    rcases reached_or_loop g (Nat.le_refl n) with ⟨marks, found, hreached⟩ | hloop
    · rw [hreached.origins_eq_ok] at h
      cases h
    · obtain ⟨j, hj, marks, found, chain', hreached, hrun⟩ := hloop
      have heq := hreached.origins_eq_error hj hrun
      rw [h] at heq
      cases heq
      exact ⟨j, hj, marks, found, hreached, hrun⟩
  · rintro ⟨j, hj, marks, found, hreached, hrun⟩
    exact hreached.origins_eq_error hj hrun

end ConstantCatalog.Alias
