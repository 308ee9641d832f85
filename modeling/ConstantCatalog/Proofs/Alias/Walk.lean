import Mathlib.Data.List.FinRange
import Mathlib.Data.List.Forall2
import ConstantCatalog.Alias.Walk
import ConstantCatalog.Proofs.Outcome
import ConstantCatalog.Proofs.Alias.Loop

/-! # What a walk finds

The invariant of a walk under way and of the marks between two walks, what a single step keeps of
them, and from it what a whole walk and the walks from all members come to: origins exactly when
every chain of references ends, and else the loop that the first other member runs into. -/

namespace ConstantCatalog.Alias
set_option autoImplicit false

variable {n : Nat} {g : Graph n}

@[simp] theorem Marks.getElem_put (marks : Marks n) (i j : Fin n) (mark : Mark n) :
    (marks.put i mark)[j] = if i = j then mark else marks[j] := by
  simp [Marks.put, Vector.getElem_set, Fin.ext_iff]

@[simp] theorem Marks.getElem_settle (marks : Marks n) (path : List (Fin n)) (origin : Origin n)
    (j : Fin n) :
    (marks.settle path origin)[j] = if j ∈ path then .settled origin else marks[j] := by
  unfold Marks.settle
  induction path generalizing marks with
  | nil => simp
  | cons i path ih =>
    rw [List.foldl_cons, ih, Marks.getElem_put]
    by_cases hj : j ∈ path
    · simp [hj]
    · simp [hj, eq_comm]

/-- The marks between two walks: nothing is active, and every origin found is right. -/
structure Marks.Sound (g : Graph n) (marks : Marks n) : Prop where
  quiet : ∀ i : Fin n, marks[i] ≠ .active
  origin : ∀ (i : Fin n) (o : Origin n), marks[i] = .settled o → EndsAt g i o

/-- A walk under way from `start`: its path is what it has passed, and leads to where it is. -/
structure Walk.Sound (g : Graph n) (start : Fin n) (w : Walk n) : Prop where
  active : ∀ i : Fin n, w.marks[i] = .active ↔ i ∈ w.path
  origin : ∀ (i : Fin n) (o : Origin n), w.marks[i] = .settled o → EndsAt g i o
  nodup : w.path.Nodup
  follows : (w.path ++ [w.current]).IsChain (Refers g)
  starts : (w.path ++ [w.current]).head? = some start

theorem Marks.sound_fresh (g : Graph n) : Marks.Sound g (.replicate n .fresh) where
  quiet := by simp
  origin := by simp

theorem EndsAt.of_isChain {path : List (Fin n)} {i : Fin n} {o : Origin n} (h : EndsAt g i o)
    (hp : (path ++ [i]).IsChain (Refers g)) : ∀ j ∈ path ++ [i], EndsAt g j o := by
  induction path with
  | nil => simpa using h
  | cons j path ih =>
    have htail := ih hp.tail
    intro k hk
    rcases List.mem_cons.mp hk with rfl | hk
    · obtain ⟨m, hm⟩ : ∃ m, (path ++ [i]).head? = some m := by cases path <;> simp
      exact .reference (hp.rel_head? hm) (htail m (List.mem_of_head? hm))
    · exact htail k hk

namespace Walk

variable {start : Fin n} {w : Walk n}

theorem sound_begin {marks : Marks n} (h : marks.Sound g) (start : Fin n) :
    (begin marks start).Sound g start where
  active i := by simpa [begin] using h.quiet i
  origin := h.origin
  nodup := by simp [begin]
  follows := by simp [begin]
  starts := by simp [begin]

theorem step_eq_arrive {origin : Origin n} {marks : Marks n} (h : w.step g = .arrive origin marks) :
    (w.marks.get w.current = .settled origin ∧ marks = w.marks) ∨
    (w.marks.get w.current = .fresh ∧ g w.current = .literal origin.value ∧
      origin.index = w.current ∧ marks = w.marks.put w.current (.settled origin)) := by
  unfold step at h
  split at h
  · rename_i hm
    cases h
    exact Or.inl ⟨hm, rfl⟩
  · cases h
  · rename_i hm
    split at h
    · rename_i hg
      cases h
      exact Or.inr ⟨hm, hg, rfl, rfl⟩
    · cases h

theorem step_eq_loop {chain : List (Fin n)} (h : w.step g = .loop chain) :
    w.marks.get w.current = .active ∧
      chain = w.path.dropWhile (· ≠ w.current) ++ [w.current] := by
  unfold step at h
  split at h
  · cases h
  · rename_i hm
    cases h
    exact ⟨hm, rfl⟩
  · split at h <;> cases h

theorem Sound.follow {next : Walk n} (h : w.Sound g start) (hs : w.step g = .follow next) :
    next.Sound g start := by
  obtain ⟨hfresh, target, hg, rfl⟩ := step_eq_follow hs
  have hnew : w.current ∉ w.path := by
    intro hmem
    rw [← h.active, hfresh] at hmem
    cases hmem
  refine ⟨?_, ?_, ?_, ?_, ?_⟩
  · intro i
    rw [Marks.getElem_put, List.mem_append, List.mem_singleton, ← h.active]
    by_cases hi : w.current = i
    · simp [hi]
    · simp [hi, Ne.symm hi]
  · intro i o hi
    rw [Marks.getElem_put] at hi
    split at hi
    · cases hi
    · exact h.origin i o hi
  · refine List.nodup_append.mpr ⟨h.nodup, by simp, ?_⟩
    simpa using fun i hi => ne_of_mem_of_not_mem hi hnew
  · have hlast : Refers g w.current target := hg
    rw [List.append_assoc, List.cons_append, List.nil_append, List.isChain_split]
    exact ⟨h.follows, by simpa using hlast⟩
  · simpa using h.starts

/-- Arriving settles the member where the walk is and leaves the path active. -/
theorem Sound.arrive {origin : Origin n} {marks : Marks n} (h : w.Sound g start)
    (hs : w.step g = .arrive origin marks) :
    EndsAt g w.current origin ∧ (∀ i : Fin n, marks[i] = .active ↔ i ∈ w.path) ∧
      ∀ (i : Fin n) (o : Origin n), marks[i] = .settled o → EndsAt g i o := by
  rcases step_eq_arrive hs with ⟨hm, rfl⟩ | ⟨hfresh, hg, hi, rfl⟩
  · exact ⟨h.origin _ _ hm, h.active, h.origin⟩
  · have hend : EndsAt g w.current origin := by
      obtain ⟨value, index⟩ := origin
      obtain rfl : index = w.current := hi
      exact .literal hg
    refine ⟨hend, ?_, ?_⟩
    · intro i
      rw [Marks.getElem_put, ← h.active]
      by_cases hi : w.current = i
      · subst hi
        have hmark : w.marks[w.current.val] = .fresh := hfresh
        simp [hmark]
      · simp [hi]
    · intro i o hi
      rw [Marks.getElem_put] at hi
      split at hi
      · rename_i heq
        cases hi
        exact heq ▸ hend
      · exact h.origin i o hi

/-- An active member is on the path, and the walk goes round from there. -/
theorem Sound.loop {chain : List (Fin n)} (h : w.Sound g start) (hs : w.step g = .loop chain) :
    ∃ lead entry rest, EntersLoop (Refers g) start lead entry rest ∧
      chain = entry :: rest ++ [entry] := by
  obtain ⟨hactive, rfl⟩ := step_eq_loop hs
  obtain ⟨lead, rest, hpath, hlead⟩ := List.eq_append_cons_of_mem ((h.active _).mp hactive)
  have hnodup := h.nodup
  have hfollows := h.follows
  have hstarts := h.starts
  rw [hpath] at hnodup hfollows hstarts
  refine ⟨lead, w.current, rest, ⟨?_, hnodup, hfollows⟩, ?_⟩
  · cases lead <;> simpa using hstarts
  · have hdrop : w.path.dropWhile (· ≠ w.current) = w.current :: rest := by
      rw [hpath, List.dropWhile_append_of_pos]
      · simp
      · intro i hi
        simpa using ne_of_mem_of_not_mem hi hlead
    rw [hdrop]

theorem run_of_follow {next : Walk n} (h : w.step g = .follow next) : w.run g = next.run g := by
  rw [run]
  split <;> simp_all

theorem run_of_arrive {origin : Origin n} {marks : Marks n} (h : w.step g = .arrive origin marks) :
    w.run g = .ok (origin, marks.settle w.path origin) := by
  rw [run]
  split <;> simp_all

theorem run_of_loop {chain : List (Fin n)} (h : w.step g = .loop chain) :
    w.run g = .error chain := by
  rw [run]
  split <;> simp_all

theorem Sound.run_ok {origin : Origin n} {marks : Marks n} (h : w.Sound g start)
    (hr : w.run g = .ok (origin, marks)) : EndsAt g start origin ∧ marks.Sound g := by
  induction w using Walk.run.induct g with
  | case1 w next hs ih => exact ih (h.follow hs) (run_of_follow hs ▸ hr)
  | case2 w o m hs =>
    rw [run_of_arrive hs] at hr
    cases hr
    obtain ⟨hend, hactive, horigin⟩ := h.arrive hs
    have hpath := hend.of_isChain h.follows
    refine ⟨hpath start (List.mem_of_head? h.starts), ?_, ?_⟩
    · intro i hi
      rw [Marks.getElem_settle] at hi
      split at hi
      · cases hi
      · rename_i hmem
        exact hmem ((hactive i).mp hi)
    · intro i o hi
      rw [Marks.getElem_settle] at hi
      split at hi
      · rename_i hmem
        cases hi
        exact hpath i (List.mem_append_left _ hmem)
      · exact horigin i o hi
  | case3 w chain hs =>
    rw [run_of_loop hs] at hr
    cases hr

theorem Sound.run_error {chain : List (Fin n)} (h : w.Sound g start)
    (hr : w.run g = .error chain) :
    ∃ lead entry rest, EntersLoop (Refers g) start lead entry rest ∧
      chain = entry :: rest ++ [entry] := by
  induction w using Walk.run.induct g with
  | case1 w next hs ih => exact ih (h.follow hs) (run_of_follow hs ▸ hr)
  | case2 w o m hs =>
    rw [run_of_arrive hs] at hr
    cases hr
  | case3 w c hs =>
    rw [run_of_loop hs] at hr
    cases hr
    exact h.loop hs

end Walk

theorem originsFrom_ok {marks : Marks n} (h : marks.Sound g) {starts : List (Fin n)}
    {origins : List (Origin n)} (ho : originsFrom g marks starts = .ok origins) :
    List.Forall₂ (EndsAt g) starts origins := by
  induction starts generalizing marks origins with
  | nil =>
    cases ho
    exact .nil
  | cons start starts ih =>
    rw [originsFrom] at ho
    split at ho
    · cases ho
    · rename_i origin next hr
      obtain ⟨hend, hnext⟩ := (Walk.sound_begin h start).run_ok hr
      obtain ⟨more, hmore, rfl⟩ := Outcome.map_eq_ok.mp ho
      exact .cons hend (ih hnext hmore)

/-- The loop reported is the one that the first start without an origin runs into. -/
theorem originsFrom_error {marks : Marks n} (h : marks.Sound g) {starts chain : List (Fin n)}
    (ho : originsFrom g marks starts = .error chain) :
    ∃ before start after, starts = before ++ start :: after ∧
      (∀ i ∈ before, ∃ origin, EndsAt g i origin) ∧
      ∃ lead entry rest, EntersLoop (Refers g) start lead entry rest ∧
        chain = entry :: rest ++ [entry] := by
  induction starts generalizing marks with
  | nil => cases ho
  | cons start starts ih =>
    rw [originsFrom] at ho
    split at ho
    · rename_i c hr
      cases ho
      exact ⟨[], start, starts, rfl, by simp, (Walk.sound_begin h start).run_error hr⟩
    · rename_i origin next hr
      obtain ⟨hend, hnext⟩ := (Walk.sound_begin h start).run_ok hr
      obtain ⟨before, s, after, rfl, hbefore, hloop⟩ := ih hnext (Outcome.map_eq_error.mp ho)
      refine ⟨start :: before, s, after, rfl, ?_, hloop⟩
      intro i hi
      rcases List.mem_cons.mp hi with rfl | hi
      · exact ⟨origin, hend⟩
      · exact hbefore i hi

/-- The origins are those of all members, in order. -/
theorem Graph.origins_ok {origins : List (Origin n)} (h : g.origins = .ok origins) :
    origins.length = n ∧
      ∀ i : Fin n, ∃ origin, origins[i.val]? = some origin ∧ EndsAt g i origin := by
  obtain ⟨hlen, hget⟩ := List.forall₂_iff_get.mp (originsFrom_ok (Marks.sound_fresh g) h)
  rw [List.length_finRange] at hlen
  refine ⟨hlen.symm, ?_⟩
  intro i
  have hi : i.val < origins.length := hlen ▸ i.isLt
  refine ⟨origins[i.val], List.getElem?_eq_getElem hi, ?_⟩
  simpa using hget i.val (by simp) hi

theorem Graph.origins_error {chain : List (Fin n)} (h : g.origins = .error chain) :
    ∃ start, (∀ i < start, ∃ origin, EndsAt g i origin) ∧
      ∃ lead entry rest, EntersLoop (Refers g) start lead entry rest ∧
        chain = entry :: rest ++ [entry] := by
  obtain ⟨before, start, after, hsplit, hbefore, hloop⟩ := originsFrom_error (Marks.sound_fresh g) h
  refine ⟨start, ?_, hloop⟩
  intro i hi
  apply hbefore
  have hmem : i ∈ before ++ start :: after := hsplit ▸ List.mem_finRange i
  have hsorted : (before ++ start :: after).Pairwise (· < ·) :=
    hsplit ▸ List.pairwise_lt_finRange n
  rcases List.mem_append.mp hmem with hb | ha
  · exact hb
  · rcases List.mem_cons.mp ha with rfl | ha
    · exact absurd hi (lt_irrefl i)
    · have hlt := (List.pairwise_cons.mp (List.pairwise_append.mp hsorted).2.1).1 i ha
      exact absurd (hi.trans hlt) (lt_irrefl i)

end ConstantCatalog.Alias
