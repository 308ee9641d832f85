import ConstantCatalog.Cursor
import ConstantCatalog.Enumeration.Basic

/-! # Tours

A tour through a list stands at a window of it, from one position up to another, whatever moves were
made before. The window alone decides what the next move brings. Between two returns to the saved
window nothing is lost and nothing comes twice: what was passed at the front, what remains and what
was passed at the back make up the window from which the tour set out. -/

namespace ConstantCatalog
set_option autoImplicit false

variable {α : Type} {as : List α} {i j n : Nat}

namespace Cursor

/-- The elements from position `i` up to position `j`, where none is taken any more. -/
def window (as : List α) (i j : Nat) : Cursor α := ⟨(as.take j).drop i⟩

def IsWindow (c : Cursor α) (as : List α) : Prop :=
  ∃ i j, i ≤ j ∧ j ≤ as.length ∧ c = window as i j

theorem window_all (as : List α) : window as 0 as.length = ⟨as⟩ := by
  rw [window, List.take_length, List.drop_zero]

theorem remaining_window_self (as : List α) (i : Nat) : (window as i i).remaining = [] := by
  simp [window]

theorem length_window (hj : j ≤ as.length) : (window as i j).remaining.length = j - i := by
  simp [window, Nat.min_eq_left hj]

theorem getElem?_window (h : i + n < j) : (window as i j).remaining[n]? = as[i + n]? := by
  rw [window, List.getElem?_drop, List.getElem?_take, if_pos h]

theorem front_window (hj : j ≤ as.length) (h : i + n < j) :
    (window as i j).front n = (some as[i + n], window as (i + n + 1) j) := by
  rw [front, getElem?_window h, List.getElem?_eq_getElem (by omega), window, List.drop_drop]
  rfl

theorem front_window_beyond (hj : j ≤ as.length) (h : j ≤ i + n) :
    (window as i j).front n = (none, window as j j) := by
  have hlength := length_window (i := i) hj
  rw [front, List.getElem?_eq_none (by omega), List.drop_eq_nil_of_le (by omega),
    ← remaining_window_self as j]

theorem back_window (hj : j ≤ as.length) (h : i + n < j) :
    (window as i j).back n = (some as[j - (n + 1)], window as i (j - (n + 1))) := by
  have hlength := length_window (i := i) hj
  have hposition : i + (j - i - 1 - n) = j - (n + 1) := by omega
  have htaken : (window as i j).remaining.take (j - i - (n + 1)) =
      (window as i (j - (n + 1))).remaining := by
    have hsize : i + (j - i - (n + 1)) = j - (n + 1) := by omega
    simp only [window]
    rw [List.take_drop, List.take_take, hsize, Nat.min_eq_left (by omega)]
  rw [back, List.getElem?_reverse (by omega), hlength, getElem?_window (by omega), hposition,
    List.getElem?_eq_getElem (by omega), htaken]

theorem back_window_beyond (hj : j ≤ as.length) (h : j ≤ i + n) :
    (window as i j).back n = (none, window as i i) := by
  have hlength := length_window (i := i) hj
  have hnone : j - i - (n + 1) = 0 := by omega
  rw [back, List.getElem?_eq_none (by rw [List.length_reverse]; omega), hlength, hnone,
    List.take_zero, ← remaining_window_self as i]

theorem IsWindow.front {c : Cursor α} (h : c.IsWindow as) (n : Nat) :
    (c.front n).2.IsWindow as := by
  obtain ⟨i, j, hij, hj, rfl⟩ := h
  by_cases hn : i + n < j
  · rw [front_window hj hn]
    exact ⟨i + n + 1, j, hn, hj, rfl⟩
  · rw [front_window_beyond hj (by omega)]
    exact ⟨j, j, Nat.le_refl _, hj, rfl⟩

theorem IsWindow.back {c : Cursor α} (h : c.IsWindow as) (n : Nat) :
    (c.back n).2.IsWindow as := by
  obtain ⟨i, j, hij, hj, rfl⟩ := h
  by_cases hn : i + n < j
  · rw [back_window hj hn]
    exact ⟨i, j - (n + 1), by omega, by omega, rfl⟩
  · rw [back_window_beyond hj (by omega)]
    exact ⟨i, i, Nat.le_refl _, by omega, rfl⟩

theorem isWindow_nil (as : List α) : (⟨[]⟩ : Cursor α).IsWindow as :=
  ⟨0, 0, Nat.le_refl _, Nat.zero_le _, rfl⟩

end Cursor

def Reply.yielded : Reply α → List α
  | element a => a.toList
  | elements as => as
  | count _ | bounds _ _ | nothing => []

namespace Tour
variable {t : Tour α} {m : Move} {ms ns : List Move}

def after (t : Tour α) : List Move → Tour α
  | [] => t
  | m :: ms => (t.move m).2.after ms

/-- What a move passes at the front, skipped or handed over, in order. -/
def passedFront (t : Tour α) : Move → List α
  | .front n => t.cursor.remaining.take n ++ (t.move (.front n)).1.yielded
  | .drain => (t.move .drain).1.yielded
  | .back _ | .count | .bounds | .save | .restore | .drainBack => []

/-- What a move passes at the back, the last element first. -/
def passedBack (t : Tour α) : Move → List α
  | .back n => t.cursor.remaining.reverse.take n ++ (t.move (.back n)).1.yielded
  | .drainBack => (t.move .drainBack).1.yielded
  | .front _ | .count | .bounds | .save | .restore | .drain => []

def allPassedFront (t : Tour α) : List Move → List α
  | [] => []
  | m :: ms => t.passedFront m ++ (t.move m).2.allPassedFront ms

def allPassedBack (t : Tour α) : List Move → List α
  | [] => []
  | m :: ms => t.passedBack m ++ (t.move m).2.allPassedBack ms

/-- The tour stands at the window from `i` up to `j`, and this is what the next move brings. -/
structure Spans (t : Tour α) (as : List α) (i j : Nat) : Prop where
  le : i ≤ j
  le_length : j ≤ as.length
  cursor : t.cursor = .window as i j
  front : ∀ n, (h : i + n < j) → t.move (.front n) =
    (.element (some as[i + n]), { t with cursor := .window as (i + n + 1) j })
  front_beyond : ∀ n, j ≤ i + n →
    t.move (.front n) = (.element none, { t with cursor := .window as j j })
  back : ∀ n, (h : i + n < j) → t.move (.back n) =
    (.element (some as[j - (n + 1)]), { t with cursor := .window as i (j - (n + 1)) })
  back_beyond : ∀ n, j ≤ i + n →
    t.move (.back n) = (.element none, { t with cursor := .window as i i })
  count : t.move .count = (.count (j - i), t)
  bounds : t.move .bounds = (.bounds (j - i) (j - i), t)
  drain : t.move .drain =
    (.elements (Cursor.window as i j).remaining, { t with cursor := .window as j j })
  drainBack : t.move .drainBack =
    (.elements (Cursor.window as i j).remaining.reverse, { t with cursor := .window as i i })
  save : t.move .save = (.nothing, { t with saved := .window as i j })

/-! ## One move -/

theorem spans_of_cursor_eq (hij : i ≤ j) (hj : j ≤ as.length) (h : t.cursor = .window as i j) :
    t.Spans as i j := by
  have hempty : ∀ k, (⟨[]⟩ : Cursor α) = .window as k k := by
    intro k
    rw [← Cursor.remaining_window_self as k]
  refine ⟨hij, hj, h, ?_, ?_, ?_, ?_, ?_, ?_, ?_, ?_, ?_⟩
  · intro n hn
    simp only [move, h, Cursor.front_window hj hn]
  · intro n hn
    simp only [move, h, Cursor.front_window_beyond hj hn]
  · intro n hn
    simp only [move, h, Cursor.back_window hj hn]
  · intro n hn
    simp only [move, h, Cursor.back_window_beyond hj hn]
  · rw [move, h, Cursor.length_window hj]
  · rw [move, h, Cursor.length_window hj]
  · rw [move, h, hempty j]
  · rw [move, h, hempty i]
  · rw [move, h]

theorem isWindow_move (hcursor : t.cursor.IsWindow as) (hsaved : t.saved.IsWindow as) (m : Move) :
    (t.move m).2.cursor.IsWindow as ∧ (t.move m).2.saved.IsWindow as := by
  cases m with
  | front n => exact ⟨hcursor.front n, hsaved⟩
  | back n => exact ⟨hcursor.back n, hsaved⟩
  | count => exact ⟨hcursor, hsaved⟩
  | bounds => exact ⟨hcursor, hsaved⟩
  | save => exact ⟨hcursor, hcursor⟩
  | restore => exact ⟨hsaved, hsaved⟩
  | drain => exact ⟨Cursor.isWindow_nil as, hsaved⟩
  | drainBack => exact ⟨Cursor.isWindow_nil as, hsaved⟩

theorem saved_move (h : m ≠ .save) : (t.move m).2.saved = t.saved := by
  cases m with
  | save => exact absurd rfl h
  | _ => rfl

/-- A move that does not return to the saved window only parts the window where the tour stands. -/
theorem passed_move (h : m ≠ .restore) :
    t.passedFront m ++ (t.move m).2.cursor.remaining ++ (t.passedBack m).reverse =
      t.cursor.remaining := by
  cases m with
  | front n =>
    have hpassed : t.passedFront (.front n) = t.cursor.remaining.take (n + 1) :=
      List.take_add_one.symm
    rw [hpassed, passedBack, List.reverse_nil, List.append_nil]
    exact t.cursor.take_append_front n
  | back n =>
    have hpassed : t.passedBack (.back n) = t.cursor.remaining.reverse.take (n + 1) :=
      List.take_add_one.symm
    rw [hpassed, List.take_reverse, List.reverse_reverse, passedFront, List.nil_append]
    exact t.cursor.back_append_drop n
  | restore => exact absurd rfl h
  | drain => simp [passedFront, passedBack, move, Reply.yielded]
  | drainBack => simp [passedFront, passedBack, move, Reply.yielded]
  | _ => simp [passedFront, passedBack, move]

theorem yielded_move_of_nil (hnil : t.cursor.remaining = []) : (t.move m).1.yielded = [] := by
  cases m with
  | _ => simp [move, Cursor.front, Cursor.back, Reply.yielded, hnil]

/-! ## Several moves -/

theorem after_append (t : Tour α) (ms ns : List Move) :
    t.after (ms ++ ns) = (t.after ms).after ns := by
  induction ms generalizing t with
  | nil => rfl
  | cons m ms ih => exact ih (t.move m).2

theorem replies_append (t : Tour α) (ms ns : List Move) :
    t.replies (ms ++ ns) = t.replies ms ++ (t.after ms).replies ns := by
  induction ms generalizing t with
  | nil => rfl
  | cons m ms ih => exact congrArg ((t.move m).1 :: ·) (ih (t.move m).2)

theorem isWindow_after (hcursor : t.cursor.IsWindow as) (hsaved : t.saved.IsWindow as)
    (ms : List Move) : (t.after ms).cursor.IsWindow as ∧ (t.after ms).saved.IsWindow as := by
  induction ms generalizing t with
  | nil => exact ⟨hcursor, hsaved⟩
  | cons m ms ih =>
    obtain ⟨hcursor, hsaved⟩ := isWindow_move hcursor hsaved m
    exact ih hcursor hsaved

theorem saved_after (h : .save ∉ ms) : (t.after ms).saved = t.saved := by
  induction ms generalizing t with
  | nil => rfl
  | cons m ms ih =>
    obtain ⟨hm, hms⟩ := List.ne_and_not_mem_of_not_mem_cons h
    rw [after, ih hms, saved_move hm.symm]

theorem passed_after (h : .restore ∉ ms) :
    t.allPassedFront ms ++ (t.after ms).cursor.remaining ++ (t.allPassedBack ms).reverse =
      t.cursor.remaining := by
  induction ms generalizing t with
  | nil => simp [allPassedFront, allPassedBack, after]
  | cons m ms ih =>
    obtain ⟨hm, hms⟩ := List.ne_and_not_mem_of_not_mem_cons h
    have hrest := ih (t := (t.move m).2) hms
    rw [← passed_move (t := t) hm.symm, ← hrest, allPassedFront, allPassedBack, List.reverse_append]
    simp only [List.append_assoc]
    rfl

theorem remaining_after_of_nil (h : .restore ∉ ms) (hnil : t.cursor.remaining = []) :
    (t.after ms).cursor.remaining = [] := by
  have hpassed := passed_after (t := t) h
  rw [hnil, List.append_eq_nil_iff, List.append_eq_nil_iff] at hpassed
  exact hpassed.1.2

theorem yielded_of_nil (h : .restore ∉ ms) (hnil : t.cursor.remaining = []) :
    ∀ r ∈ t.replies ms, r.yielded = [] := by
  induction ms generalizing t with
  | nil => exact List.forall_mem_nil _
  | cons m ms ih =>
    obtain ⟨hm, hms⟩ := List.ne_and_not_mem_of_not_mem_cons h
    have halone : .restore ∉ [m] := fun hmem => hm (List.mem_singleton.mp hmem)
    have hnext : (t.after [m]).cursor.remaining = [] := remaining_after_of_nil halone hnil
    exact List.forall_mem_cons.mpr ⟨yielded_move_of_nil hnil, ih hms hnext⟩

end Tour

def Enumeration.tour (e : Enumeration) (ms : List Move) : Tour Constant :=
  (Tour.start e.members).after ms

/-- A tour through the members sets out from all of them. Whatever moves were made, it stands at a
window of the members, returns to the saved window unchanged, and passes every member of the window
once until it returns. -/
theorem Enumeration.tour_exact (e : Enumeration) (ms : List Move) :
    (e.tour []).Spans e.members 0 e.members.length ∧
    (∃ i j, (e.tour ms).Spans e.members i j) ∧
    (e.tour ms).saved.IsWindow e.members ∧
    (∀ m, (Tour.start e.members).replies (ms ++ [m]) =
      (Tour.start e.members).replies ms ++ [((e.tour ms).move m).1]) ∧
    (∀ ns, .save ∉ ns → (e.tour (ms ++ ns ++ [.restore])).cursor = (e.tour ms).saved) ∧
    ∀ ns, .restore ∉ ns →
      (e.tour ms).allPassedFront ns ++ (e.tour (ms ++ ns)).cursor.remaining ++
          ((e.tour ms).allPassedBack ns).reverse = (e.tour ms).cursor.remaining ∧
      ((e.tour ms).cursor.remaining = [] → (e.tour (ms ++ ns)).cursor.remaining = [] ∧
        ∀ r ∈ (e.tour ms).replies ns, r.yielded = []) := by
  have hall : (⟨e.members⟩ : Cursor Constant).IsWindow e.members :=
    ⟨0, e.members.length, Nat.zero_le _, Nat.le_refl _, (Cursor.window_all _).symm⟩
  obtain ⟨⟨i, j, hij, hj, hcursor⟩, hsaved⟩ := Tour.isWindow_after hall hall ms
    (t := Tour.start e.members)
  refine ⟨?_, ⟨i, j, Tour.spans_of_cursor_eq hij hj hcursor⟩, hsaved, ?_, ?_, ?_⟩
  · exact Tour.spans_of_cursor_eq (Nat.zero_le _) (Nat.le_refl _) (Cursor.window_all _).symm
  · intro m
    exact Tour.replies_append _ ms [m]
  · intro ns hns
    rw [tour, Tour.after_append, Tour.after_append]
    exact Tour.saved_after hns
  · intro ns hns
    rw [show e.tour (ms ++ ns) = (e.tour ms).after ns from Tour.after_append _ ms ns]
    exact ⟨Tour.passed_after hns,
      fun hnil => ⟨Tour.remaining_after_of_nil hns hnil, Tour.yielded_of_nil hns hnil⟩⟩

/-- Skipping too far empties the window, and returning brings it back. -/
example : (Tour.start [1, 2, 3]).replies
    [.front 0, .save, .back 2, .count, .restore, .drainBack] =
      [.element (some 1), .nothing, .element none, .count 0, .nothing, .elements [3, 2]] := by
  decide

end ConstantCatalog
