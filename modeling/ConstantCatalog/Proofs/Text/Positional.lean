import Mathlib.Data.List.Forall2
import Mathlib.Data.Nat.Digits.Defs
import Mathlib.Tactic.Ring
import ConstantCatalog.Proofs.Text.Numeral

/-! # Numerals by positions

Which texts are numerals and which values they have, said by the digits and the weights of their
positions. Readers of numerals accept these texts and no others. A zero in front adds nothing. -/

namespace ConstantCatalog.Text
set_option autoImplicit false

variable {base d n : Nat} {c : Char} {s ds : List Char}

/-- Letters of either case follow the ten ASCII digits. -/
def IsDigit (base : Nat) (c : Char) (d : Nat) : Prop :=
  d < base ∧ ("0123456789abcdef".toList[d]? = some c ∨ "0123456789ABCDEF".toList[d]? = some c)

/-- One or more digits, the one of the greatest weight first. -/
def IsNumeral (base : Nat) (s : List Char) (n : Nat) : Prop :=
  s ≠ [] ∧ ∃ ds, List.Forall₂ (IsDigit base) s ds ∧ Nat.ofDigits base ds.reverse = n

/-- A numeral after at most one plus sign. -/
def IsNatural (base : Nat) (s : List Char) (n : Nat) : Prop :=
  ∃ ds, IsNumeral base ds n ∧ (s = ds ∨ s = '+' :: ds)

/-- A decimal numeral after at most one sign. -/
def IsInteger (s : List Char) (v : Int) : Prop :=
  ∃ ds n, IsNumeral 10 ds n ∧ ((s = ds ∨ s = '+' :: ds) ∧ v = n ∨ s = '-' :: ds ∧ v = -n)

/-! ## Digits -/

theorem digitValue_of_isDigit (h : IsDigit 16 c d) : digitValue c = d := by
  have hall : ∀ d : Fin 16, ∀ text ∈ ["0123456789abcdef", "0123456789ABCDEF"],
      text.toList[d.val]?.map digitValue = some d.val := by decide
  have hdigit : ∀ text ∈ ["0123456789abcdef", "0123456789ABCDEF"],
      text.toList[d]? = some c → digitValue c = d := by
    intro text htext hc
    have hvalue := hall ⟨d, h.1⟩ text htext
    rw [hc] at hvalue
    exact Option.some.inj hvalue
  rcases h.2 with hc | hc
  · exact hdigit _ List.mem_cons_self hc
  · exact hdigit _ (List.mem_cons_of_mem _ List.mem_cons_self) hc

/-- The code of a digit is its value, moved to the range of its class. -/
theorem getElem?_of_code {text : List Char} {low k m : Nat}
    (htext : ∀ d : Fin m, text[d.val + k]? = some (.ofNat (d.val + low)))
    (hlow : low ≤ c.toNat) (hm : c.toNat - low < m) : text[c.toNat - low + k]? = some c := by
  have hdigit := htext ⟨c.toNat - low, hm⟩
  rwa [Nat.sub_add_cancel hlow, Char.ofNat_toNat] at hdigit

theorem isDigit_of_digitValue (h : digitValue c < 16) : IsDigit 16 c (digitValue c) := by
  refine ⟨h, ?_⟩
  have hdecimal : ∀ d : Fin 10,
      "0123456789abcdef".toList[d.val + 0]? = some (.ofNat (d.val + 48)) := by decide
  have hlower : ∀ d : Fin 6,
      "0123456789abcdef".toList[d.val + 10]? = some (.ofNat (d.val + 97)) := by decide
  have hupper : ∀ d : Fin 6,
      "0123456789ABCDEF".toList[d.val + 10]? = some (.ofNat (d.val + 65)) := by decide
  unfold digitValue at h ⊢
  split at h
  · rename_i hc
    have hrange : 48 ≤ c.toNat ∧ c.toNat ≤ 57 := hc
    rw [if_pos hc]
    exact .inl (getElem?_of_code hdecimal hrange.1 (by omega))
  · rename_i hc
    rw [if_neg hc]
    split at h
    · rename_i hl
      have hrange : 97 ≤ c.toNat ∧ c.toNat ≤ 122 := hl
      have hvalue : c.toNat - 97 + 10 < 16 := h
      rw [if_pos hl]
      exact .inl (getElem?_of_code hlower hrange.1 (by omega))
    · rename_i hl
      rw [if_neg hl]
      split at h
      · rename_i hu
        have hrange : 65 ≤ c.toNat ∧ c.toNat ≤ 90 := hu
        have hvalue : c.toNat - 65 + 10 < 16 := h
        rw [if_pos hu]
        exact .inr (getElem?_of_code hupper hrange.1 (by omega))
      · omega

theorem digit?_eq_some_iff_isDigit (hbase : base ≤ 16) :
    digit? base c = some d ↔ IsDigit base c d := by
  rw [digit?_eq_some_iff]
  constructor
  · rintro ⟨rfl, hlt⟩
    exact ⟨hlt, (isDigit_of_digitValue (by omega)).2⟩
  · rintro ⟨hlt, h⟩
    exact ⟨digitValue_of_isDigit ⟨by omega, h⟩, hlt⟩

/-! ## Numerals -/

theorem foldlM_digit?_eq_some_iff (hbase : base ≤ 16) {k : Nat} :
    s.foldlM (fun n c => (digit? base c).map (n * base + ·)) k = some n ↔
      ∃ ds, List.Forall₂ (IsDigit base) s ds ∧
        k * base ^ s.length + Nat.ofDigits base ds.reverse = n := by
  induction s generalizing k with
  | nil => simp
  | cons c s ih =>
    rw [List.foldlM_cons, Option.bind_eq_bind, Option.bind_eq_some_iff]
    simp only [Option.map_eq_some_iff, digit?_eq_some_iff_isDigit hbase, ih]
    have hvalue : ∀ {d : Nat} {ds : List Nat}, List.Forall₂ (IsDigit base) s ds →
        (k * base + d) * base ^ s.length + Nat.ofDigits base ds.reverse =
          k * base ^ (c :: s).length + Nat.ofDigits base (d :: ds).reverse := by
      intro d ds hds
      rw [List.reverse_cons, Nat.ofDigits_append, Nat.ofDigits_singleton, List.length_reverse,
        ← hds.length_eq, List.length_cons]
      ring
    constructor
    · rintro ⟨_, ⟨d, hd, rfl⟩, ds, hds, rfl⟩
      exact ⟨d :: ds, .cons hd hds, (hvalue hds).symm⟩
    · rintro ⟨_, hall, rfl⟩
      obtain ⟨d, ds, hd, hds, rfl⟩ := List.forall₂_cons_left_iff.mp hall
      exact ⟨_, ⟨d, hd, rfl⟩, ds, hds, hvalue hds⟩

theorem digits?_eq_some_iff (hbase : base ≤ 16) :
    digits? base s = some n ↔ IsNumeral base s n := by
  cases s with
  | nil => simp [digits?, IsNumeral]
  | cons c s =>
    rw [digits?, foldlM_digit?_eq_some_iff hbase, IsNumeral]
    simp only [Nat.zero_mul, Nat.zero_add, ne_eq, reduceCtorEq, not_false_eq_true, true_and]

theorem IsNumeral.digitValue_lt (hbase : base ≤ 16) (h : IsNumeral base s n) :
    ∀ c ∈ s, digitValue c < base :=
  digitValue_lt_of_digits? ((digits?_eq_some_iff hbase).mpr h)

theorem IsNumeral.notMem (hbase : base ≤ 16) (h : IsNumeral base s n) (hc : base ≤ digitValue c) :
    c ∉ s := by
  intro hmem
  have hlt := h.digitValue_lt hbase c hmem
  omega

theorem IsNumeral.replicate_zero_append (hlow : 0 < base) (h : IsNumeral base s n) (k : Nat) :
    IsNumeral base (List.replicate k '0' ++ s) n := by
  induction k with
  | zero => exact h
  | succ k ih =>
    obtain ⟨-, ds, hds, rfl⟩ := ih
    refine ⟨List.cons_ne_nil _ _, 0 :: ds, .cons ⟨hlow, .inl rfl⟩ hds, ?_⟩
    rw [List.reverse_cons, Nat.ofDigits_append_zero]

theorem natural?_eq_some_iff (hbase : base ≤ 16) :
    natural? base s = some n ↔ IsNatural base s n := by
  have hplus : base ≤ digitValue '+' := hbase.trans (by decide)
  unfold natural?
  split
  · rename_i t
    rw [digits?_eq_some_iff hbase]
    constructor
    · exact fun h => ⟨t, h, .inr rfl⟩
    · rintro ⟨ds, h, rfl | heq⟩
      · exact absurd List.mem_cons_self (h.notMem hbase hplus)
      · cases heq
        exact h
  · rename_i hs
    rw [digits?_eq_some_iff hbase]
    constructor
    · exact fun h => ⟨s, h, .inl rfl⟩
    · rintro ⟨ds, h, rfl | rfl⟩
      · exact h
      · exact absurd rfl (hs ds)

theorem integer?_minus (s : List Char) :
    integer? ('-' :: s) = (digits? 10 s).map fun n : Nat => -(n : Int) := by
  rw [integer?]
  cases digits? 10 s <;> rfl

theorem integer?_eq_some_iff {v : Int} : integer? s = some v ↔ IsInteger s v := by
  have hminus : 10 ≤ digitValue '-' := by decide
  by_cases hs : ∃ t, s = '-' :: t
  · obtain ⟨t, rfl⟩ := hs
    rw [integer?_minus]
    simp only [Option.map_eq_some_iff, digits?_eq_some_iff (show 10 ≤ 16 by decide)]
    constructor
    · rintro ⟨n, h, rfl⟩
      exact ⟨t, n, h, .inr ⟨rfl, rfl⟩⟩
    · rintro ⟨ds, n, h, ⟨rfl | heq, -⟩ | ⟨heq, rfl⟩⟩
      · exact absurd List.mem_cons_self (h.notMem (by decide) hminus)
      · cases heq
      · cases heq
        exact ⟨n, h, rfl⟩
  · have hread : integer? s = (natural? 10 s).map Int.ofNat := by
      unfold integer?
      split
      · rename_i t
        exact absurd ⟨t, rfl⟩ hs
      · rfl
    rw [hread]
    simp only [Option.map_eq_some_iff, natural?_eq_some_iff (show 10 ≤ 16 by decide)]
    constructor
    · rintro ⟨n, ⟨ds, h, hsign⟩, rfl⟩
      exact ⟨ds, n, h, .inl ⟨hsign, rfl⟩⟩
    · rintro ⟨ds, n, h, ⟨hsign, rfl⟩ | ⟨rfl, -⟩⟩
      · exact ⟨n, ⟨ds, h, hsign⟩, rfl⟩
      · exact absurd ⟨ds, rfl⟩ hs

theorem word?_eq_some_iff (hbase : base ≤ 16) {w : UInt32} :
    word? base s = some w ↔ IsNatural base s w.toNat := by
  rw [← natural?_eq_some_iff hbase, word?, Option.bind_eq_some_iff]
  constructor
  · rintro ⟨n, hn, h⟩
    split at h
    · rename_i hlt
      cases h
      rwa [UInt32.toNat_ofNat_of_lt' hlt]
    · cases h
  · intro h
    exact ⟨w.toNat, h, by rw [if_pos w.toNat_lt, UInt32.ofNat_toNat]⟩

end ConstantCatalog.Text
