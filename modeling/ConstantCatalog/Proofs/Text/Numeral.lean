import ConstantCatalog.BlockText.Literal

/-! # Numerals that are read back

Numbers written in a base up to sixteen, and the literals made of them, are read as what they were
written for. A written number holds digits of its base only, and so neither a sign nor the mark of
another base. -/

namespace ConstantCatalog.Text
set_option autoImplicit false

theorem digitValue_digitChar {d : Nat} (h : d < 16) : digitValue d.digitChar = d := by
  have hall : ∀ d : Fin 16, digitValue d.val.digitChar = d.val := by decide
  exact hall ⟨d, h⟩

theorem digit?_eq_some_iff {base d : Nat} {c : Char} :
    digit? base c = some d ↔ digitValue c = d ∧ d < base := by
  unfold digit?
  split
  · rename_i h
    simp only [Option.some.injEq]
    exact ⟨fun hd => ⟨hd, hd ▸ h⟩, fun hd => hd.1⟩
  · rename_i h
    simp only [reduceCtorEq, false_iff, not_and]
    exact fun hd hlt => h (hd ▸ hlt)

theorem digits?_singleton (base : Nat) (c : Char) : digits? base [c] = digit? base c := by
  simp [digits?]

theorem digitValue_lt_of_foldlM {base : Nat} {s : List Char} {k n : Nat}
    (h : s.foldlM (fun n d => (digit? base d).map (n * base + ·)) k = some n) :
    ∀ c ∈ s, digitValue c < base := by
  induction s generalizing k with
  | nil => simp
  | cons d s ih =>
    rw [List.foldlM_cons, Option.bind_eq_bind] at h
    obtain ⟨m, hm, hs⟩ := Option.bind_eq_some_iff.mp h
    obtain ⟨v, hv, -⟩ := Option.map_eq_some_iff.mp hm
    obtain ⟨rfl, hlt⟩ := digit?_eq_some_iff.mp hv
    rintro c (_ | ⟨_, hc⟩)
    · exact hlt
    · exact ih hs c hc

/-- What is read as digits holds digits of the base only. -/
theorem digitValue_lt_of_digits? {base n : Nat} {s : List Char} (h : digits? base s = some n) :
    ∀ c ∈ s, digitValue c < base := by
  cases s with
  | nil => cases h
  | cons c s => exact digitValue_lt_of_foldlM h

theorem eq_or_digitValue_lt_of_natural? {base n : Nat} {s : List Char}
    (h : natural? base s = some n) : ∀ c ∈ s, c = '+' ∨ digitValue c < base := by
  intro c hc
  unfold natural? at h
  split at h
  · rcases List.mem_cons.mp hc with rfl | hc
    · exact Or.inl rfl
    · exact Or.inr (digitValue_lt_of_digits? h c hc)
  · exact Or.inr (digitValue_lt_of_digits? h c hc)

theorem eq_or_digitValue_lt_of_integer? {v : Int} {s : List Char} (h : integer? s = some v) :
    ∀ c ∈ s, c = '-' ∨ c = '+' ∨ digitValue c < 10 := by
  intro c hc
  unfold integer? at h
  split at h
  · obtain ⟨m, hm, -⟩ := Option.map_eq_some_iff.mp h
    obtain ⟨n, hn, -⟩ := Option.bind_eq_some_iff.mp hm
    rcases List.mem_cons.mp hc with rfl | hc
    · exact Or.inl rfl
    · exact Or.inr (Or.inr (digitValue_lt_of_digits? hn c hc))
  · obtain ⟨n, hn, -⟩ := Option.map_eq_some_iff.mp h
    exact Or.inr (eq_or_digitValue_lt_of_natural? hn c hc)

/-- One more digit at the end. -/
theorem digits?_append_singleton {base n d : Nat} {s : List Char} {c : Char}
    (hs : digits? base s = some n) (hc : digit? base c = some d) :
    digits? base (s ++ [c]) = some (n * base + d) := by
  cases s with
  | nil => cases hs
  | cons first s =>
    rw [digits?] at hs
    rw [List.cons_append, digits?, ← List.cons_append, List.foldlM_append, hs]
    simp [hc]

section Written
variable {base : Nat} (hlow : 1 < base) (hhigh : base ≤ 16)
include hlow hhigh

theorem digit?_digitChar {d : Nat} (h : d < base) : digit? base d.digitChar = some d :=
  digit?_eq_some_iff.mpr ⟨digitValue_digitChar (by omega), h⟩

theorem digits?_toDigits (n : Nat) : digits? base (Nat.toDigits base n) = some n := by
  induction n using Nat.strongRecOn with
  | ind n ih =>
    by_cases hn : n < base
    · rw [Nat.toDigits_of_lt_base hn, digits?_singleton]
      exact digit?_digitChar hlow hhigh hn
    · rw [Nat.toDigits_of_base_le hlow (by omega)]
      have hdiv : n / base < n := Nat.div_lt_self (by omega) hlow
      have hmod : n % base < base := Nat.mod_lt n (by omega)
      rw [digits?_append_singleton (ih _ hdiv) (digit?_digitChar hlow hhigh hmod)]
      rw [Nat.mul_comm, Nat.div_add_mod]

theorem digitValue_lt_of_mem_toDigits {n : Nat} {c : Char} (h : c ∈ Nat.toDigits base n) :
    digitValue c < base := by
  induction n using Nat.strongRecOn with
  | ind n ih =>
    by_cases hn : n < base
    · rw [Nat.toDigits_of_lt_base hn, List.mem_singleton] at h
      rw [h, digitValue_digitChar (by omega)]
      exact hn
    · rw [Nat.toDigits_of_base_le hlow (by omega), List.mem_append, List.mem_singleton] at h
      have hmod : n % base < base := Nat.mod_lt n (by omega)
      rcases h with h | rfl
      · exact ih _ (Nat.div_lt_self (by omega) hlow) h
      · rw [digitValue_digitChar (by omega)]
        exact hmod

theorem notMem_toDigits {c : Char} (h : base ≤ digitValue c) (n : Nat) :
    c ∉ Nat.toDigits base n := by
  intro hmem
  have := digitValue_lt_of_mem_toDigits hlow hhigh hmem
  omega

theorem natural?_toDigits (n : Nat) : natural? base (Nat.toDigits base n) = some n := by
  unfold natural?
  split
  · rename_i s hs
    have hplus : base ≤ digitValue '+' := Nat.le_trans hhigh (by decide)
    exact absurd (hs ▸ List.mem_cons_self) (notMem_toDigits hlow hhigh hplus n)
  · exact digits?_toDigits hlow hhigh n

end Written

theorem integer?_decimal (v : Int) : integer? (decimal v) = some v := by
  cases v with
  | ofNat n =>
    rw [decimal]
    unfold integer?
    split
    · rename_i s hs
      exact absurd (hs ▸ List.mem_cons_self)
        (notMem_toDigits (by omega) (by omega) (by decide : 10 ≤ digitValue '-') n)
    · rw [natural?_toDigits (by omega) (by omega)]
      rfl
  | negSucc n =>
    rw [decimal, integer?, digits?_toDigits (by omega) (by omega)]
    simp [Int.negSucc_eq]

/-- Apart from its sign a written number holds decimal digits only. -/
theorem eq_or_digitValue_lt_of_mem_decimal {v : Int} {c : Char} (h : c ∈ decimal v) :
    c = '-' ∨ digitValue c < 10 := by
  cases v with
  | ofNat n => exact Or.inr (digitValue_lt_of_mem_toDigits (by omega) (by omega) h)
  | negSucc n =>
    rcases List.mem_cons.mp h with rfl | h
    · exact Or.inl rfl
    · exact Or.inr (digitValue_lt_of_mem_toDigits (by omega) (by omega) h)

theorem word?_toDigits {base : Nat} (hlow : 1 < base) (hhigh : base ≤ 16) (w : UInt32) :
    word? base (Nat.toDigits base w.toNat) = some w := by
  have hw : w.toNat < UInt32.size := w.toNat_lt
  simp [word?, natural?_toDigits hlow hhigh, hw]

end ConstantCatalog.Text

namespace ConstantCatalog.BlockText.Literal
set_option autoImplicit false
open Text

theorem pattern_eq (v : Int32) : pattern v = '0' :: 'x' :: Nat.toDigits 16 v.toUInt32.toNat := by
  simp [pattern, hexadecimal]

theorem read?_pattern (v : Int32) : read? (pattern v) = some v := by
  rw [pattern_eq, read?, ofPattern?, word?_toDigits (by omega) (by omega)]
  simp

/-- A literal is made of signs, digits and the mark of its base. -/
theorem eq_or_digitValue_lt_of_ofPattern? {digits : List Char} {v : Int32}
    (h : ofPattern? digits = some v) : ∀ c ∈ digits, c = '+' ∨ digitValue c < 16 := by
  obtain ⟨w, hw, -⟩ := Option.map_eq_some_iff.mp h
  obtain ⟨n, hn, -⟩ := Option.bind_eq_some_iff.mp hw
  exact eq_or_digitValue_lt_of_natural? hn

theorem eq_or_digitValue_lt_of_ofDecimal? {text : List Char} {v : Int32}
    (h : ofDecimal? text = some v) : ∀ c ∈ text, c = '-' ∨ c = '+' ∨ digitValue c < 10 := by
  obtain ⟨n, hn, -⟩ := Option.bind_eq_some_iff.mp h
  exact eq_or_digitValue_lt_of_integer? hn

/-- A literal is made of signs, digits and the mark of its base, which is itself a digit of a higher
base. -/
theorem eq_or_digitValue_lt_of_read? {text : List Char} {v : Int32} (h : read? text = some v) :
    ∀ c ∈ text, c = '-' ∨ c = '+' ∨ digitValue c < 36 := by
  have hpattern : ∀ {digits : List Char}, ofPattern? digits = some v →
      ∀ c ∈ digits, c = '-' ∨ c = '+' ∨ digitValue c < 36 := by
    intro digits hdigits c hc
    rcases eq_or_digitValue_lt_of_ofPattern? hdigits c hc with heq | hlt
    · exact Or.inr (Or.inl heq)
    · exact Or.inr (Or.inr (by omega))
  intro c hc
  unfold read? at h
  split at h
  · rcases hc with _ | ⟨_, _ | ⟨_, hc⟩⟩
    · exact Or.inr (Or.inr (by decide))
    · exact Or.inr (Or.inr (by decide))
    · exact hpattern h c hc
  · rcases hc with _ | ⟨_, _ | ⟨_, hc⟩⟩
    · exact Or.inr (Or.inr (by decide))
    · exact Or.inr (Or.inr (by decide))
    · exact hpattern h c hc
  · rcases eq_or_digitValue_lt_of_ofDecimal? h c hc with heq | heq | hlt
    · exact Or.inl heq
    · exact Or.inr (Or.inl heq)
    · exact Or.inr (Or.inr (by omega))

theorem ofDecimal?_decimal (v : Int32) : ofDecimal? (decimal v) = some v := by
  have hlow : Int32.minValue.toInt ≤ v.toInt := v.le_toInt
  have hhigh : v.toInt ≤ Int32.maxValue.toInt := v.toInt_le
  rw [ofDecimal?, decimal, integer?_decimal, Option.bind_some, if_pos ⟨hlow, hhigh⟩,
    Int32.ofInt_toInt]

theorem read?_decimal (v : Int32) : read? (decimal v) = some v := by
  have hmark : ∀ c, 10 ≤ digitValue c → c ≠ '-' → c ∉ decimal v := by
    intro c hc hne hmem
    rcases eq_or_digitValue_lt_of_mem_decimal hmem with heq | hlt
    · exact hne heq
    · omega
  unfold read?
  split
  · rename_i s hs
    exact absurd (hs ▸ by simp) (hmark 'x' (by decide) (by decide))
  · rename_i s hs
    exact absurd (hs ▸ by simp) (hmark 'X' (by decide) (by decide))
  · exact ofDecimal?_decimal v

end ConstantCatalog.BlockText.Literal
