import Cairoscope.Text.Numeral

/-! Decimal numerals tell numbers apart. -/

namespace Cairoscope.Text

theorem toDigits_inj {m n : Nat} (h : Nat.toDigits 10 m = Nat.toDigits 10 n) : m = n := by
  have hm := @Nat.ofDigitChars_toDigits 10 m (by decide) (by decide)
  have hn := @Nat.ofDigitChars_toDigits 10 n (by decide) (by decide)
  rw [← hm, h, hn]

theorem toList_toString (n : Nat) : (toString n).toList = Nat.toDigits 10 n := Nat.toList_repr

theorem toString_inj {m n : Nat} (h : toString m = toString n) : m = n := by
  apply toDigits_inj
  rw [← toList_toString, ← toList_toString, h]

theorem toString_head (n : Nat) : ∃ c, (toString n).toList.head? = some c ∧ c.isDigit = true := by
  rw [toList_toString]
  cases hn : Nat.toDigits 10 n with
  | nil => exact absurd hn Nat.toDigits_ne_nil
  | cons c rest =>
    exact ⟨c, rfl, Nat.isDigit_of_mem_toDigits (by decide) (by decide) (hn ▸ List.mem_cons_self)⟩

/-- A numeral starts with a digit or with a minus sign. -/
theorem decimal_head (n : Int) : ∃ c, (decimal n).toList.head? = some c ∧ (c.isDigit = true ∨ c = '-') := by
  cases n with
  | ofNat m =>
    obtain ⟨c, hc, hdigit⟩ := toString_head m
    exact ⟨c, hc, Or.inl hdigit⟩
  | negSucc m =>
    refine ⟨'-', ?_, Or.inr rfl⟩
    change ("-" ++ toString (m + 1)).toList.head? = _
    rw [String.toList_append]
    rfl

theorem decimal_ofNat_ne_negSucc (m n : Nat) : decimal (Int.ofNat m) ≠ decimal (Int.negSucc n) := by
  intro h
  obtain ⟨c, hc, hdigit⟩ := toString_head m
  change toString m = "-" ++ toString (n + 1) at h
  rw [h, String.toList_append] at hc
  obtain rfl : '-' = c := Option.some.inj hc
  cases hdigit

theorem decimal_inj {m n : Int} (h : decimal m = decimal n) : m = n := by
  cases m with
  | ofNat m =>
    cases n with
    | ofNat n => rw [toString_inj h]
    | negSucc n => exact absurd h (decimal_ofNat_ne_negSucc m n)
  | negSucc m =>
    cases n with
    | ofNat n => exact absurd h.symm (decimal_ofNat_ne_negSucc n m)
    | negSucc n =>
      change "-" ++ toString (m + 1) = "-" ++ toString (n + 1) at h
      have hsame := toString_inj (String.append_right_inj _ |>.1 h)
      rw [Nat.succ.inj hsame]

end Cairoscope.Text
