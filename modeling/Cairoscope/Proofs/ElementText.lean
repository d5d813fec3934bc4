import Cairoscope.Proofs.JumpTargets
import Cairoscope.Proofs.NumberReading

/-! The text of a field element. Whichever of the three forms it has, the number that is read from it stands for
the element modulo the prime, so elements are told apart by their texts. -/

namespace Cairoscope

def Text.readNumber? (s : String) : Option Int := (readInt? 10 s).or (readInt? 16 s)

namespace Field

theorem Numeral.readNumber?_text (n : Numeral) : Text.readNumber? n.text = some n.value := by
  unfold Text.readNumber?
  cases n with
  | decimal k => rw [Numeral.text, Text.readInt?_decimal]; rfl
  | hex k => rw [Numeral.text, Text.readInt?_ten_hexadecimal, Text.readInt?_hexadecimal]; rfl

/-- An element is a small number exactly when its text is one in decimal. -/
theorem Numeral.readInt?_text (n : Numeral) : Text.readInt? 10 n.text = n.small.toOption := by
  cases n with
  | decimal k => exact Text.readInt?_decimal k
  | hex k => exact Text.readInt?_ten_hexadecimal k

theorem IsRepresentative.eq {prime m c c' : Int} (h : IsRepresentative prime m c)
    (h' : IsRepresentative prime m c') : c = c' := by
  have hsame : IsRepresentative prime c c' := ⟨h'.congruent.trans h.congruent.symm, h'.near⟩
  exact hsame.eq_iff.2 h.near

/-- The numeral of an element, by how far its representative is from zero. -/
theorem numeral_of_representative {prime val c : Int} (hprime : 0 < prime)
    (hc : IsRepresentative prime val c) :
    numeral val prime = .ok (if c.natAbs < decimalBound then .decimal c
      else if c.natAbs < signedBound then .hex c else .hex val) := by
  obtain ⟨k, hcentered, hk⟩ := exists_representative hprime val
  obtain rfl := hc.eq hk
  unfold numeral
  rw [hcentered]
  change (if _ then _ else _) = _
  split_ifs <;> rfl

/-- Of two elements with the same text each stands for the other. -/
theorem modEq_of_text {prime v w : Int} {s : String} (hv : text v prime = .ok s)
    (hw : text w prime = .ok s) : v ≡ w [ZMOD prime] := by
  obtain ⟨m, hm, hmtext⟩ := Outcome.bind_eq_ok.1 hv
  obtain ⟨n, hn, hntext⟩ := Outcome.bind_eq_ok.1 hw
  have htexts : m.text = n.text := (Outcome.pure_eq_ok.1 hmtext).trans (Outcome.pure_eq_ok.1 hntext).symm
  have hvalues : m.value = n.value := by
    have hread := m.readNumber?_text
    rw [htexts, n.readNumber?_text] at hread
    exact (Option.some.inj hread).symm
  exact (modEq_of_numeral hm).symm.trans (hvalues ▸ modEq_of_numeral hn)

/-- Every element has a text, and the number in it is the element modulo the prime. It is written in decimal
exactly when the representative nearest to zero is less than 2 to the 40 away from it, and then it is that
representative; otherwise it is in hexadecimal. Two elements of the field with one text are the same. -/
theorem text_denotes (val prime : Int) (hprime : 0 < prime) :
    ∃ s, text val prime = .ok s ∧
      (∃ n, Text.readNumber? s = some n ∧ n ≡ val [ZMOD prime]) ∧
      (∃! c, IsRepresentative prime val c) ∧
      (∀ c, IsRepresentative prime val c →
        ((Text.readInt? 10 s).isSome ↔ c.natAbs < 2 ^ 40) ∧
        (c.natAbs < 2 ^ 40 → s = Text.decimal c) ∧
        (2 ^ 40 ≤ c.natAbs → ∃ n, s = Text.hexadecimal n)) ∧
      (0 ≤ val → val < prime → ∀ w, 0 ≤ w → w < prime → text w prime = .ok s → w = val) := by
  obtain ⟨c, -, hc⟩ := exists_representative hprime val
  have hnumeral := numeral_of_representative hprime hc
  generalize hn : (if c.natAbs < decimalBound then Numeral.decimal c
      else if c.natAbs < signedBound then .hex c else .hex val) = n at hnumeral
  have htext : text val prime = .ok n.text := by
    unfold text
    rw [hnumeral]
    rfl
  refine ⟨n.text, htext, ⟨n.value, n.readNumber?_text, modEq_of_numeral hnumeral⟩,
    ⟨c, hc, fun c' hc' => hc'.eq hc⟩, ?_, ?_⟩
  · intro c' hc'
    obtain rfl := hc.eq hc'
    have hbound : decimalBound = 2 ^ 40 := by decide
    rw [hbound] at hn
    rw [n.readInt?_text]
    subst hn
    by_cases hnear : c.natAbs < 2 ^ 40
    · rw [if_pos hnear]
      exact ⟨iff_of_true rfl hnear, fun _ => rfl, fun hfar => absurd hnear (Nat.not_lt.2 hfar)⟩
    · rw [if_neg hnear]
      split_ifs
      · exact ⟨iff_of_false (by simp [Numeral.small, Except.toOption]) hnear, fun h => absurd h hnear,
          fun _ => ⟨c, rfl⟩⟩
      · exact ⟨iff_of_false (by simp [Numeral.small, Except.toOption]) hnear, fun h => absurd h hnear,
          fun _ => ⟨val, rfl⟩⟩
  · intro hlower hupper w hwlower hwupper hw
    exact eq_of_modEq (modEq_of_text hw htext) ⟨hwlower, hwupper⟩ ⟨hlower, hupper⟩

/-- Close below the prime, and 2 to the 40 below it. -/
theorem text_denotes_below_prime :
    text (defaultPrime - 1) defaultPrime = .ok "-1" ∧
      text (defaultPrime - 0x10000000000) defaultPrime = .ok "-0x10000000000" ∧
      (∃ n, Text.readNumber? "-1" = some n ∧ n ≡ defaultPrime - 1 [ZMOD defaultPrime]) ∧
      ∃ n, Text.readNumber? "-0x10000000000" = some n ∧
        n ≡ defaultPrime - 0x10000000000 [ZMOD defaultPrime] := by
  have hone : text (defaultPrime - 1) defaultPrime = .ok "-1" := by decide +kernel
  have hfar : text (defaultPrime - 0x10000000000) defaultPrime = .ok "-0x10000000000" := by
    decide +kernel
  obtain ⟨s, hs, hread, -⟩ := text_denotes (defaultPrime - 1) defaultPrime (by decide)
  obtain ⟨t, ht, hread', -⟩ := text_denotes (defaultPrime - 0x10000000000) defaultPrime (by decide)
  obtain rfl : "-1" = s := Except.ok.inj (hone.symm.trans hs)
  obtain rfl : "-0x10000000000" = t := Except.ok.inj (hfar.symm.trans ht)
  exact ⟨hone, hfar, hread, hread'⟩

end Field

end Cairoscope
