import Cairoscope.Proofs.Numerals
import Mathlib.Data.List.TakeWhile
import Mathlib.Tactic.Common

/-! Numbers read back. A number that is written in decimal or in hexadecimal, with its sign, is read as that
number, and a hexadecimal one is no decimal number. -/

namespace Cairoscope.Text

theorem exists_digit_of_mem_toDigits {base n : Nat} {c : Char} (hbase : 1 < base)
    (h : c ∈ Nat.toDigits base n) : ∃ d < base, Nat.digitChar d = c := by
  induction n using Nat.strongRecOn with
  | _ n ih =>
    rw [Nat.toDigits_eq_if hbase] at h
    split_ifs at h with hn
    · exact ⟨n, hn, (List.mem_singleton.1 h).symm⟩
    · rcases List.mem_append.1 h with h | h
      · exact ih (n / base) (Nat.div_lt_self (by omega) hbase) h
      · exact ⟨n % base, Nat.mod_lt _ (by omega), (List.mem_singleton.1 h).symm⟩

theorem digitIn?_digitChar {base d : Nat} (hd : d < base) (hbase : base ≤ 16) :
    digitIn? base (Nat.digitChar d) = some d := by
  have hsixteen : ∀ k < 16, digitIn? 16 (Nat.digitChar k) = some k := by decide
  have hlt : d < 16 := Nat.lt_of_lt_of_le hd hbase
  have hvalue := hsixteen d hlt
  unfold digitIn? at hvalue ⊢
  exact Option.filter_eq_some_iff.2 ⟨(Option.filter_eq_some_iff.1 hvalue).1, decide_eq_true hd⟩

/-- One more digit at the end counts once, and the digits before it `base` times. -/
theorem digitsFrom_concat {base d w : Nat} {c : Char} (hc : c ≠ '_') (hd : digitIn? base c = some d)
    {cs : List Char} {value : Nat} {fresh : Bool} (h : digitsFrom base value fresh cs = some w) :
    digitsFrom base value fresh (cs ++ [c]) = some (w * base + d) := by
  induction cs generalizing value fresh with
  | nil =>
    simp only [digitsFrom] at h
    split_ifs at h
    obtain rfl := Option.some.inj h
    simp [digitsFrom, hc, hd]
  | cons a cs ih =>
    simp only [digitsFrom, List.cons_append] at h ⊢
    split_ifs at h ⊢
    · exact ih h
    · cases ha : digitIn? base a with
      | none => simp [ha] at h
      | some k =>
        simp only [ha] at h ⊢
        exact ih h

theorem digitsFrom_toDigits {base : Nat} (hbase : 1 < base) (hle : base ≤ 16) (n : Nat) :
    digitsFrom base 0 true (Nat.toDigits base n) = some n := by
  have hmark : ∀ d < 16, Nat.digitChar d ≠ '_' := by decide
  induction n using Nat.strongRecOn with
  | _ n ih =>
    rw [Nat.toDigits_eq_if hbase]
    split_ifs with hn
    · simp [digitsFrom, hmark n (by omega), digitIn?_digitChar hn hle]
    · have hmod : n % base < base := Nat.mod_lt _ (by omega)
      have hfront := ih (n / base) (Nat.div_lt_self (by omega) hbase)
      rw [digitsFrom_concat (hmark _ (by omega)) (digitIn?_digitChar hmod hle) hfront,
        Nat.div_add_mod']

/-- The character stands for itself in a number, and is no blank around one. -/
def isPlain (c : Char) : Bool := decide (c.toNat < 127) && !isNumberBlank c

theorem isPlain_of_mem_toDigits {base n : Nat} {c : Char} (hbase : 1 < base) (hle : base ≤ 16)
    (h : c ∈ Nat.toDigits base n) : isPlain c = true := by
  have hplain : ∀ d < 16, isPlain (Nat.digitChar d) = true := by decide
  obtain ⟨d, hd, rfl⟩ := exists_digit_of_mem_toDigits hbase h
  exact hplain d (by omega)

theorem readInt?_of_plain {base : Nat} {s : String} {negative : Bool} {body : List Char}
    (hplain : ∀ c ∈ s.toList, isPlain c = true) (hsign : splitSign s.toList = (negative, body)) :
    readInt? base s = (digitsFrom base 0 true (if base = 16 then dropBaseMark body else body)).map
      fun n : Nat => if negative then -(n : Int) else (n : Int) := by
  have hchars : ∀ c ∈ s.toList, plainForm c = c ∧ isNumberBlank c = false := by
    intro c hc
    have h := hplain c hc
    simp only [isPlain, Bool.and_eq_true, decide_eq_true_eq, Bool.not_eq_true'] at h
    exact ⟨if_pos h.1, h.2⟩
  have hforms : s.toList.map plainForm = s.toList := by
    rw [List.map_congr_left fun c hc => (hchars c hc).1, List.map_id']
  have hinner : ((s.toList.dropWhile isNumberBlank).reverse.dropWhile isNumberBlank).reverse =
      s.toList := by
    rw [List.dropWhile_eq_self_iff.2 fun _ => Bool.eq_false_iff.1 (hchars _ (List.getElem_mem _)).2,
      List.dropWhile_eq_self_iff.2 fun _ =>
        Bool.eq_false_iff.1 (hchars _ (List.mem_reverse.1 (List.getElem_mem _))).2, List.reverse_reverse]
  unfold readInt?
  simp only [hforms, hinner, hsign]
  cases digitsFrom base 0 true (if base = 16 then dropBaseMark body else body) with
  | none => rfl
  | some n => rfl

def signChars (n : Int) : List Char := if n < 0 then ['-'] else []

theorem isPlain_of_mem_signChars {n : Int} {c : Char} (h : c ∈ signChars n) : isPlain c = true := by
  unfold signChars at h
  split_ifs at h
  · obtain rfl := List.mem_singleton.1 h
    rfl
  · cases h

theorem splitSign_of_digit {c : Char} {cs : List Char} (hminus : c ≠ '-') (hplus : c ≠ '+') :
    splitSign (c :: cs) = (false, c :: cs) := by
  unfold splitSign
  split
  · rename_i heq
    exact absurd (List.cons.inj heq).1 hminus
  · rename_i heq
    exact absurd (List.cons.inj heq).1 hplus
  · rfl

theorem splitSign_signChars (n : Int) {c : Char} {cs : List Char} (hminus : c ≠ '-') (hplus : c ≠ '+') :
    splitSign (signChars n ++ c :: cs) = (decide (n < 0), c :: cs) := by
  unfold signChars
  split_ifs with hn
  · rw [decide_eq_true hn]
    rfl
  · rw [decide_eq_false hn]
    exact splitSign_of_digit hminus hplus

/-- The sign and the distance from zero make up the number. -/
theorem signed_natAbs (n : Int) : (if decide (n < 0) then -(n.natAbs : Int) else (n.natAbs : Int)) = n := by
  simp only [decide_eq_true_eq]
  split_ifs <;> omega

theorem toDigits_eq_cons (base : Nat) (hbase : 1 < base) (hle : base ≤ 16) (n : Nat) :
    ∃ c cs, Nat.toDigits base n = c :: cs ∧ c ≠ '-' ∧ c ≠ '+' ∧ c ≠ '_' := by
  have hdigit : ∀ d < 16, Nat.digitChar d ≠ '-' ∧ Nat.digitChar d ≠ '+' ∧ Nat.digitChar d ≠ '_' := by
    decide
  obtain ⟨c, cs, hcs⟩ := List.exists_cons_of_ne_nil (Nat.toDigits_ne_nil (b := base) (n := n))
  obtain ⟨d, hd, rfl⟩ := exists_digit_of_mem_toDigits hbase (hcs ▸ List.mem_cons_self)
  exact ⟨_, cs, hcs, hdigit d (by omega)⟩

theorem toList_decimal (n : Int) : (decimal n).toList = signChars n ++ Nat.toDigits 10 n.natAbs := by
  cases n with
  | ofNat m =>
    change (toString m).toList = _
    rw [toList_toString, signChars, if_neg (by simp)]
    rfl
  | negSucc m =>
    change ("-" ++ toString (m + 1)).toList = _
    rw [String.toList_append, toList_toString, signChars, if_pos (by simp)]
    rfl

theorem toList_hexadecimal (n : Int) :
    (hexadecimal n).toList = signChars n ++ '0' :: 'x' :: Nat.toDigits 16 n.natAbs := by
  unfold hexadecimal hexDigits signChars
  split_ifs <;> simp

theorem isPlain_of_mem_decimal {n : Int} {c : Char} (h : c ∈ (decimal n).toList) : isPlain c = true := by
  rw [toList_decimal] at h
  rcases List.mem_append.1 h with h | h
  · exact isPlain_of_mem_signChars h
  · exact isPlain_of_mem_toDigits (by decide) (by decide) h

theorem isPlain_of_mem_hexadecimal {n : Int} {c : Char} (h : c ∈ (hexadecimal n).toList) :
    isPlain c = true := by
  rw [toList_hexadecimal] at h
  rcases List.mem_append.1 h with h | h
  · exact isPlain_of_mem_signChars h
  · rcases List.mem_cons.1 h with rfl | h
    · rfl
    · rcases List.mem_cons.1 h with rfl | h
      · rfl
      · exact isPlain_of_mem_toDigits (by decide) (by decide) h

theorem readInt?_decimal (n : Int) : readInt? 10 (decimal n) = some n := by
  obtain ⟨c, cs, hcs, hminus, hplus, -⟩ := toDigits_eq_cons 10 (by decide) (by decide) n.natAbs
  have hsign : splitSign (decimal n).toList = (decide (n < 0), Nat.toDigits 10 n.natAbs) := by
    rw [toList_decimal, hcs]
    exact splitSign_signChars n hminus hplus
  rw [readInt?_of_plain (fun c hc => isPlain_of_mem_decimal hc) hsign, if_neg (by decide),
    digitsFrom_toDigits (by decide) (by decide), Option.map_some, signed_natAbs]

/-- A plus sign in front changes nothing. -/
theorem readInt?_plus {n : Int} (hn : 0 ≤ n) : readInt? 10 ("+" ++ decimal n) = some n := by
  have hlist : ("+" ++ decimal n).toList = '+' :: Nat.toDigits 10 n.natAbs := by
    rw [String.toList_append, toList_decimal, signChars, if_neg (by omega)]
    rfl
  have hplain : ∀ c ∈ ("+" ++ decimal n).toList, isPlain c = true := by
    intro c hc
    rw [hlist] at hc
    rcases List.mem_cons.1 hc with rfl | hc
    · rfl
    · exact isPlain_of_mem_toDigits (by decide) (by decide) hc
  have hsign : splitSign ("+" ++ decimal n).toList = (false, Nat.toDigits 10 n.natAbs) := by
    rw [hlist]
    rfl
  rw [readInt?_of_plain hplain hsign, if_neg (by decide), digitsFrom_toDigits (by decide) (by decide),
    Option.map_some, if_neg (by decide), Int.natAbs_of_nonneg hn]

theorem splitSign_hexadecimal (n : Int) :
    splitSign (hexadecimal n).toList = (decide (n < 0), '0' :: 'x' :: Nat.toDigits 16 n.natAbs) := by
  rw [toList_hexadecimal]
  exact splitSign_signChars n (by decide) (by decide)

theorem dropBaseMark_of_digit {c : Char} {cs : List Char} (hc : c ≠ '_') :
    dropBaseMark ('0' :: 'x' :: c :: cs) = c :: cs := by
  unfold dropBaseMark
  split
  · rename_i heq
    simp only [List.cons.injEq] at heq
    exact absurd heq.2.2.1 hc
  · rename_i heq
    simp at heq
  · rename_i heq
    simpa using heq.symm
  · rename_i heq
    simp at heq
  · rename_i hno _
    exact (hno _ rfl).elim

theorem readInt?_hexadecimal (n : Int) : readInt? 16 (hexadecimal n) = some n := by
  obtain ⟨c, cs, hcs, -, -, hmark⟩ := toDigits_eq_cons 16 (by decide) (by decide) n.natAbs
  have hdrop : dropBaseMark ('0' :: 'x' :: Nat.toDigits 16 n.natAbs) = Nat.toDigits 16 n.natAbs := by
    rw [hcs]
    exact dropBaseMark_of_digit hmark
  rw [readInt?_of_plain (fun c hc => isPlain_of_mem_hexadecimal hc) (splitSign_hexadecimal n),
    if_pos rfl, hdrop, digitsFrom_toDigits (by decide) (by decide), Option.map_some, signed_natAbs]

/-- The mark of base 16 is no decimal digit. -/
theorem readInt?_ten_hexadecimal (n : Int) : readInt? 10 (hexadecimal n) = none := by
  rw [readInt?_of_plain (fun c hc => isPlain_of_mem_hexadecimal hc) (splitSign_hexadecimal n),
    if_neg (by decide)]
  rfl

end Cairoscope.Text
