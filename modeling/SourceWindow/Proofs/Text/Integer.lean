import SourceWindow.Proofs.Text.Trimming
import SourceWindow.Text.Integer

set_option autoImplicit false

namespace SourceWindow

namespace Text

def IsNumeral (t : Text) : Prop := t ≠ [] ∧ ∀ c ∈ t, c.isDigit = true

def numeralValue (digits : Text) : Nat := Nat.ofDigitChars 10 digits 0

theorem isNumeral_decimal (n : Nat) : IsNumeral (decimal n) :=
  ⟨Nat.toDigits_ne_nil, fun _ hc => Nat.isDigit_of_mem_toDigits (by decide) (by decide) hc⟩

theorem numeralValue_decimal (n : Nat) : numeralValue (decimal n) = n :=
  Nat.ofDigitChars_toDigits (by decide) (by decide)

theorem IsNumeral.head_ne_sign {c : Char} {t : Text} (h : IsNumeral (c :: t)) :
    c ≠ '+' ∧ c ≠ '-' := by
  have hc := h.2 c List.mem_cons_self
  constructor
  · rintro rfl
    cases hc
  · rintro rfl
    cases hc

theorem le_ofDigitChars (digits : Text) (n : Nat) : n ≤ Nat.ofDigitChars 10 digits n := by
  induction digits generalizing n with
  | nil => simp
  | cons c digits ih =>
    rw [Nat.ofDigitChars_cons]
    have hle := ih (10 * n + (c.toNat - '0'.toNat))
    omega

def signedDecimal : Int → Text
  | .ofNat n => decimal n
  | .negSucc n => '-' :: decimal (n + 1)

theorem signedDecimal_ne_nil (v : Int) : signedDecimal v ≠ [] := by
  cases v with
  | ofNat n => exact (isNumeral_decimal n).1
  | negSucc n => exact List.cons_ne_nil _ _

theorem isVisible_of_mem_decimal {n : Nat} {c : Char} (h : c ∈ decimal n) : IsVisible c :=
  isVisible_of_isDigit ((isNumeral_decimal n).2 c h)

theorem isVisible_of_mem_signedDecimal {v : Int} {c : Char} (h : c ∈ signedDecimal v) :
    IsVisible c := by
  cases v with
  | ofNat n => exact isVisible_of_mem_decimal h
  | negSucc n =>
    rcases List.mem_cons.1 h with rfl | h
    · exact ⟨by decide, by decide⟩
    · exact isVisible_of_mem_decimal h

end Text

namespace IntegerRange
open Text

def Contains (r : IntegerRange) (v : Int) : Prop := r.least ≤ v ∧ v ≤ r.greatest

instance (r : IntegerRange) (v : Int) : Decidable (r.Contains v) :=
  inferInstanceAs (Decidable (_ ∧ _))

/-- The text is a number of the range in decimal digits, with or without a sign before them. A minus
sign is one only where the range has negative numbers. -/
inductive Denotes (r : IntegerRange) : Text → Int → Prop where
  | bare {digits : Text} : IsNumeral digits → r.Contains digits.numeralValue →
      Denotes r digits digits.numeralValue
  | plus {digits : Text} : IsNumeral digits → r.Contains digits.numeralValue →
      Denotes r ('+' :: digits) digits.numeralValue
  | minus {digits : Text} : IsNumeral digits → r.least < 0 → r.Contains (-digits.numeralValue) →
      Denotes r ('-' :: digits) (-digits.numeralValue)

theorem Denotes.contains {r : IntegerRange} {t : Text} {v : Int} (h : r.Denotes t v) :
    r.Contains v := by
  cases h with
  | bare _ hv => exact hv
  | plus _ hv => exact hv
  | minus _ _ hv => exact hv

theorem digit?_of_isDigit {c : Char} (h : c.isDigit = true) :
    digit? c = some ((c.toNat - '0'.toNat : Nat) : Int) := by
  simp only [Char.isDigit, Bool.and_eq_true, decide_eq_true_eq] at h
  exact if_pos h

theorem digit?_of_not_isDigit {c : Char} (h : ¬ c.isDigit = true) : digit? c = none := by
  simp only [Char.isDigit, Bool.and_eq_true, decide_eq_true_eq] at h
  exact if_neg h

variable {r : IntegerRange}

theorem readUp_eq_ok_iff {t : Text} {n : Nat} {v : Int} (h : n ≤ r.greatest) :
    r.readUp n t = .ok v ↔
      (∀ c ∈ t, c.isDigit = true) ∧ (Nat.ofDigitChars 10 t n : Int) = v ∧ v ≤ r.greatest := by
  induction t generalizing n with
  | nil =>
    simp only [readUp, Except.ok.injEq, Nat.ofDigitChars_nil, List.not_mem_nil, false_implies,
      implies_true, true_and]
    omega
  | cons c t ih =>
    rw [readUp, List.forall_mem_cons, Nat.ofDigitChars_cons]
    by_cases hc : c.isDigit = true
    · rw [digit?_of_isDigit hc]
      by_cases hle : 10 * (n : Int) + (c.toNat - '0'.toNat : Nat) ≤ r.greatest
      · have hnext := @ih (10 * n + (c.toNat - '0'.toNat)) (by omega)
        push_cast at hnext
        simp only [hle, if_true, hc, true_and]
        exact hnext
      · -- No further digit brings the number back.
        have hgrows := le_ofDigitChars t (10 * n + (c.toNat - '0'.toNat))
        simp only [hle, if_false, reduceCtorEq, false_iff]
        omega
    · simp [digit?_of_not_isDigit hc, hc]

def opposite (r : IntegerRange) : IntegerRange := ⟨-r.greatest, -r.least⟩

theorem readDown_eq_ok_iff {t : Text} {n v : Int} :
    r.readDown n t = .ok v ↔ r.opposite.readUp (-n) t = .ok (-v) := by
  induction t generalizing n with
  | nil => simp [readDown, readUp]
  | cons c t ih =>
    rw [readDown, readUp]
    cases digit? c with
    | none => simp
    | some d =>
      have hnext : -(10 * n - d) = 10 * -n + d := by omega
      have hiff : r.least ≤ 10 * n - d ↔ 10 * -n + d ≤ r.opposite.greatest := by
        simp only [opposite]
        omega
      by_cases hle : r.least ≤ 10 * n - d
      · simp only [hle, hiff.1 hle, if_true, ih, hnext]
      · simp only [hle, mt hiff.2 hle, if_false, reduceCtorEq]

theorem readUp_zero_eq_ok_iff (hr : r.Contains 0) {t : Text} (ht : t ≠ []) {v : Int} :
    r.readUp 0 t = .ok v ↔ IsNumeral t ∧ (t.numeralValue : Int) = v ∧ r.Contains v := by
  have hread : r.readUp 0 t = .ok v ↔ _ := @readUp_eq_ok_iff r t 0 v hr.2
  have hleast := hr.1
  rw [hread, IsNumeral, Contains]
  constructor
  · intro h
    obtain ⟨hdigits, rfl, hle⟩ := h
    exact ⟨⟨ht, hdigits⟩, rfl, by omega, hle⟩
  · intro h
    exact ⟨h.1.2, h.2.1, h.2.2.2⟩

theorem readDown_zero_eq_ok_iff (hr : r.Contains 0) {t : Text} (ht : t ≠ []) {v : Int} :
    r.readDown 0 t = .ok v ↔ IsNumeral t ∧ -(t.numeralValue : Int) = v ∧ r.Contains v := by
  have hopposite (n : Int) : r.opposite.Contains n ↔ r.Contains (-n) := by
    simp only [opposite, Contains]
    omega
  rw [readDown_eq_ok_iff, Int.neg_zero, readUp_zero_eq_ok_iff ((hopposite 0).2 hr) ht, hopposite,
    Int.neg_neg]
  exact and_congr_right fun _ => and_congr_left fun _ => by omega

theorem read_plus {t : Text} (ht : t ≠ []) : r.read ('+' :: t) = r.readUp 0 t := by
  cases t with
  | nil => exact absurd rfl ht
  | cons c t => rfl

theorem read_minus {t : Text} (ht : t ≠ []) :
    r.read ('-' :: t) = if r.least < 0 then r.readDown 0 t else .error .invalidDigit := by
  cases t with
  | nil => exact absurd rfl ht
  | cons c t => rfl

theorem read_bare {c : Char} (hplus : c ≠ '+') (hminus : c ≠ '-') (t : Text) :
    r.read (c :: t) = r.readUp 0 (c :: t) := by
  simp [read, hplus, hminus]

theorem Denotes.read_eq_ok (hr : r.Contains 0) {t : Text} {v : Int} (h : r.Denotes t v) :
    r.read t = .ok v := by
  cases h with
  | bare hdigits hv =>
    cases t with
    | nil => exact absurd rfl hdigits.1
    | cons c t =>
      rw [read_bare hdigits.head_ne_sign.1 hdigits.head_ne_sign.2]
      exact (readUp_zero_eq_ok_iff hr hdigits.1).2 ⟨hdigits, rfl, hv⟩
  | plus hdigits hv =>
    rw [read_plus hdigits.1]
    exact (readUp_zero_eq_ok_iff hr hdigits.1).2 ⟨hdigits, rfl, hv⟩
  | minus hdigits hneg hv =>
    rw [read_minus hdigits.1, if_pos hneg]
    exact (readDown_zero_eq_ok_iff hr hdigits.1).2 ⟨hdigits, rfl, hv⟩

theorem denotes_of_read (hr : r.Contains 0) {t : Text} {v : Int} (h : r.read t = .ok v) :
    r.Denotes t v := by
  cases t with
  | nil => cases h
  | cons c t =>
    by_cases hplus : c = '+'
    · subst hplus
      by_cases ht : t = []
      · subst ht
        cases h
      · rw [read_plus ht] at h
        obtain ⟨hdigits, rfl, hv⟩ := (readUp_zero_eq_ok_iff hr ht).1 h
        exact .plus hdigits hv
    · by_cases hminus : c = '-'
      · subst hminus
        by_cases ht : t = []
        · subst ht
          cases h
        · rw [read_minus ht] at h
          by_cases hneg : r.least < 0
          · rw [if_pos hneg] at h
            obtain ⟨hdigits, rfl, hv⟩ := (readDown_zero_eq_ok_iff hr ht).1 h
            exact .minus hdigits hneg hv
          · rw [if_neg hneg] at h
            cases h
      · rw [read_bare hplus hminus] at h
        obtain ⟨hdigits, rfl, hv⟩ := (readUp_zero_eq_ok_iff hr (by simp)).1 h
        exact .bare hdigits hv

theorem read_eq_ok_iff (hr : r.Contains 0) {t : Text} {v : Int} :
    r.read t = .ok v ↔ r.Denotes t v :=
  ⟨denotes_of_read hr, Denotes.read_eq_ok hr⟩

theorem denotes_decimal {n : Nat} (h : r.Contains n) : r.Denotes (decimal n) n := by
  have hn : (numeralValue (decimal n) : Int) = n := congrArg Int.ofNat (numeralValue_decimal n)
  have hbare := Denotes.bare (isNumeral_decimal n) (hn.symm ▸ h)
  rwa [hn] at hbare

theorem denotes_signedDecimal {v : Int} (h : r.Contains v) : r.Denotes (signedDecimal v) v := by
  cases v with
  | ofNat n => exact denotes_decimal h
  | negSucc n =>
    have hn : -(numeralValue (decimal (n + 1)) : Int) = Int.negSucc n := by
      rw [numeralValue_decimal]
      rfl
    have hleast := h.1
    have hminus := Denotes.minus (isNumeral_decimal (n + 1)) (by omega) (hn.symm ▸ h)
    rwa [hn] at hminus

end IntegerRange
end SourceWindow
