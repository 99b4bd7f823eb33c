import SourceWindow.Text.Blank

set_option autoImplicit false

namespace SourceWindow

def IsVisible (c : Char) : Prop := 0x20 < c.toNat ∧ c.toNat < 0x7F

instance : DecidablePred IsVisible := fun _ => inferInstanceAs (Decidable (_ ∧ _))

theorem IsVisible.isBlank_eq {c : Char} (h : IsVisible c) : isBlank c = false := by
  unfold IsVisible at h
  simp only [isBlank, Bool.or_eq_false_iff, Bool.and_eq_false_iff, decide_eq_false_iff_not,
    beq_eq_false_iff_ne]
  omega

theorem isVisible_of_isDigit {c : Char} (h : c.isDigit = true) : IsVisible c := by
  simp only [Char.isDigit, Bool.and_eq_true, decide_eq_true_eq, ge_iff_le,
    UInt32.le_iff_toNat_le] at h
  have hzero : '0'.val.toNat = 48 := rfl
  have hnine : '9'.val.toNat = 57 := rfl
  simp only [IsVisible, Char.toNat]
  omega

theorem isVisible_of_toLower {c : Char} (h : IsVisible c.toLower) : IsVisible c := by
  unfold Char.toLower at h
  split at h
  · rename_i hupper
    simp only [UInt32.le_iff_toNat_le, ge_iff_le] at hupper
    have hfirst : 'A'.val.toNat = 65 := rfl
    have hlast : 'Z'.val.toNat = 90 := rfl
    simp only [IsVisible, Char.toNat]
    omega
  · exact h

namespace Text

/-- The second text is the first with white space before and behind it, or with none. -/
def Padded (t padded : Text) : Prop :=
  ∃ before behind : Text, padded = before ++ t ++ behind ∧ (∀ c ∈ before, isBlank c = true) ∧
    ∀ c ∈ behind, isBlank c = true

theorem trimStart_append {before t : Text} (hbefore : ∀ c ∈ before, isBlank c = true)
    (ht : ∀ c ∈ t.head?, isBlank c = false) : trimStart (before ++ t) = t := by
  rw [trimStart, List.dropWhile_append_of_pos hbefore]
  cases t with
  | nil => rfl
  | cons c t => rw [List.dropWhile_cons_of_neg (by simpa using ht)]

theorem trimEnd_append {t behind : Text} (hbehind : ∀ c ∈ behind, isBlank c = true)
    (ht : ∀ c ∈ t.getLast?, isBlank c = false) : trimEnd (t ++ behind) = t := by
  have hreverse := @trimStart_append behind.reverse t.reverse (by simpa using hbehind)
    (by simpa using ht)
  rw [trimStart] at hreverse
  rw [trimEnd, List.reverse_append, hreverse, List.reverse_reverse]

theorem Padded.trim_eq {t padded : Text} (h : Padded t padded) (ht : t ≠ [])
    (hvisible : ∀ c ∈ t, IsVisible c) : padded.trim = t := by
  obtain ⟨before, behind, rfl, hbefore, hbehind⟩ := h
  have hfirst : ∀ c ∈ (t ++ behind).head?, isBlank c = false := by
    cases t with
    | nil => exact absurd rfl ht
    | cons d t => simpa using (hvisible d List.mem_cons_self).isBlank_eq
  rw [trim, List.append_assoc, trimStart_append hbefore hfirst,
    trimEnd_append hbehind fun c hc => (hvisible c (List.mem_of_getLast? hc)).isBlank_eq]

theorem padded_self (t : Text) : Padded t t := ⟨[], [], by simp, by simp, by simp⟩

end Text
end SourceWindow
