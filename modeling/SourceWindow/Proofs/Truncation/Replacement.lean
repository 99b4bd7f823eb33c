import SourceWindow.Proofs.Lines.Contents
import SourceWindow.Truncation

set_option autoImplicit false

namespace SourceWindow.Text

theorem unbroken_escapeBreaks (t : Text) : Unbroken (escapeBreaks t) := by
  intro c hc
  obtain ⟨d, -, hd⟩ := List.mem_flatMap.1 hc
  unfold IsTerminator
  split at hd
  · simp only [List.mem_cons, List.not_mem_nil, or_false] at hd
    rcases hd with rfl | rfl <;> decide
  · split at hd
    · simp only [List.mem_cons, List.not_mem_nil, or_false] at hd
      rcases hd with rfl | rfl <;> decide
    · rw [List.mem_singleton.1 hd]
      simp_all

/-- The first characters of a literal and the marker with its size. -/
def shownHead (literal : Text) : Text :=
  escapeBreaks (literal.take (previewLength + 1)) ++ ofString " ...[TRUNCATED "
    ++ decimal literal.size ++ ofString " CHARS]... "

def shownTail (literal : Text) : Text :=
  escapeBreaks (literal.drop (literal.length - (previewLength + 1)))

theorem escapeBreaks_append (a b : Text) :
    escapeBreaks (a ++ b) = escapeBreaks a ++ escapeBreaks b := by
  simp [escapeBreaks]

theorem truncated_eq {literal : Text} (h : literal ≠ []) :
    literal.truncated =
      shownHead literal ++ List.replicate literal.lineBreaks '\n' ++ shownTail literal := by
  cases literal with
  | nil => exact absurd rfl h
  | cons first rest =>
    have hhead : (first :: rest).take (previewLength + 1) = [first] ++ rest.take previewLength :=
      rfl
    have htail : (first :: rest).drop ((first :: rest).length - (previewLength + 1)) =
        (first :: rest).dropLast.drop ((first :: rest).length - (previewLength + 1)) ++
          [(first :: rest).getLast h] := by
      have hlen :
          (first :: rest).length - (previewLength + 1) ≤ (first :: rest).dropLast.length := by
        rw [List.length_dropLast]
        unfold previewLength
        omega
      rw [← List.drop_append_of_le_length hlen, List.dropLast_concat_getLast]
    rw [shownHead, shownTail, hhead, htail, escapeBreaks_append, escapeBreaks_append]
    simp only [truncated, List.append_assoc]

theorem unbroken_shownHead (literal : Text) : Unbroken (shownHead literal) := by
  unfold shownHead
  refine unbroken_append.2 ⟨unbroken_append.2 ⟨unbroken_append.2 ⟨?_, ?_⟩, ?_⟩, ?_⟩
  · exact unbroken_escapeBreaks _
  · decide
  · exact unbroken_decimal _
  · decide

theorem unbroken_shownTail (literal : Text) : Unbroken (shownTail literal) :=
  unbroken_escapeBreaks _

theorem shownHead_ne_nil (literal : Text) : shownHead literal ≠ [] := by
  simp [shownHead, ofString]

theorem escapeBreaks_ne_nil {t : Text} (h : t ≠ []) : escapeBreaks t ≠ [] := by
  cases t with
  | nil => exact absurd rfl h
  | cons c t =>
    rw [escapeBreaks, List.flatMap_cons]
    split
    · simp
    · split <;> simp

theorem shownTail_ne_nil {literal : Text} (h : literal ≠ []) : shownTail literal ≠ [] := by
  have hpos := List.length_pos_iff.2 h
  refine escapeBreaks_ne_nil fun hdrop => ?_
  have hle := List.drop_eq_nil_iff.1 hdrop
  unfold previewLength at hle
  omega

variable {literal : Text}

theorem truncated_ne_nil (h : literal ≠ []) : literal.truncated ≠ [] := by
  rw [truncated_eq h]
  simp [shownHead_ne_nil]

theorem lineBreaks_truncated (h : literal ≠ []) :
    lineBreaks literal.truncated = lineBreaks literal := by
  have hhead := unbroken_shownHead literal
  have htail := unbroken_shownTail literal
  rw [truncated_eq h, lineBreaks_append (htail.cleanCut_right _),
    lineBreaks_append (hhead.cleanCut_left _), hhead.lineBreaks_eq, htail.lineBreaks_eq,
    lineBreaks_replicate]
  omega

theorem cleanCut_truncated_right (h : literal ≠ []) (a : Text) : CleanCut a literal.truncated := by
  rw [truncated_eq h, List.append_assoc]
  exact ((unbroken_shownHead literal).cleanCut_right a).append_right (shownHead_ne_nil literal) _

theorem cleanCut_truncated_left (h : literal ≠ []) (b : Text) : CleanCut literal.truncated b := by
  rw [truncated_eq h]
  exact ((unbroken_shownTail literal).cleanCut_left b).append_left (shownTail_ne_nil h) _

theorem exists_truncated_eq_concat (h : literal ≠ []) :
    ∃ t c, literal.truncated = t ++ [c] ∧ ¬ IsTerminator c := by
  obtain ⟨t, c, hc⟩ := exists_eq_concat (shownTail_ne_nil h)
  refine ⟨shownHead literal ++ List.replicate literal.lineBreaks '\n' ++ t, c, ?_, ?_⟩
  · rw [truncated_eq h, hc, List.append_assoc _ t]
  · exact unbroken_shownTail literal c (by simp [hc])

end SourceWindow.Text
