import SourceWindow.Proofs.Lines.Contents

/-!
Rows of a text: its lines and, behind a last terminator, an empty one. Unlike lines there is always
one more of them than there are line breaks, so that a row is found by counting line breaks in the
part of the text before it.
-/

set_option autoImplicit false

namespace SourceWindow.Text

def rowsFrom (line t : Text) : List Text := endedLines line t ++ [openLine line t]

def rows (t : Text) : List Text := rowsFrom [] t

theorem rows_append {a b : Text} (h : CleanCut a b) :
    rows (a ++ b) = endedLines [] a ++ rowsFrom (openLine [] a) b := by
  rw [rows, rowsFrom, rowsFrom, endedLines_append h, openLine_append, List.append_assoc]

theorem tail_rowsFrom (line t : Text) : (rowsFrom line t).tail = (rows t).tail := by
  unfold rows rowsFrom
  induction t using lineInduction generalizing line with
  | nil => rfl
  | lineEnd e t he ih =>
    rw [endedLines_lineEnd _ he, endedLines_lineEnd _ he, openLine_lineEnd _ he,
      openLine_lineEnd _ he]
    rfl
  | char c t hc ih =>
    rw [endedLines_char _ hc, endedLines_char _ hc, openLine_char _ hc, openLine_char _ hc,
      ih (line ++ [c]), ih ([] ++ [c])]

theorem getElem?_rows_of_lt {a b : Text} {i : Nat} (h : CleanCut a b) (hi : i < lineBreaks a) :
    (rows (a ++ b))[i]? = (endedLines [] a)[i]? := by
  rw [rows_append h, List.getElem?_append_left (by rwa [length_endedLines])]

theorem getElem?_rows_of_gt {a b : Text} {i : Nat} (h : CleanCut a b) (hi : lineBreaks a < i) :
    (rows (a ++ b))[i]? = (rows b).tail[i - lineBreaks a - 1]? := by
  obtain ⟨k, rfl⟩ : ∃ k, i = lineBreaks a + (k + 1) := ⟨i - lineBreaks a - 1, by omega⟩
  have hk : lineBreaks a + (k + 1) - lineBreaks a = k + 1 := by omega
  rw [rows_append h, List.getElem?_append_right (by rw [length_endedLines]; omega),
    length_endedLines, hk, Nat.add_sub_cancel, ← tail_rowsFrom (openLine [] a) b,
    List.getElem?_tail]

/-- A part exchanged for one with as many line breaks is seen in the rows it stands on only. -/
theorem getElem?_rows_exchange {a m m' b : Text} {i : Nat} (hm : CleanCut a (m ++ b))
    (hm' : CleanCut a (m' ++ b)) (hb : CleanCut (a ++ m) b) (hb' : CleanCut (a ++ m') b)
    (hbreaks : lineBreaks (a ++ m') = lineBreaks (a ++ m))
    (hi : i < lineBreaks a ∨ lineBreaks (a ++ m) < i) :
    (rows (a ++ (m' ++ b)))[i]? = (rows (a ++ (m ++ b)))[i]? := by
  rcases hi with hi | hi
  · rw [getElem?_rows_of_lt hm hi, getElem?_rows_of_lt hm' hi]
  · rw [← List.append_assoc, ← List.append_assoc, getElem?_rows_of_gt hb hi,
      getElem?_rows_of_gt hb' (by omega), hbreaks]

theorem getElem?_lines {t : Text} {i : Nat} (hi : i < (lines t).length) :
    (lines t)[i]? = (rows t)[i]? := by
  by_cases hopen : openLine [] t = []
  · have hlines : lines t = endedLines [] t := by simp [lines, linesFrom, hopen]
    rw [hlines] at hi ⊢
    rw [rows, rowsFrom, List.getElem?_append_left hi]
  · have hlines : lines t = rows t := by simp [lines, linesFrom, rows, rowsFrom, hopen]
    rw [hlines]

end SourceWindow.Text
