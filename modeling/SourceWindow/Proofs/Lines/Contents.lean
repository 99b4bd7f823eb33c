import SourceWindow.Proofs.Lines.Terminators
import SourceWindow.Proofs.Text.Cuts

set_option autoImplicit false

namespace SourceWindow.Text

/-- The lines of a text that a terminator ends, the first of them continuing `line`. -/
def endedLines (line : Text) : Text → List Text
  | [] => []
  | '\n' :: t => line :: endedLines [] t
  | '\r' :: '\n' :: t => line :: endedLines [] t
  | '\r' :: t => line :: endedLines [] t
  | c :: t => endedLines (line ++ [c]) t

/-- What stands behind the last terminator of a text, or behind `line` if it has none. -/
def openLine (line : Text) : Text → Text
  | [] => line
  | c :: t => openLine (if IsTerminator c then [] else line ++ [c]) t

def linesFrom (line t : Text) : List Text :=
  endedLines line t ++ if openLine line t = [] then [] else [openLine line t]

def lines (t : Text) : List Text := linesFrom [] t

theorem endedLines_lineEnd (line : Text) {e t : Text} (h : LineEnd e t) :
    endedLines line (e ++ t) = line :: endedLines [] t := by
  cases h with
  | lineFeed => simp [endedLines]
  | pair => simp [endedLines]
  | carriageReturn h =>
    cases t with
    | nil => simp [endedLines]
    | cons d t =>
      have hd : d ≠ '\n' := by simpa using h
      simp [endedLines, hd]

theorem endedLines_char (line : Text) {c : Char} (h : ¬ IsTerminator c) (t : Text) :
    endedLines line (c :: t) = endedLines (line ++ [c]) t := by
  obtain ⟨hn, hr⟩ := not_or.1 h
  simp [endedLines, hr]

theorem openLine_lineEnd (line : Text) {e t : Text} (h : LineEnd e t) :
    openLine line (e ++ t) = openLine [] t := by
  cases h <;> simp [openLine, IsTerminator]

theorem openLine_char (line : Text) {c : Char} (h : ¬ IsTerminator c) (t : Text) :
    openLine line (c :: t) = openLine (line ++ [c]) t := by
  simp [openLine, h]

theorem linesFrom_lineEnd (line : Text) {e t : Text} (h : LineEnd e t) :
    linesFrom line (e ++ t) = line :: lines t := by
  rw [linesFrom, endedLines_lineEnd _ h, openLine_lineEnd _ h]
  rfl

theorem linesFrom_char (line : Text) {c : Char} (h : ¬ IsTerminator c) (t : Text) :
    linesFrom line (c :: t) = linesFrom (line ++ [c]) t := by
  simp [linesFrom, endedLines_char _ h, openLine_char _ h]

theorem linesFrom_unbroken {t : Text} (h : Unbroken t) (line rest : Text) :
    linesFrom line (t ++ rest) = linesFrom (line ++ t) rest := by
  induction t generalizing line with
  | nil => simp
  | cons c t ih =>
    have ht : Unbroken t := fun d hd => h d (List.mem_cons_of_mem c hd)
    rw [List.cons_append, linesFrom_char _ (h c List.mem_cons_self), ih ht]
    simp

theorem lines_unbroken {t : Text} (h : Unbroken t) : lines t = if t = [] then [] else [t] := by
  have hlines := linesFrom_unbroken h [] []
  rw [List.append_nil, List.nil_append] at hlines
  rw [lines, hlines]
  by_cases ht : t = [] <;> simp [linesFrom, endedLines, openLine, ht]

theorem lines_unbroken_append {line e t : Text} (h : Unbroken line) (he : LineEnd e t) :
    lines (line ++ (e ++ t)) = line :: lines t := by
  rw [lines, linesFrom_unbroken h, linesFrom_lineEnd _ he, List.nil_append]

theorem openLine_append (line a b : Text) :
    openLine line (a ++ b) = openLine (openLine line a) b := by
  induction a generalizing line with
  | nil => rfl
  | cons c a ih => simp only [List.cons_append, openLine, ih]

theorem endedLines_append {a b : Text} (h : CleanCut a b) (line : Text) :
    endedLines line (a ++ b) = endedLines line a ++ endedLines (openLine line a) b := by
  induction a using lineInduction generalizing line with
  | nil => simp [endedLines, openLine]
  | lineEnd e a he ih =>
    rw [List.append_assoc, endedLines_lineEnd _ (h.lineEnd he), endedLines_lineEnd _ he,
      openLine_lineEnd _ he, ih h.of_append_left, List.cons_append]
  | char c a hc ih =>
    rw [List.cons_append, endedLines_char _ hc, endedLines_char _ hc, openLine_char _ hc,
      ih h.of_cons]

@[simp] theorem length_endedLines (line t : Text) :
    (endedLines line t).length = lineBreaks t := by
  induction t using lineInduction generalizing line with
  | nil => rfl
  | lineEnd e t he ih => rw [endedLines_lineEnd _ he, lineBreaks_lineEnd he, List.length_cons, ih]
  | char c t hc ih => rw [endedLines_char _ hc, lineBreaks_char hc, ih]

theorem lineBreaks_append {a b : Text} (h : CleanCut a b) :
    lineBreaks (a ++ b) = lineBreaks a + lineBreaks b := by
  rw [← length_endedLines [], endedLines_append h, List.length_append, length_endedLines,
    length_endedLines]

theorem openLine_concat (line t : Text) (c : Char) :
    openLine line (t ++ [c]) = if IsTerminator c then [] else openLine line t ++ [c] := by
  rw [openLine_append, openLine, openLine]

theorem openLine_eq_nil_iff {t : Text} :
    openLine [] t = [] ↔ t = [] ∨ ∃ c, t.getLast? = some c ∧ IsTerminator c := by
  rcases List.eq_nil_or_concat t with rfl | ⟨t, c, rfl⟩
  · simp [openLine]
  · by_cases hc : IsTerminator c <;> simp [openLine_concat, hc]

theorem length_lines (t : Text) :
    (lines t).length = lineBreaks t + if openLine [] t = [] then 0 else 1 := by
  unfold lines linesFrom
  rw [List.length_append, length_endedLines]
  split <;> rfl

theorem unbroken_of_mem_linesFrom {line t l : Text} (hline : Unbroken line)
    (hl : l ∈ linesFrom line t) : Unbroken l := by
  induction t using lineInduction generalizing line with
  | nil =>
    by_cases h : line = []
    · simp [linesFrom, endedLines, openLine, h] at hl
    · simp only [linesFrom, endedLines, openLine, h, if_false, List.nil_append,
        List.mem_singleton] at hl
      rwa [hl]
  | lineEnd e t he ih =>
    rw [linesFrom_lineEnd _ he, List.mem_cons] at hl
    rcases hl with rfl | hl
    · exact hline
    · exact ih unbroken_nil hl
  | char c t hc ih =>
    rw [linesFrom_char _ hc] at hl
    exact ih (unbroken_append.2 ⟨hline, by simpa [Unbroken] using hc⟩) hl

theorem unbroken_of_mem_lines {t l : Text} (h : l ∈ lines t) : Unbroken l :=
  unbroken_of_mem_linesFrom unbroken_nil h

end SourceWindow.Text

namespace SourceWindow
open Text

theorem Line.content?_append (a line t : Text) :
    (⟨a.size, size (a ++ line)⟩ : Line).content? (a ++ line ++ t) = some line :=
  slice?_append a line t

namespace LineIndex

/-- Scanned from behind `a`, inside the line that has begun with `line`, the index holds the ranges
of the lines of what follows. -/
theorem scan_contents (a line t : Text) :
    (scan a.size (size (a ++ line)) t).map (·.content? (a ++ line ++ t)) =
      (linesFrom line t).map some := by
  induction t using lineInduction generalizing a line with
  | nil =>
    by_cases h : line = []
    · simp [scan, linesFrom, endedLines, openLine, h]
    · have hpos := size_pos h
      have hlt : a.size < size (a ++ line) := by rw [size_append]; omega
      have hend : linesFrom line [] = [line] := by simp [linesFrom, endedLines, openLine, h]
      rw [scan, if_pos hlt, List.map_singleton, Line.content?_append, hend, List.map_singleton]
  | lineEnd e t he ih =>
    have ht := ih (a ++ line ++ e) []
    rw [List.append_nil, List.append_assoc (a ++ line), size_append] at ht
    rw [scan_lineEnd _ _ he, linesFrom_lineEnd _ he, List.map_cons, List.map_cons,
      Line.content?_append]
    exact congrArg _ ht
  | char c t hc ih =>
    have hs : size (a ++ (line ++ [c])) = size (a ++ line) + c.utf8Size := by
      simp [size_append]; omega
    have ht := ih a (line ++ [c])
    rw [hs, ← List.append_assoc, List.append_assoc (a ++ line)] at ht
    rw [scan_char _ _ hc, linesFrom_char _ hc]
    exact ht

theorem ofText_contents (t : Text) : (ofText t).map (·.content? t) = t.lines.map some :=
  scan_contents [] [] t

theorem length_ofText (t : Text) : (ofText t).length = t.lines.length := by
  simpa using congrArg List.length (ofText_contents t)

end LineIndex

theorem Text.lineCount_eq (t : Text) :
    t.lineCount = t.lineBreaks + if openLine [] t = [] then 0 else 1 := by
  rw [lineCount, LineIndex.length_ofText, length_lines]

end SourceWindow
