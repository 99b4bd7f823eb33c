import SourceWindow.Proofs.Truncation.Replacement

set_option autoImplicit false

namespace SourceWindow.Text

theorem lines_lineFeeds (n : Nat) (t : Text) :
    lines (List.replicate n '\n' ++ t) = List.replicate n [] ++ lines t := by
  induction n with
  | zero => rfl
  | succ n ih =>
    have hfeed := lines_unbroken_append unbroken_nil (.lineFeed (List.replicate n '\n' ++ t))
    simp only [List.replicate_succ, List.cons_append, List.nil_append] at hfeed ⊢
    rw [hfeed, ih]

variable {literal : Text}

theorem lines_truncated_of_unbroken (h : literal ≠ []) (hbreaks : literal.lineBreaks = 0) :
    literal.truncated = shownHead literal ++ shownTail literal ∧
      lines literal.truncated = [shownHead literal ++ shownTail literal] := by
  have htext : literal.truncated = shownHead literal ++ shownTail literal := by
    rw [truncated_eq h, hbreaks, List.replicate_zero, List.append_nil]
  have hline : Unbroken (shownHead literal ++ shownTail literal) :=
    unbroken_append.2 ⟨unbroken_shownHead literal, unbroken_shownTail literal⟩
  have hne : shownHead literal ++ shownTail literal ≠ [] := by simp [shownHead_ne_nil]
  rw [htext, lines_unbroken hline, if_neg hne]
  exact ⟨rfl, rfl⟩

theorem lines_truncated_of_breaks (h : literal ≠ []) {n : Nat}
    (hbreaks : literal.lineBreaks = n + 1) :
    lines literal.truncated =
      shownHead literal :: (List.replicate n [] ++ [shownTail literal]) := by
  have hfeed := lines_unbroken_append (unbroken_shownHead literal)
    (.lineFeed (List.replicate n '\n' ++ shownTail literal))
  rw [truncated_eq h, hbreaks, List.replicate_succ, List.append_assoc, List.cons_append]
  rw [List.singleton_append] at hfeed
  rw [hfeed, lines_lineFeeds, lines_unbroken (unbroken_shownTail literal),
    if_neg (shownTail_ne_nil h)]

theorem carriageReturn_not_mem_truncated (literal : Text) : '\r' ∉ literal.truncated := by
  by_cases h : literal = []
  · subst h
    simp [truncated]
  · intro hmem
    rw [truncated_eq h] at hmem
    simp only [List.mem_append, List.mem_replicate] at hmem
    rcases hmem with (hhead | hfeed) | htail
    · exact unbroken_shownHead literal _ hhead (.inr rfl)
    · exact absurd hfeed.2 (by decide)
    · exact unbroken_shownTail literal _ htail (.inr rfl)

theorem exists_truncated_eq_cons (h : literal ≠ []) :
    ∃ c t, literal.truncated = c :: t ∧ ¬ IsTerminator c := by
  obtain ⟨c, t, hc⟩ := List.exists_cons_of_ne_nil (shownHead_ne_nil literal)
  refine ⟨c, t ++ (List.replicate literal.lineBreaks '\n' ++ shownTail literal), ?_, ?_⟩
  · rw [truncated_eq h, hc, List.append_assoc, List.cons_append]
  · exact unbroken_shownHead literal c (by simp [hc])

/-- A replacement has one line more than its literal has line breaks. A single line shows the head
of the literal, its size and its tail. Of more lines the first shows the head and the size, the last
shows the tail, and those between are empty. No carriage return is left, and at neither end stands a
terminator. -/
theorem truncated_layout {literal : Text} (h : literal ≠ []) :
    let esc (t : Text) : Text := t.flatMap fun c =>
      if c = '\n' then ['\\', 'n'] else if c = '\r' then ['\\', 'r'] else [c]
    let head := esc (literal.take 20)
    let marker := ofString " ...[TRUNCATED " ++ decimal literal.size ++ ofString " CHARS]... "
    let tail := esc (literal.drop (literal.length - 20))
    literal.truncated.lineCount = literal.lineBreaks + 1 ∧
      (literal.lineBreaks = 0 → literal.truncated = head ++ marker ++ tail) ∧
      (LineIndex.ofText literal.truncated).map (·.content? literal.truncated) =
        (match literal.lineBreaks with
          | 0 => [head ++ marker ++ tail]
          | n + 1 => (head ++ marker) :: (List.replicate n [] ++ [tail])).map some ∧
      '\r' ∉ literal.truncated ∧
      (∃ c t, literal.truncated = c :: t ∧ ¬ IsTerminator c) ∧
      ∃ t c, literal.truncated = t ++ [c] ∧ ¬ IsTerminator c := by
  intro esc head marker tail
  have hhead : shownHead literal = head ++ marker := by
    simp only [head, marker, shownHead, previewLength, List.append_assoc]
    rfl
  have htail : shownTail literal = tail := rfl
  have hlines : lines literal.truncated = match literal.lineBreaks with
      | 0 => [head ++ marker ++ tail]
      | n + 1 => (head ++ marker) :: (List.replicate n [] ++ [tail]) := by
    rw [← hhead, ← htail]
    split
    · rename_i hbreaks
      exact (lines_truncated_of_unbroken h hbreaks).2
    · rename_i n hbreaks
      exact lines_truncated_of_breaks h hbreaks
  refine ⟨?_, fun hbreaks => ?_, ?_, carriageReturn_not_mem_truncated literal,
    exists_truncated_eq_cons h, exists_truncated_eq_concat h⟩
  · rw [lineCount, LineIndex.length_ofText, hlines]
    cases literal.lineBreaks <;> simp
  · rw [← hhead, ← htail]
    exact (lines_truncated_of_unbroken h hbreaks).1
  · rw [LineIndex.ofText_contents, hlines]

theorem truncated_layout_pair :
    let literal := ofString "\r\n\né"
    (LineIndex.ofText literal.truncated).map (·.content? literal.truncated) =
      [some (ofString "\\r\\n\\né ...[TRUNCATED 5 CHARS]... "), some [],
        some (ofString "\\r\\n\\né")] := by
  intro literal
  obtain ⟨-, -, hlines, -⟩ := truncated_layout (show literal ≠ [] by decide)
  rw [hlines]
  decide +kernel

end SourceWindow.Text
