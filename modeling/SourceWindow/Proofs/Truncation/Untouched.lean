import SourceWindow.Proofs.Lines.Rows
import SourceWindow.Proofs.Truncation.LineNumbers

set_option autoImplicit false

namespace SourceWindow
open Text

theorem Shortening.getElem?_rows {before source result : Text} {edits : List Edit} {i : Nat}
    (h : Shortening before source edits result)
    (hout : ∀ a literal b, before ++ source = a ++ literal ++ b → literal ≠ [] →
      CleanCut a literal → ⟨a.size, size (a ++ literal), literal.truncated⟩ ∈ edits →
      i < lineBreaks a ∨ lineBreaks (a ++ literal) < i) :
    (rows (before ++ result))[i]? = (rows (before ++ source))[i]? := by
  induction h with
  | kept => rfl
  | @literal before source result edits kept literal hne hstart hstop h ih =>
    have hsource : before ++ (kept ++ literal ++ source) = before ++ kept ++ literal ++ source := by
      simp
    have hfirst := hout (before ++ kept) literal source hsource hne hstart List.mem_cons_self
    have hrest : (rows (before ++ kept ++ literal ++ result))[i]? =
        (rows (before ++ kept ++ literal ++ source))[i]? := by
      refine ih fun a l b hcut hl hclean hmem => ?_
      exact hout a l b (hsource.trans hcut) hl hclean (List.mem_cons_of_mem _ hmem)
    have hbreaks : lineBreaks (before ++ kept ++ literal.truncated) =
        lineBreaks (before ++ kept ++ literal) := by
      rw [lineBreaks_append (cleanCut_truncated_right hne _), lineBreaks_append hstart,
        lineBreaks_truncated hne]
    -- The rest is shortened behind the literal as it was, and only then the literal gives way.
    have hexchange := getElem?_rows_exchange (b := result)
      (hstart.append_right hne _)
      ((cleanCut_truncated_right hne _).append_right (truncated_ne_nil hne) _)
      ((h.cleanCut_right hstop).append_left hne _)
      ((cleanCut_truncated_left hne result).append_left (truncated_ne_nil hne) _) hbreaks hfirst
    rw [hsource, ← hrest, List.append_assoc (before ++ kept) literal, ← hexchange]
    simp only [List.append_assoc]

namespace TruncatedLiteral

def lastByte? (source : Text) (l : TruncatedLiteral) : Option UInt8 := source.bytes[l.stop - 1]?

/-- The line with index `i` is that of the literal's first byte, that of its last, or between. -/
def Covers (source : Text) (l : TruncatedLiteral) (i : Nat) : Prop :=
  ∃ f g, (LineIndex.ofText source).lineAt? l.start = some f ∧
    (LineIndex.ofText source).lineAt? (l.stop - 1) = some g ∧ f ≤ i ∧ i ≤ g

end TruncatedLiteral

def Truncation.EndsWithinLines (r : Truncation) (source : Text) : Prop :=
  ∀ l ∈ r.literals, l.lastByte? source ≠ some 0x0A ∧ l.lastByte? source ≠ some 0x0D

theorem TruncatedLiteral.lastByte?_eq {a b : Text} {c : Char} {l : TruncatedLiteral}
    (hstop : l.stop = size (a ++ [c])) (hc : c.utf8Size = 1) :
    l.lastByte? (a ++ c :: b) = (String.utf8EncodeChar c)[0]? := by
  have hlast : l.stop - 1 = a.size + 0 := by
    rw [hstop, size_append, size_cons, size_nil]
    omega
  rw [lastByte?, hlast, bytes_getElem?_char (by omega)]

theorem TruncatedLiteral.not_isTerminator_of_lastByte? {a b : Text} {c : Char}
    {l : TruncatedLiteral} (hstop : l.stop = size (a ++ [c]))
    (hn : l.lastByte? (a ++ c :: b) ≠ some 0x0A) (hr : l.lastByte? (a ++ c :: b) ≠ some 0x0D) :
    ¬ IsTerminator c := by
  rintro (rfl | rfl)
  · exact hn (lastByte?_eq hstop rfl)
  · exact hr (lastByte?_eq hstop rfl)

theorem TruncatedLiteral.covers_of_cleanCut {a literal b : Text} {l : TruncatedLiteral} {i : Nat}
    (hne : literal ≠ []) (hcut : CleanCut a literal) (hstart : l.start = a.size)
    (hstop : l.stop = size (a ++ literal))
    (hn : l.lastByte? (a ++ literal ++ b) ≠ some 0x0A)
    (hr : l.lastByte? (a ++ literal ++ b) ≠ some 0x0D)
    (hlo : Text.lineBreaks a ≤ i) (hhi : i ≤ Text.lineBreaks (a ++ literal)) :
    l.Covers (a ++ literal ++ b) i := by
  obtain ⟨m, c, rfl⟩ := exists_eq_concat hne
  have hassoc : a ++ (m ++ [c]) ++ b = a ++ m ++ c :: b := by simp
  have hpos := c.utf8Size_pos
  have hsize : l.stop = size (a ++ m) + c.utf8Size := by
    rw [hstop]
    simp only [size_append, size_cons, size_nil]
    omega
  refine ⟨Text.lineBreaks a, Text.lineBreaks (a ++ (m ++ [c])), ?_, ?_, hlo, hhi⟩
  · rw [hstart]
    exact LineIndex.lineAt?_of_cleanCut hne hcut
  · have hc : ¬ IsTerminator c := by
      rw [hassoc] at hn hr
      exact not_isTerminator_of_lastByte? (by rw [hstop, List.append_assoc]) hn hr
    have hle : size (a ++ m) ≤ l.stop - 1 := by omega
    obtain ⟨n, hline, hbreaks⟩ := LineIndex.lineAt?_ofText (b := b) (c := c) hle (by omega)
    rw [if_neg hc, List.append_assoc] at hbreaks
    rw [hassoc, hline, ← hbreaks]
    rfl

/-- When no reported literal ends in a terminator, both texts have as many lines, and those that no
reported literal covers are the same. -/
theorem exists_untouched (source : Text) (spans : List LiteralSpan) (limit : TruncationLimit) :
    ∃ r, truncate? source spans limit = some r ∧ (r.EndsWithinLines source →
      r.text.lineCount = source.lineCount ∧
      ∀ i, (∀ l ∈ r.literals, ¬ l.Covers source i) → r.text.lines[i]? = source.lines[i]?) := by
  obtain ⟨r, hr, -, hshort, -⟩ := exists_report source spans limit
  refine ⟨r, hr, fun hends => ?_⟩
  have hcount : r.text.lineCount = source.lineCount := by
    rw [hshort.lineCount_eq, if_neg, Nat.add_zero]
    rintro ⟨⟨e, he, hstop⟩, hlast⟩
    obtain ⟨l, hl, rfl⟩ := List.mem_map.1 he
    have hsource : source ≠ [] := by
      rintro rfl
      simp at hlast
    obtain ⟨s, c, rfl⟩ := exists_eq_concat hsource
    refine TruncatedLiteral.not_isTerminator_of_lastByte? (b := []) hstop (hends l hl).1
      (hends l hl).2 ?_
    simpa [IsTerminator] using hlast
  refine ⟨hcount, fun i hout => ?_⟩
  have hlength : r.text.lines.length = source.lines.length := by
    rwa [← LineIndex.length_ofText, ← LineIndex.length_ofText]
  by_cases hi : i < source.lines.length
  · rw [getElem?_lines hi, getElem?_lines (by omega)]
    refine hshort.getElem?_rows fun a literal b hcut hne hclean hmem => ?_
    obtain ⟨l, hl, hedit⟩ := List.mem_map.1 hmem
    rw [List.nil_append] at hcut
    subst hcut
    refine Decidable.byContradiction fun hwithin => ?_
    refine hout l hl (TruncatedLiteral.covers_of_cleanCut hne hclean (congrArg Edit.start hedit)
      (congrArg Edit.stop hedit) (hends l hl).1 (hends l hl).2 ?_ ?_) <;> omega
  · rw [List.getElem?_eq_none (by omega), List.getElem?_eq_none (by omega)]

end SourceWindow
