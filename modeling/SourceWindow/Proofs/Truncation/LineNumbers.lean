import SourceWindow.Proofs.Lines.Offsets
import SourceWindow.Proofs.Truncation.Report

set_option autoImplicit false

namespace SourceWindow
open Text

/-- Where the truncated text has what the source has at an offset outside the reported literals, or
at the start of one. -/
def Truncation.moved (r : Truncation) (source : Text) (offset : Nat) : Int :=
  offset + EditSet.shift (r.literals.map (·.edit source)) offset

/-- No line number shifts: a byte outside the reported literals is found again on its line, each
reported literal begins on the line reported for it, in the source and in the truncated text, and
both have as many line breaks. -/
theorem truncate?_keeps_line_numbers (source : Text) (spans : List LiteralSpan)
    (limit : TruncationLimit) :
    ∃ r, truncate? source spans limit = some r ∧
      (∀ p < source.size, (∀ l ∈ r.literals, p < l.start ∨ l.stop ≤ p) →
        ∃ q : Nat, (q : Int) = r.moved source p ∧ r.text.bytes[q]? = source.bytes[p]? ∧
          (LineIndex.ofText r.text).lineAt? q = (LineIndex.ofText source).lineAt? p) ∧
      (∀ l ∈ r.literals, ∃ q n : Nat, (q : Int) = r.moved source l.start ∧
        r.text.slice? q (q + (l.edit source).replacement.size) =
          some (l.edit source).replacement ∧
        (LineIndex.ofText r.text).lineAt? q = some n ∧
        (LineIndex.ofText source).lineAt? l.start = some n ∧ l.line = n + 1) ∧
      r.text.lineBreaks = source.lineBreaks := by
  obtain ⟨r, hr, -, hshort, hline⟩ := exists_report source spans limit
  refine ⟨r, hr, fun p hp hout => ?_, fun l hl => ?_, hshort.lineBreaks_eq⟩
  · obtain ⟨a, c, b, rfl, hle, hlt⟩ := exists_char_at hp
    obtain ⟨a', b', htext, hsize, hbreaks⟩ := hshort.char_kept hle hlt fun e he => by
      obtain ⟨l, hl, rfl⟩ := List.mem_map.1 he
      exact hout l hl
    obtain ⟨i, rfl⟩ : ∃ i, p = a.size + i := ⟨p - a.size, by omega⟩
    have hi : i < c.utf8Size := by omega
    refine ⟨a'.size + i, ?_, ?_, ?_⟩
    · unfold Truncation.moved
      push_cast
      omega
    · rw [htext, bytes_getElem?_char hi, bytes_getElem?_char hi]
    · rw [htext]
      exact LineIndex.lineAt?_eq_of_lineBreaks_eq hi hbreaks
  · obtain ⟨a, literal, b, a', b', rfl, htext, hne, hcut, hedit, hsize, hbreaks⟩ :=
      hshort.literal_replaced (List.mem_map_of_mem hl)
    have hstart : l.start = a.size := congrArg Edit.start hedit
    have hreplacement := congrArg Edit.replacement hedit
    have hsource :
        (LineIndex.ofText (a ++ literal ++ b)).lineAt? l.start = some (lineBreaks a) := by
      rw [hstart]
      exact LineIndex.lineAt?_of_cleanCut hne hcut
    refine ⟨a'.size, lineBreaks a, ?_, ?_, ?_, hsource, ?_⟩
    · rw [hsize, Truncation.moved, hstart]
      exact congrArg _ (congrArg _ hstart)
    · rw [hreplacement, htext, ← size_append, slice?_append]
    · rw [htext, ← hbreaks]
      exact LineIndex.lineAt?_of_cleanCut (truncated_ne_nil hne) (cleanCut_truncated_right hne a')
    · rw [hline l hl, hsource]
      rfl

namespace Shortening

variable {before source result : Text} {edits : List Edit}

theorem lineAt?_start (h : Shortening [] source edits result) {e : Edit} (he : e ∈ edits) :
    (LineIndex.ofText source).lineAt? e.start =
      (LineIndex.ofText result).lineAt? (e.start + EditSet.shift edits e.start).toNat := by
  obtain ⟨a, literal, b, a', b', rfl, rfl, hne, hcut, hedit, hsize, hbreaks⟩ :=
    h.literal_replaced he
  have hstart : e.start = a.size := congrArg Edit.start hedit
  rw [hstart] at hsize ⊢
  rw [← hsize, Int.toNat_natCast, LineIndex.lineAt?_of_cleanCut hne hcut,
    LineIndex.lineAt?_of_cleanCut (truncated_ne_nil hne) (cleanCut_truncated_right hne a'),
    hbreaks]

theorem openLine_ne_nil_of_stop_eq (h : Shortening before source edits result)
    (hend : ∃ e ∈ edits, e.stop = size (before ++ source)) : openLine [] result ≠ [] := by
  obtain ⟨e, he, hstop⟩ := hend
  obtain ⟨es₁, es₂, rfl⟩ := List.append_of_mem he
  obtain ⟨a, literal, b, a', b', rfl, rfl, hne, -, -, rfl, -, hb⟩ := h.split_edit
  have hnil : b = [] := by
    apply size_eq_zero.1
    simp only [size_append] at hstop
    omega
  subst hnil
  obtain ⟨rfl, rfl⟩ : es₂ = [] ∧ b' = [] := by
    refine hb.eq_of_forall_not_mem fun d hd => ?_
    obtain ⟨hlo, hpos, hhi⟩ := hb.bounds hd
    rw [List.append_nil] at hhi
    omega
  obtain ⟨t, c, ht, hc⟩ := exists_truncated_eq_concat hne
  rw [ht, List.append_nil, ← List.append_assoc, openLine_concat, if_neg hc]
  simp

theorem getLast?_eq_of_stop_ne (h : Shortening before source edits result)
    (hend : ∀ e ∈ edits, e.stop ≠ size (before ++ source)) :
    result.getLast? = source.getLast? := by
  induction h with
  | kept => rfl
  | @literal before source result edits kept literal hne hstart hstop h ih =>
    have hsource : source ≠ [] := by
      rintro rfl
      exact hend _ List.mem_cons_self (by simp)
    have hassoc : before ++ (kept ++ literal ++ source) = before ++ kept ++ literal ++ source := by
      simp
    rw [hassoc] at hend
    have hlast := ih fun e he => hend e (List.mem_cons_of_mem _ he)
    simp only [List.getLast?_append, hlast, List.getLast?_eq_some_getLast hsource, Option.some_or]

theorem lineCount_eq (h : Shortening [] source edits result) :
    result.lineCount = source.lineCount +
      if (∃ e ∈ edits, e.stop = source.size) ∧
        (source.getLast? = some '\n' ∨ source.getLast? = some '\r') then 1 else 0 := by
  have hterminated : openLine [] source = [] ↔
      source = [] ∨ source.getLast? = some '\n' ∨ source.getLast? = some '\r' := by
    rw [openLine_eq_nil_iff]
    simp [IsTerminator, and_or_left, exists_or]
  rw [Text.lineCount_eq, Text.lineCount_eq, h.lineBreaks_eq]
  -- A literal that ends the source leaves the last line open. Otherwise the last character stays.
  by_cases hend : ∃ e ∈ edits, e.stop = source.size
  · have hopen := h.openLine_ne_nil_of_stop_eq hend
    have hne : source ≠ [] := by
      obtain ⟨e, he, hstop⟩ := hend
      rintro rfl
      have hpos := (h.bounds he).2
      rw [List.append_nil, size_nil] at hpos
      omega
    rw [if_neg hopen]
    by_cases hlast : source.getLast? = some '\n' ∨ source.getLast? = some '\r'
    · rw [if_pos (hterminated.2 (.inr hlast)), if_pos ⟨hend, hlast⟩]
    · have hopen' : openLine [] source ≠ [] :=
        fun h => not_or.2 ⟨hne, hlast⟩ (hterminated.1 h)
      rw [if_neg hopen', if_neg fun h => hlast h.2]
  · have hlast : result.getLast? = source.getLast? :=
      h.getLast?_eq_of_stop_ne fun e he hstop => hend ⟨e, he, hstop⟩
    have hsame : openLine [] result = [] ↔ openLine [] source = [] := by
      rw [openLine_eq_nil_iff, openLine_eq_nil_iff, hlast, ← List.getLast?_eq_none_iff, hlast,
        List.getLast?_eq_none_iff]
    simp only [hsame, hend, false_and, if_false, Nat.add_zero]

end Shortening

/-- The number of lines is kept but for one case: a literal that ends the source and ends in a
terminator adds a line, as its replacement ends within one. -/
theorem truncate?_lineCount (source : Text) (spans : List LiteralSpan) (limit : TruncationLimit) :
    ∃ r, truncate? source spans limit = some r ∧
      r.text.lineCount = source.lineCount +
        if (∃ l ∈ r.literals, l.stop = source.size) ∧
          (source.getLast? = some '\n' ∨ source.getLast? = some '\r') then 1 else 0 := by
  obtain ⟨r, hr, -, hshort, -⟩ := exists_report source spans limit
  refine ⟨r, hr, ?_⟩
  have hend : (∃ e ∈ r.literals.map (·.edit source), e.stop = source.size) ↔
      ∃ l ∈ r.literals, l.stop = source.size := by
    constructor
    · rintro ⟨e, he, hstop⟩
      obtain ⟨l, hl, rfl⟩ := List.mem_map.1 he
      exact ⟨l, hl, hstop⟩
    · rintro ⟨l, hl, hstop⟩
      exact ⟨l.edit source, List.mem_map_of_mem hl, hstop⟩
  have hlines := hshort.lineCount_eq
  simp only [hend] at hlines
  exact hlines

example : (truncate? ['a', 'b', '\n'] [⟨0, 3, .string⟩] (.maxBytes 0)).map (·.text.lineCount) =
    some 2 := by
  decide +kernel

end SourceWindow
