import SourceWindow.Proofs.Truncation.Outermost

set_option autoImplicit false

namespace SourceWindow

namespace Text

theorem size_eq_length {t : Text} (h : ∀ c ∈ t, c.utf8Size = 1) : t.size = t.length := by
  induction t with
  | nil => rfl
  | cons c t ih =>
    have hc := h c List.mem_cons_self
    have ht := ih fun d hd => h d (List.mem_cons_of_mem c hd)
    rw [size_cons, List.length_cons, hc, ht, Nat.add_comm]

theorem size_decimal (n : Nat) : (decimal n).size = (decimal n).length := by
  refine size_eq_length fun c hc => ?_
  have hdigit := Nat.isDigit_of_mem_toDigits (by decide) (by decide) hc
  simp only [Char.isDigit, Bool.and_eq_true, decide_eq_true_eq] at hdigit
  exact Char.utf8Size_eq_one_iff.2 (Nat.le_trans hdigit.2 (by decide))

theorem size_lineFeeds (n : Nat) : size (List.replicate n '\n') = n := by
  have hfeeds : size (List.replicate n '\n') = (List.replicate n '\n').length :=
    size_eq_length fun c hc => by rw [(List.mem_replicate.1 hc).2]; rfl
  rw [hfeeds, List.length_replicate]

theorem size_escapeBreaks_le (t : Text) : (escapeBreaks t).size ≤ 4 * t.length := by
  induction t with
  | nil => simp [escapeBreaks]
  | cons c t ih =>
    have hchar : (escapeBreaks [c]).size ≤ 4 := by
      by_cases hn : c = '\n'
      · subst hn
        decide
      · by_cases hr : c = '\r'
        · subst hr
          decide
        · simpa [escapeBreaks, hn, hr] using c.utf8Size_le_four
    have hsplit : escapeBreaks (c :: t) = escapeBreaks [c] ++ escapeBreaks t :=
      escapeBreaks_append [c] t
    rw [hsplit, size_append, List.length_cons]
    omega

theorem size_shownHead_le (literal : Text) :
    (shownHead literal).size ≤ 106 + (decimal literal.size).length := by
  have hpreview := size_escapeBreaks_le (literal.take (previewLength + 1))
  have hlength := List.length_take_le (previewLength + 1) literal
  have hbefore : size (ofString " ...[TRUNCATED ") = 15 := by decide
  have hbehind : size (ofString " CHARS]... ") = 11 := by decide
  simp only [shownHead, size_append, size_decimal, hbefore, hbehind]
  unfold previewLength at *
  omega

theorem size_shownTail_le (literal : Text) : (shownTail literal).size ≤ 80 := by
  have hpreview := size_escapeBreaks_le (literal.drop (literal.length - (previewLength + 1)))
  rw [List.length_drop] at hpreview
  unfold shownTail previewLength at *
  omega

theorem size_truncated_le (literal : Text) :
    literal.truncated.size ≤ 186 + (decimal literal.size).length + literal.lineBreaks := by
  by_cases h : literal = []
  · simp [h, truncated]
  · have hhead := size_shownHead_le literal
    have htail := size_shownTail_le literal
    rw [truncated_eq h, size_append, size_append, size_lineFeeds]
    omega

theorem length_decimal_add_lt {n : Nat} (h : 200 < n) : 186 + (decimal n).length < n := by
  obtain ⟨k, rfl⟩ : ∃ k, n = k + 190 := ⟨n - 190, by omega⟩
  have hpow : k < 10 ^ k := Nat.lt_pow_self (by decide)
  have hdigits : (decimal (k + 190)).length ≤ k + 3 := by
    refine (Nat.length_toDigits_le_iff (by decide) (by omega)).2 ?_
    rw [Nat.pow_add]
    omega
  omega

theorem size_truncated_lt {literal : Text} (h : 200 < literal.size) (hline : Unbroken literal) :
    literal.truncated.size < literal.size := by
  have hle := size_truncated_le literal
  have hdigits := length_decimal_add_lt h
  rw [hline.lineBreaks_eq] at hle
  omega

end Text

theorem EditSet.growth_le_neg_length {edits : EditSet} (h : ∀ e ∈ edits, e.growth < 0) :
    EditSet.growth edits ≤ -edits.length := by
  induction edits with
  | nil => simp [EditSet.growth]
  | cons e edits ih =>
    have he := h e List.mem_cons_self
    have hrest := ih fun d hd => h d (List.mem_cons_of_mem e hd)
    rw [EditSet.growth, List.length_cons]
    omega

open Text

section
variable {source : Text} {limit : TruncationLimit} {spans : List LiteralSpan}

theorem exists_literal_of_mem_usableEdits {e : Edit} (he : e ∈ usableEdits source limit spans) :
    ∃ s ∈ spans, s.Usable source limit ∧ ∃ literal, s.text? source = some literal ∧
      s.size = literal.size ∧ e.growth = literal.truncated.size - literal.size := by
  obtain ⟨⟨a, literal, b, rfl, -, -, -, rfl⟩, s, hs, husable, hstart, hstop⟩ :=
    exists_span_of_mem_usableEdits he
  simp only at hstart hstop
  refine ⟨s, hs, husable, literal, ?_, ?_, ?_⟩
  · rw [LiteralSpan.text?, ← hstart, ← hstop, slice?_append]
  · rw [LiteralSpan.size, ← hstart, ← hstop, size_append]
    omega
  · simp only [Edit.growth, size_append]
    omega

end

/-- The size of a replacement is bounded but for the digits of the literal's size and its line
breaks. Where the limit is at least the standard one and all over-long literals are within one line,
the text does not grow, and with a literal reported it shrinks. -/
theorem truncate?_shortens :
    (∀ literal : Text, literal.truncated.size ≤
      186 + (decimal literal.size).length + literal.lineBreaks) ∧
    ∀ (source : Text) (spans : List LiteralSpan) (m : Nat), 200 ≤ m →
      (∀ s ∈ spans, s.Usable source (.maxBytes m) → ∀ literal ∈ s.text? source, Unbroken literal) →
      ∃ r, truncate? source spans (.maxBytes m) = some r ∧ r.text.size ≤ source.size ∧
        (r.literals ≠ [] → r.text.size < source.size) := by
  refine ⟨size_truncated_le, fun source spans m hm hlines => ?_⟩
  obtain ⟨text, hr, hshort⟩ := exists_truncation source spans (.maxBytes m)
  have hgrowth : ∀ e ∈ (usableEdits source (.maxBytes m) spans).resolved, e.growth < 0 := by
    intro e he
    obtain ⟨s, hs, husable, literal, htext, hsize, hgrowth⟩ :=
      exists_literal_of_mem_usableEdits (EditSet.mem_of_mem_resolved he)
    have hlong := LiteralSpan.overlong_maxBytes.1 husable.overlong
    rw [← LiteralSpan.size, hsize] at hlong
    have hlt := size_truncated_lt (by omega) (hlines s hs husable literal htext)
    omega
  have htotal := EditSet.growth_le_neg_length hgrowth
  have hsize := hshort.size_eq
  refine ⟨_, hr, by simp only; omega, fun hreported => ?_⟩
  have hpos := List.length_pos_iff.2 hreported
  rw [List.length_map] at hpos
  simp only
  omega

theorem truncate?_shortens_accents :
    let source := ofString "s = " ++ List.replicate 101 'é'
    let spans : List LiteralSpan := [⟨4, 206, .string⟩, ⟨5, 206, .string⟩]
    ∃ r, truncate? source spans (.maxBytes 200) = some r ∧ r.text.size < source.size := by
  intro source spans
  obtain ⟨r, hr, -, hless⟩ :=
    truncate?_shortens.2 source spans 200 (Nat.le_refl 200) (by decide +kernel)
  refine ⟨r, hr, hless fun hnone => ?_⟩
  have hranges : resolvedRanges source (.maxBytes 200) spans = [] := by
    rw [← ranges_of_truncate? hr, Truncation.ranges, hnone, List.map_nil]
  have husable : LiteralSpan.Usable source (.maxBytes 200) ⟨4, 206, .string⟩ := by decide +kernel
  have hreported := mem_resolvedRanges_or (show _ ∈ spans from List.mem_cons_self) husable
  simp [hranges] at hreported

end SourceWindow
