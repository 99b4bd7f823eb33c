import SourceWindow.Proofs.Truncation.Edits
import SourceWindow.Proofs.Truncation.LineNumbers

/-!
What truncation hides. Two sources that differ within one reported literal only, and there in nothing
that its truncated form shows, are truncated to one text and have the same literals reported. Spans
that reach into the literal may be usable in one source and not in the other, but overlap it, so
that neither run keeps their edits.
-/

set_option autoImplicit false

namespace SourceWindow
open Text

namespace Text

/-- The literals begin alike and end alike, as far as previews go, and break as many lines. -/
structure ShownAlike (m m' : Text) : Prop where
  head : m'.take 20 = m.take 20
  tail : m'.drop (m'.length - 20) = m.drop (m.length - 20)
  breaks : m'.lineBreaks = m.lineBreaks

theorem ShownAlike.truncated_eq {m m' : Text} (h : ShownAlike m m') (hsize : m'.size = m.size) :
    m'.truncated = m.truncated := by
  by_cases hm : m = []
  · subst hm
    rw [size_eq_zero.1 hsize]
  · have hm' : m' ≠ [] := by
      rintro rfl
      exact hm (size_eq_zero.1 hsize.symm)
    have hhead : m'.take (previewLength + 1) = m.take (previewLength + 1) := h.head
    have htail : m'.drop (m'.length - (previewLength + 1)) =
        m.drop (m.length - (previewLength + 1)) := h.tail
    rw [Text.truncated_eq hm, Text.truncated_eq hm', shownHead, shownHead, shownTail, shownTail,
      hhead, htail, h.breaks, hsize]

/-- Two sources `a ++ m ++ b` and `a ++ m' ++ b` that truncation of `m` and `m'` makes the same. -/
structure Twins (a m m' b : Text) : Prop where
  part : CleanPart a m b
  part' : CleanPart a m' b
  size_eq : m'.size = m.size
  truncated_eq : m'.truncated = m.truncated

theorem Twins.symm {a m m' b : Text} (h : Twins a m m' b) : Twins a m' m b :=
  ⟨h.part', h.part, h.size_eq.symm, h.truncated_eq.symm⟩

end Text

def Edit.clearOf (g : ByteRange) (e : Edit) : Bool :=
  decide (e.range.Overlaps g → e.range = g)

namespace Text.Twins

variable {a m m' b : Text} {limit : TruncationLimit} {spans : List LiteralSpan}

theorem size_append_eq (h : Twins a m m' b) : size (a ++ m') = size (a ++ m) := by
  simp only [size_append, h.size_eq]

theorem truncates_before (h : Twins a m m' b) {e : Edit} (htrunc : e.Truncates (a ++ m ++ b))
    (hle : e.stop ≤ a.size) : e.Truncates (a ++ m' ++ b) := by
  rw [Edit.truncates_iff] at htrunc ⊢
  obtain ⟨x, literal, y, hcut, hpart, rfl⟩ := htrunc
  obtain ⟨k, rfl, rfl⟩ : ∃ k, a = x ++ literal ++ k ∧ y = k ++ (m ++ b) :=
    exists_append_of_size_le (by rw [← hcut, List.append_assoc]) hle
  refine ⟨x, literal, k ++ (m' ++ b), by simp, ⟨hpart.ne_nil, ?_, ?_⟩, rfl⟩
  · exact hpart.left.of_append_right.append_right hpart.ne_nil _
  · -- Where nothing stands between literal and part, the cut between them is the part's own.
    by_cases hk : k = []
    · subst hk
      simpa using h.part'.left
    · exact hpart.right.of_append_right.append_right hk _

theorem truncates_behind (h : Twins a m m' b) {e : Edit} (htrunc : e.Truncates (a ++ m ++ b))
    (hle : size (a ++ m) ≤ e.start) : e.Truncates (a ++ m' ++ b) := by
  rw [Edit.truncates_iff] at htrunc ⊢
  obtain ⟨x, literal, y, hcut, hpart, rfl⟩ := htrunc
  obtain ⟨k, rfl, rfl⟩ : ∃ k, x = a ++ m ++ k ∧ b = k ++ (literal ++ y) :=
    exists_append_of_size_le (by rw [hcut, List.append_assoc]) hle
  refine ⟨a ++ m' ++ k, literal, y, by simp, ⟨hpart.ne_nil, ?_, ?_⟩, ?_⟩
  · by_cases hk : k = []
    · subst hk
      simpa using h.part'.right
    · exact hpart.left.of_append_left.append_left hk _
  · exact hpart.right.of_append_left.append_left hpart.ne_nil _
  · simp only [size_append, h.size_eq]

theorem truncates_part (h : Twins a m m' b) {e : Edit} (htrunc : e.Truncates (a ++ m ++ b))
    (hrange : e.range = ⟨a.size, size (a ++ m)⟩) : e.Truncates (a ++ m' ++ b) := by
  rw [Edit.truncates_iff] at htrunc ⊢
  obtain ⟨x, literal, y, hcut, hpart, rfl⟩ := htrunc
  obtain ⟨hstart, hstop⟩ := ByteRange.mk.inj hrange
  obtain ⟨hfront, rfl⟩ := append_inj_of_size hcut hstop.symm
  obtain ⟨rfl, rfl⟩ := append_inj_of_size hfront hstart.symm
  exact ⟨a, m', b, rfl, h.part', by rw [h.size_append_eq, h.truncated_eq]⟩

theorem truncates (h : Twins a m m' b) {e : Edit} (htrunc : e.Truncates (a ++ m ++ b))
    (hclear : e.clearOf ⟨a.size, size (a ++ m)⟩ = true) : e.Truncates (a ++ m' ++ b) := by
  rw [Edit.clearOf, decide_eq_true_eq] at hclear
  by_cases hover : e.range.Overlaps ⟨a.size, size (a ++ m)⟩
  · exact h.truncates_part htrunc (hclear hover)
  · simp only [Edit.range, ByteRange.Overlaps] at hover
    by_cases hle : e.stop ≤ a.size
    · exact h.truncates_before htrunc hle
    · exact h.truncates_behind htrunc (by omega)

end Text.Twins

namespace Text.Twins

variable {a m m' b : Text} {limit : TruncationLimit} {spans : List LiteralSpan}

theorem filter_usableEdits (h : Twins a m m' b) :
    (usableEdits (a ++ m' ++ b) limit spans).filter (·.clearOf ⟨a.size, size (a ++ m)⟩) =
      (usableEdits (a ++ m ++ b) limit spans).filter (·.clearOf ⟨a.size, size (a ++ m)⟩) := by
  rw [usableEdits_eq_filterMap, usableEdits_eq_filterMap, List.filter_filterMap,
    List.filter_filterMap]
  congr 1
  funext s
  refine Option.ext fun e => ?_
  simp only [Option.filter_eq_some_iff, LiteralSpan.usableEdit?_eq_some_iff]
  constructor
  · rintro ⟨⟨htrunc, hspan⟩, hclear⟩
    exact ⟨⟨h.symm.truncates htrunc (by rwa [h.size_append_eq]), hspan⟩, hclear⟩
  · rintro ⟨⟨htrunc, hspan⟩, hclear⟩
    exact ⟨⟨h.truncates htrunc hclear, hspan⟩, hclear⟩

end Text.Twins

section
variable {source : Text} {limit : TruncationLimit} {spans : List LiteralSpan} {g : ByteRange}

theorem clearOf_of_mem_resolvedRanges (hg : g ∈ resolvedRanges source limit spans) :
    ∀ e ∈ (usableEdits source limit spans).resolved, e.clearOf g = true := by
  intro e he
  obtain ⟨d, hd, rfl⟩ := List.mem_map.1 hg
  rw [Edit.clearOf, decide_eq_true_eq]
  intro hover
  rw [EditSet.eq_of_overlaps start_lt_stop_of_mem_usableEdits he hd hover]

theorem exists_part_of_mem_resolvedRanges (hg : g ∈ resolvedRanges source limit spans) :
    ∃ a m b, source = a ++ m ++ b ∧ CleanPart a m b ∧ g = ⟨a.size, size (a ++ m)⟩ := by
  obtain ⟨e, he, rfl⟩ := List.mem_map.1 hg
  have htrunc := (exists_span_of_mem_usableEdits (EditSet.mem_of_mem_resolved he)).1
  obtain ⟨a, m, b, hsource, hpart, rfl⟩ := Edit.truncates_iff.1 htrunc
  exact ⟨a, m, b, hsource, hpart, rfl⟩

end

namespace Text.Twins

variable {a m m' b : Text} {limit : TruncationLimit} {spans : List LiteralSpan}

theorem resolved_usableEdits (h : Twins a m m' b)
    (hg : ⟨a.size, size (a ++ m)⟩ ∈ resolvedRanges (a ++ m ++ b) limit spans)
    (hg' : ⟨a.size, size (a ++ m)⟩ ∈ resolvedRanges (a ++ m' ++ b) limit spans) :
    (usableEdits (a ++ m' ++ b) limit spans).resolved =
      (usableEdits (a ++ m ++ b) limit spans).resolved := by
  rw [← EditSet.resolved_filter consistent_usableEdits (clearOf_of_mem_resolvedRanges hg'),
    h.filter_usableEdits,
    EditSet.resolved_filter consistent_usableEdits (clearOf_of_mem_resolvedRanges hg)]

theorem result_eq (h : Twins a m m' b) {edits : List Edit} {result result' : Text}
    (hshort : Shortening [] (a ++ m ++ b) edits result)
    (hshort' : Shortening [] (a ++ m' ++ b) edits result')
    (hg : ⟨a.size, size (a ++ m)⟩ ∈ edits.map (·.range)) : result' = result := by
  obtain ⟨e, he, hrange⟩ := List.mem_map.1 hg
  obtain ⟨es₁, es₂, rfl⟩ := List.append_of_mem he
  obtain ⟨x, l, y, x₁, y₁, hcut, rfl, -, -, -, rfl, hx, hy⟩ := hshort.split_edit
  obtain ⟨x', l', y', x₁', y₁', hcut', rfl, -, -, -, hedit, hx', hy'⟩ := hshort'.split_edit
  -- Both sources are cut at the edit, and are shortened alike in front of it and behind it.
  simp only [List.nil_append, Edit.range, ByteRange.mk.injEq, Edit.mk.injEq] at hrange hedit hy hy'
  obtain ⟨hstart, hstop⟩ := hrange
  obtain ⟨hstart', hstop', htruncated⟩ := hedit
  obtain ⟨hfront, rfl⟩ := append_inj_of_size hcut hstop.symm
  obtain ⟨rfl, rfl⟩ := append_inj_of_size hfront hstart.symm
  obtain ⟨hfront', rfl⟩ := append_inj_of_size hcut' (h.size_append_eq.trans hstop')
  obtain ⟨rfl, rfl⟩ := append_inj_of_size hfront' hstart'
  rw [hx.result_unique hx' rfl, hy.result_unique hy' h.size_append_eq, htruncated]

end Text.Twins

theorem Shortening.ofEdit_eq {source source' result : Text} {edits : List Edit}
    (h : Shortening [] source edits result) (h' : Shortening [] source' edits result)
    (spans : List LiteralSpan) {e : Edit} (he : e ∈ edits) :
    TruncatedLiteral.ofEdit source' spans e = TruncatedLiteral.ofEdit source spans e := by
  rw [TruncatedLiteral.ofEdit, TruncatedLiteral.ofEdit, h.lineAt?_start he, h'.lineAt?_start he]

theorem exists_twins {source source' : Text} {limit : TruncationLimit} {spans : List LiteralSpan}
    {g : ByteRange} {literal literal' : Text} (hg : g ∈ resolvedRanges source limit spans)
    (hg' : g ∈ resolvedRanges source' limit spans) (hsize : source'.size = source.size)
    (hbytes : ∀ i < source.size, i < g.start ∨ g.stop ≤ i → source'.bytes[i]? = source.bytes[i]?)
    (hliteral : source.slice? g.start g.stop = some literal)
    (hliteral' : source'.slice? g.start g.stop = some literal')
    (halike : ShownAlike literal literal') :
    ∃ a b, source = a ++ literal ++ b ∧ source' = a ++ literal' ++ b ∧
      g = ⟨a.size, size (a ++ literal)⟩ ∧ Twins a literal literal' b := by
  obtain ⟨a, m, b, rfl, hpart, rfl⟩ := exists_part_of_mem_resolvedRanges hg
  obtain ⟨a', m', b', rfl, hpart', hrange⟩ := exists_part_of_mem_resolvedRanges hg'
  obtain ⟨hstart, hstop⟩ := ByteRange.mk.inj hrange
  simp only [slice?_append, Option.some.injEq] at hliteral
  simp only [hstart, hstop, slice?_append, Option.some.injEq] at hliteral'
  subst hliteral hliteral'
  obtain ⟨rfl, rfl⟩ : a' = a ∧ b' = b := by
    refine eq_outside_of_bytes hstart.symm hstop.symm fun i hi => ?_
    by_cases hin : i < size (a ++ m ++ b)
    · exact hbytes i hin hi
    · rw [List.getElem?_eq_none (by rw [length_bytes]; omega),
        List.getElem?_eq_none (by rw [length_bytes]; omega)]
  have hsizes : m'.size = m.size := by
    simp only [size_append] at hstop
    omega
  exact ⟨a', b', rfl, rfl, rfl, hpart, hpart', hsizes, halike.truncated_eq hsizes⟩

/-- The middle of a truncated literal is hidden: if two sources of one size differ within one range
only, which is reported for both, and what it holds begins and ends alike there and breaks as many
lines, truncation gives one text and reports the same literals. -/
theorem truncate?_hides_middle (source source' : Text) (spans : List LiteralSpan)
    (limit : TruncationLimit) (g : ByteRange) (hsize : source'.size = source.size)
    (hbytes : ∀ i < source.size, i < g.start ∨ g.stop ≤ i →
      source'.bytes[i]? = source.bytes[i]?) :
    ∃ r r', truncate? source spans limit = some r ∧ truncate? source' spans limit = some r' ∧
      (g ∈ r.ranges → g ∈ r'.ranges → ∀ literal literal',
        source.slice? g.start g.stop = some literal →
        source'.slice? g.start g.stop = some literal' → ShownAlike literal literal' →
        r'.text = r.text ∧ r'.literals = r.literals) := by
  obtain ⟨text, htext, hshort⟩ := exists_truncation source spans limit
  obtain ⟨text', htext', hshort'⟩ := exists_truncation source' spans limit
  refine ⟨_, _, htext, htext', fun hg hg' literal literal' hliteral hliteral' halike => ?_⟩
  rw [ranges_of_truncate? htext] at hg
  rw [ranges_of_truncate? htext'] at hg'
  obtain ⟨a, b, rfl, rfl, rfl, htwins⟩ :=
    exists_twins hg hg' hsize hbytes hliteral hliteral' halike
  rw [htwins.resolved_usableEdits hg hg'] at hshort' ⊢
  obtain rfl := htwins.result_eq hshort hshort' hg
  exact ⟨rfl, List.map_congr_left fun e he => hshort.ofEdit_eq hshort' spans he⟩

/-- Two bytes in the middle of a literal that are two characters or one. A second span begins between
them and is usable in the first source only. -/
theorem truncate?_hides_middle_accent :
    let t := ofString "<0123456789abcdefghijee0123456789abcdefghij>"
    let t' := ofString "<0123456789abcdefghijé0123456789abcdefghij>"
    let spans : List LiteralSpan := [⟨22, 40, .string⟩, ⟨0, 44, .string⟩]
    ∃ r r', truncate? t spans (.maxBytes 3) = some r ∧ truncate? t' spans (.maxBytes 3) = some r' ∧
      (⟨22, 40, .string⟩ : LiteralSpan).Usable t (.maxBytes 3) ∧
      ¬ (⟨22, 40, .string⟩ : LiteralSpan).Usable t' (.maxBytes 3) ∧
      r'.text = r.text ∧ r'.literals = r.literals := by
  dsimp only
  obtain ⟨r, r', hr, hr', hsame⟩ := truncate?_hides_middle
    (ofString "<0123456789abcdefghijee0123456789abcdefghij>")
    (ofString "<0123456789abcdefghijé0123456789abcdefghij>")
    [⟨22, 40, .string⟩, ⟨0, 44, .string⟩] (.maxBytes 3) ⟨0, 44⟩ (by decide) (by decide +kernel)
  have hranges : ⟨0, 44⟩ ∈ r.ranges := by
    rw [ranges_of_truncate? hr]
    exact (mem_resolvedRanges_iff_outermost (by decide +kernel)).2 (by decide +kernel)
  have hranges' : ⟨0, 44⟩ ∈ r'.ranges := by
    rw [ranges_of_truncate? hr']
    exact (mem_resolvedRanges_iff_outermost (by decide +kernel)).2 (by decide +kernel)
  have hslice : (ofString "<0123456789abcdefghijee0123456789abcdefghij>").slice? 0 44 =
      some (ofString "<0123456789abcdefghijee0123456789abcdefghij>") := by decide +kernel
  have hslice' : (ofString "<0123456789abcdefghijé0123456789abcdefghij>").slice? 0 44 =
      some (ofString "<0123456789abcdefghijé0123456789abcdefghij>") := by decide +kernel
  have halike : ShownAlike (ofString "<0123456789abcdefghijee0123456789abcdefghij>")
      (ofString "<0123456789abcdefghijé0123456789abcdefghij>") :=
    ⟨by decide +kernel, by decide +kernel, by decide +kernel⟩
  exact ⟨r, r', hr, hr', by decide +kernel, by decide +kernel,
    hsame hranges hranges' _ _ hslice hslice' halike⟩

end SourceWindow
