import SourceWindow.Proofs.Truncation.Outermost

set_option autoImplicit false

namespace SourceWindow
open Text

def TruncatedLiteral.place (l : TruncatedLiteral) : Nat × Nat × Nat × Nat :=
  (l.line, l.start, l.byteLength, l.lineBreaks)

def LiteralSpan.IsLastOf (spans : List LiteralSpan) (g : ByteRange) (s : LiteralSpan) : Prop :=
  ∃ before behind, spans = before ++ s :: behind ∧ s.range = g ∧ ∀ t ∈ behind, t.range ≠ g

section
variable {source : Text} {limit : TruncationLimit} {spans spans' : List LiteralSpan}

theorem LiteralSpan.range_eq_iff {s : LiteralSpan} {e : Edit} :
    (s.start == e.start && s.stop == e.stop) = true ↔ s.range = e.range := by
  simp [range, Edit.range]

theorem exists_last_of_range {e : Edit} (h : ∃ s ∈ spans, s.range = e.range) :
    ∃ s : LiteralSpan, s.IsLastOf spans e.range ∧ kindOfEdit spans e = s.kind := by
  cases hfind : spans.reverse.find? fun s => s.start == e.start && s.stop == e.stop with
  | none =>
    obtain ⟨s, hs, hrange⟩ := h
    have hno := List.find?_eq_none.1 hfind s (List.mem_reverse.2 hs)
    exact absurd (LiteralSpan.range_eq_iff.2 hrange) hno
  | some s =>
    obtain ⟨hrange, behind, before, hcut, hno⟩ := List.find?_eq_some_iff_append.1 hfind
    refine ⟨s, ⟨before.reverse, behind.reverse, ?_, LiteralSpan.range_eq_iff.1 hrange, ?_⟩, ?_⟩
    · simpa using congrArg List.reverse hcut
    · intro t ht hsame
      have hno := hno t (List.mem_reverse.1 ht)
      rw [LiteralSpan.range_eq_iff.2 hsame] at hno
      cases hno
    · rw [kindOfEdit, hfind]
      rfl

example : kindOfEdit [⟨0, 3, .string⟩, ⟨0, 3, .template⟩] ⟨0, 3, []⟩ = .template := rfl

theorem exists_span_of_mem_resolved {e : Edit}
    (he : e ∈ (usableEdits source limit spans).resolved) : ∃ s ∈ spans, s.range = e.range := by
  obtain ⟨s, hs, -, hrange⟩ :=
    mem_usableEdits_range.1 ⟨e, EditSet.mem_of_mem_resolved he, rfl⟩
  exact ⟨s, hs, hrange⟩

theorem kindOfEdit_perm (h : spans'.Perm spans) {e : Edit} (he : ∃ s ∈ spans, s.range = e.range)
    (hkinds : ∀ s ∈ spans, ∀ t ∈ spans, s.range = t.range → s.kind = t.kind) :
    kindOfEdit spans' e = kindOfEdit spans e := by
  have he' : ∃ s ∈ spans', s.range = e.range := he.imp fun s hs => ⟨h.mem_iff.2 hs.1, hs.2⟩
  obtain ⟨s, ⟨before, behind, rfl, hrange, -⟩, hkind⟩ := exists_last_of_range he
  obtain ⟨t, ⟨before', behind', rfl, hrange', -⟩, hkind'⟩ := exists_last_of_range he'
  rw [hkind, hkind']
  exact hkinds t (h.subset (by simp)) s (by simp) (hrange'.trans hrange.symm)

theorem usableEdits_perm (h : spans'.Perm spans) :
    (usableEdits source limit spans').Perm (usableEdits source limit spans) :=
  (h.filter _).filterMap _

theorem resolved_usableEdits_perm (h : spans'.Perm spans) :
    (usableEdits source limit spans').resolved = (usableEdits source limit spans).resolved :=
  EditSet.resolved_eq_of_perm consistent_usableEdits (usableEdits_perm h)

theorem length_overlong_sub_usable_perm (h : spans'.Perm spans) :
    (spans'.filter (·.overlong limit)).length - (usableSpans source limit spans').length =
      (spans.filter (·.overlong limit)).length - (usableSpans source limit spans).length := by
  have hlong := (h.filter (·.overlong limit)).length_eq
  have husable := (h.filter (·.usable source limit)).length_eq
  unfold usableSpans
  omega

end

/-- The order of the spans changes neither the text nor what is skipped, nor where literals are
reported. The kind reported is that of the last span with the range, so that nothing changes if
spans of one range are of one kind. -/
theorem truncate?_perm (source : Text) (limit : TruncationLimit) {spans spans' : List LiteralSpan}
    (h : spans'.Perm spans) :
    ∃ r r', truncate? source spans limit = some r ∧ truncate? source spans' limit = some r' ∧
      r'.text = r.text ∧ r'.skipped = r.skipped ∧
      r'.literals.map (·.place) = r.literals.map (·.place) ∧
      (∀ l ∈ r.literals, ∃ s : LiteralSpan, s.IsLastOf spans l.range ∧ l.kind = s.kind) ∧
      ((∀ s ∈ spans, ∀ t ∈ spans, s.range = t.range → s.kind = t.kind) → r' = r) := by
  obtain ⟨text, htext, hshort⟩ := exists_truncation source spans limit
  obtain ⟨text', htext', hshort'⟩ := exists_truncation source spans' limit
  rw [resolved_usableEdits_perm h] at htext' hshort'
  rw [length_overlong_sub_usable_perm h] at htext'
  obtain rfl := hshort.result_unique hshort' rfl
  refine ⟨_, _, htext, htext', rfl, rfl, ?_, fun l hl => ?_, fun hkinds => ?_⟩
  · rw [List.map_map, List.map_map]
    rfl
  · obtain ⟨e, he, rfl⟩ := List.mem_map.1 hl
    have hpos := start_lt_stop_of_mem_usableEdits e (EditSet.mem_of_mem_resolved he)
    rw [range_ofEdit hpos]
    exact exists_last_of_range (exists_span_of_mem_resolved he)
  · congr 1
    refine List.map_congr_left fun e he => ?_
    simp only [TruncatedLiteral.ofEdit, kindOfEdit_perm h (exists_span_of_mem_resolved he) hkinds]

theorem truncate?_perm_swapped :
    let t := ofString "<a <bbb> c>"
    let outer : LiteralSpan := ⟨0, 11, .template⟩
    let inner : LiteralSpan := ⟨3, 8, .string⟩
    ∃ r, truncate? t [outer, inner, outer] (.maxBytes 2) = some r ∧
      truncate? t [inner, outer, outer] (.maxBytes 2) = some r ∧ ⟨0, 11⟩ ∈ r.ranges := by
  dsimp only
  obtain ⟨r, r', hr, hr', -, -, -, -, hsame⟩ := truncate?_perm (ofString "<a <bbb> c>")
    (.maxBytes 2) (List.Perm.swap ⟨0, 11, .template⟩ ⟨3, 8, .string⟩ [⟨0, 11, .template⟩])
  rw [hsame (by decide)] at hr'
  refine ⟨r, hr, hr', ?_⟩
  rw [ranges_of_truncate? hr]
  exact (mem_resolvedRanges_iff_outermost (by decide +kernel)).2 (by decide +kernel)

end SourceWindow
