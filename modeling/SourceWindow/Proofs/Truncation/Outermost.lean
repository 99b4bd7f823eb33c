import SourceWindow.Proofs.Edit.Selection
import SourceWindow.Proofs.Truncation.Report

/-!
Which literals are truncated. Every over-long span is usable or counted as skipped, and of the usable
ones those are reported that overlap no reported literal that outranks them. In a syntax tree, whose
spans are nested or disjoint, these are the outermost.
-/

set_option autoImplicit false

namespace SourceWindow
open Text

def LiteralSpan.range (s : LiteralSpan) : ByteRange := ⟨s.start, s.stop⟩

def TruncatedLiteral.range (l : TruncatedLiteral) : ByteRange := ⟨l.start, l.stop⟩

def Truncation.ranges (r : Truncation) : List ByteRange := r.literals.map (·.range)

section
variable {source : Text} {limit : TruncationLimit} {spans : List LiteralSpan}

theorem Edit.Truncates.eq_of_slice {e : Edit} (h : e.Truncates source) :
    e = ⟨e.start, e.stop, ((source.slice? e.start e.stop).getD []).truncated⟩ := by
  obtain ⟨a, literal, b, rfl, -, -, -, rfl⟩ := h
  simp only [slice?_append, Option.getD_some]

theorem consistent_usableEdits : (usableEdits source limit spans).Consistent := by
  intro e he d hd hstart hstop
  rw [(exists_span_of_mem_usableEdits he).1.eq_of_slice,
    (exists_span_of_mem_usableEdits hd).1.eq_of_slice, hstart, hstop]

theorem start_lt_stop_of_mem_usableEdits :
    ∀ e ∈ usableEdits source limit spans, e.start < e.stop :=
  fun _ he => (exists_span_of_mem_usableEdits he).1.start_lt_stop

theorem mem_usableEdits_range {g : ByteRange} :
    (∃ e ∈ usableEdits source limit spans, e.range = g) ↔
      ∃ s ∈ spans, s.Usable source limit ∧ s.range = g := by
  constructor
  · rintro ⟨e, he, rfl⟩
    obtain ⟨-, s, hs, husable, hstart, hstop⟩ := exists_span_of_mem_usableEdits he
    refine ⟨s, hs, husable, ?_⟩
    rw [LiteralSpan.range, Edit.range, hstart, hstop]
  · rintro ⟨s, hs, husable, rfl⟩
    obtain ⟨e, he, -, hstart, hstop⟩ := LiteralSpan.edit?_of_usable husable
    have hmem := List.mem_filter.2 ⟨hs, LiteralSpan.usable_iff.2 husable⟩
    refine ⟨e, List.mem_filterMap.2 ⟨s, hmem, he⟩, ?_⟩
    rw [LiteralSpan.range, Edit.range, hstart, hstop]

theorem forall_usableEdits_range {P : ByteRange → Prop} :
    (∀ e ∈ usableEdits source limit spans, P e.range) ↔
      ∀ s ∈ spans, s.Usable source limit → P s.range := by
  constructor
  · intro h s hs husable
    obtain ⟨e, he, hrange⟩ := mem_usableEdits_range.2 ⟨s, hs, husable, rfl⟩
    exact hrange ▸ h e he
  · intro h e he
    obtain ⟨s, hs, husable, hrange⟩ := mem_usableEdits_range.1 ⟨e, he, rfl⟩
    exact hrange ▸ h s hs husable

theorem range_ofEdit {e : Edit} (h : e.start < e.stop) :
    (TruncatedLiteral.ofEdit source spans e).range = e.range := by
  have hstop : e.start + (e.stop - e.start) = e.stop := by omega
  simp only [TruncatedLiteral.range, TruncatedLiteral.stop, TruncatedLiteral.ofEdit, Edit.range,
    hstop]

/-- The ranges of the edits made, which are those that are reported. -/
def resolvedRanges (source : Text) (limit : TruncationLimit) (spans : List LiteralSpan) :
    List ByteRange :=
  (usableEdits source limit spans).resolved.map (·.range)

theorem map_range_ofEdit :
    ((usableEdits source limit spans).resolved.map (TruncatedLiteral.ofEdit source spans)).map
      (·.range) = resolvedRanges source limit spans := by
  rw [List.map_map]
  refine List.map_congr_left fun e he => range_ofEdit ?_
  exact start_lt_stop_of_mem_usableEdits e (EditSet.mem_of_mem_resolved he)

theorem ranges_of_truncate? {r : Truncation} (h : truncate? source spans limit = some r) :
    r.ranges = resolvedRanges source limit spans := by
  obtain ⟨text, htext, -⟩ := exists_truncation source spans limit
  obtain rfl := Option.some.inj (htext.symm.trans h)
  exact map_range_ofEdit

theorem range_mem_resolvedRanges {e : Edit} (he : e ∈ usableEdits source limit spans) :
    e.range ∈ resolvedRanges source limit spans ↔
      e ∈ (usableEdits source limit spans).resolved := by
  refine ⟨fun h => ?_, List.mem_map_of_mem⟩
  obtain ⟨d, hd, hrange⟩ := List.mem_map.1 h
  have hd' := EditSet.mem_of_mem_resolved hd
  rwa [consistent_usableEdits.eq_of_range_eq he hd' hrange.symm]

theorem mem_resolvedRanges_or {s : LiteralSpan} (hs : s ∈ spans) (husable : s.Usable source limit) :
    s.range ∈ resolvedRanges source limit spans ∨
      ∃ g ∈ resolvedRanges source limit spans, g.Outranks s.range ∧ g.Overlaps s.range := by
  obtain ⟨e, he, hrange⟩ := mem_usableEdits_range.2 ⟨s, hs, husable, rfl⟩
  rw [← hrange, range_mem_resolvedRanges he]
  rcases EditSet.mem_resolved_or consistent_usableEdits he with h | ⟨k, hk, h⟩
  · exact .inl h
  · exact .inr ⟨k.range, List.mem_map_of_mem hk, h⟩

theorem mem_resolvedRanges_iff {s : LiteralSpan} (hs : s ∈ spans)
    (husable : s.Usable source limit) :
    s.range ∈ resolvedRanges source limit spans ↔
      ∀ g ∈ resolvedRanges source limit spans, g.Outranks s.range → ¬ g.Overlaps s.range := by
  obtain ⟨e, he, hrange⟩ := mem_usableEdits_range.2 ⟨s, hs, husable, rfl⟩
  rw [← hrange, range_mem_resolvedRanges he, resolvedRanges, List.forall_mem_map]
  exact EditSet.mem_resolved_iff consistent_usableEdits start_lt_stop_of_mem_usableEdits he

theorem nestedOrDisjoint_usableEdits
    (hnested : ∀ s ∈ spans, ∀ t ∈ spans, s.Usable source limit → t.Usable source limit →
      s.range.NestedOrDisjoint t.range) :
    ∀ a ∈ usableEdits source limit spans, ∀ b ∈ usableEdits source limit spans,
      a.range.NestedOrDisjoint b.range := by
  intro a ha
  obtain ⟨s, hs, husable, hrange⟩ := mem_usableEdits_range.1 ⟨a, ha, rfl⟩
  rw [← hrange]
  exact forall_usableEdits_range.2 fun t ht => hnested s hs t ht husable

theorem mem_resolvedRanges_iff_outermost
    (hnested : ∀ s ∈ spans, ∀ t ∈ spans, s.Usable source limit → t.Usable source limit →
      s.range.NestedOrDisjoint t.range) {g : ByteRange} :
    g ∈ resolvedRanges source limit spans ↔ (∃ s ∈ spans, s.Usable source limit ∧ s.range = g) ∧
      ∀ t ∈ spans, t.Usable source limit → g.Within t.range → t.range = g := by
  have houtermost {e : Edit} (he : e ∈ usableEdits source limit spans) :=
    EditSet.mem_resolved_iff_outermost consistent_usableEdits start_lt_stop_of_mem_usableEdits
      (nestedOrDisjoint_usableEdits hnested) he
  rw [← mem_usableEdits_range,
    ← forall_usableEdits_range (P := fun k => g.Within k → k = g)]
  constructor
  · intro hg
    obtain ⟨e, hkept, rfl⟩ := List.mem_map.1 hg
    have he := EditSet.mem_of_mem_resolved hkept
    exact ⟨⟨e, he, rfl⟩, (houtermost he).1 hkept⟩
  · rintro ⟨⟨e, he, rfl⟩, houter⟩
    exact List.mem_map_of_mem ((houtermost he).2 houter)

theorem length_overlong_sub_usable :
    (spans.filter (·.overlong limit)).length - (usableSpans source limit spans).length =
      spans.countP fun s => s.Overlong limit ∧ ¬ s.Usable source limit := by
  have hsplit := List.length_eq_countP_add_countP (·.replaceable source)
    (l := spans.filter (·.overlong limit))
  have husable : (spans.filter (·.overlong limit)).countP (·.replaceable source) =
      (usableSpans source limit spans).length := by
    rw [List.countP_eq_length_filter, filter_overlong_replaceable]
  rw [hsplit, husable, Nat.add_sub_cancel_left, List.countP_filter]
  refine List.countP_congr fun s _ => ?_
  rw [decide_eq_true_eq, ← LiteralSpan.usable_iff, ← LiteralSpan.overlong_iff, LiteralSpan.usable]
  cases s.overlong limit <;> cases s.replaceable source <;> simp

end

/-- Every over-long span that is not usable is counted as skipped. The range of a usable one is
reported unless it overlaps a reported range that outranks it, which then starts no later. Where the
usable spans are nested or disjoint, their outermost ranges are reported. -/
theorem truncate?_reports_outermost (source : Text) (spans : List LiteralSpan)
    (limit : TruncationLimit) :
    ∃ r, truncate? source spans limit = some r ∧
      r.skipped = spans.countP (fun s => s.Overlong limit ∧ ¬ s.Usable source limit) ∧
      (∀ s ∈ spans, s.Usable source limit →
        (s.range ∈ r.ranges ↔ ∀ g ∈ r.ranges, g.Outranks s.range → ¬ g.Overlaps s.range) ∧
        (s.range ∈ r.ranges ∨ ∃ g ∈ r.ranges, g.start ≤ s.start ∧ g.Overlaps s.range)) ∧
      ((∀ s ∈ spans, ∀ t ∈ spans, s.Usable source limit → t.Usable source limit →
          s.range.NestedOrDisjoint t.range) →
        ∀ g, g ∈ r.ranges ↔ (∃ s ∈ spans, s.Usable source limit ∧ s.range = g) ∧
          ∀ t ∈ spans, t.Usable source limit → g.Within t.range → t.range = g) := by
  obtain ⟨text, htext, -⟩ := exists_truncation source spans limit
  refine ⟨_, htext, length_overlong_sub_usable, fun s hs husable => ?_, fun hnested g => ?_⟩
  · rw [ranges_of_truncate? htext]
    refine ⟨mem_resolvedRanges_iff hs husable, ?_⟩
    rcases mem_resolvedRanges_or hs husable with h | ⟨g, hg, hrank, hover⟩
    · exact .inl h
    · refine .inr ⟨g, hg, ?_, hover⟩
      simp only [ByteRange.Outranks, LiteralSpan.range] at hrank
      omega
  · rw [ranges_of_truncate? htext]
    exact mem_resolvedRanges_iff_outermost hnested

theorem truncate?_reports_outermost_pair :
    let t := ofString "<a <bbb> c>"
    let spans : List LiteralSpan := [⟨3, 8, .string⟩, ⟨3, 20, .string⟩, ⟨0, 11, .template⟩]
    ∃ r, truncate? t spans (.maxBytes 2) = some r ∧ r.skipped = 1 ∧
      ⟨0, 11⟩ ∈ r.ranges ∧ ⟨3, 8⟩ ∉ r.ranges := by
  dsimp only
  obtain ⟨r, hr, hskipped, -, houter⟩ := truncate?_reports_outermost (ofString "<a <bbb> c>")
    [⟨3, 8, .string⟩, ⟨3, 20, .string⟩, ⟨0, 11, .template⟩] (.maxBytes 2)
  have hranges := houter (by decide +kernel)
  refine ⟨r, hr, ?_, (hranges _).2 (by decide +kernel), fun hmem => ?_⟩
  · rw [hskipped]
    decide +kernel
  · have hsame := ((hranges _).1 hmem).2 ⟨0, 11, .template⟩ (by decide) (by decide +kernel)
      (by decide)
    exact absurd hsame (by decide)

end SourceWindow
