import SourceWindow.Proofs.Truncation.Edits
import Mathlib.Data.List.Basic

set_option autoImplicit false

namespace SourceWindow
open Text

section
variable {source : Text} {spans : List LiteralSpan} {m n : Nat}

theorem LiteralSpan.Usable.of_le {s : LiteralSpan} (hle : m ≤ n)
    (h : s.Usable source (.maxBytes n)) : s.Usable source (.maxBytes m) := by
  have hlong := overlong_maxBytes.1 h.overlong
  exact { h with overlong := overlong_maxBytes.2 (by omega) }

theorem LiteralSpan.usableEdit?_of_le (hle : m ≤ n) (s : LiteralSpan) :
    s.usableEdit? source (.maxBytes n) =
      (s.usableEdit? source (.maxBytes m)).filter (fun e => n < e.stop - e.start) := by
  refine Option.ext fun e => ?_
  rw [Option.filter_eq_some_iff, usableEdit?_eq_some_iff, usableEdit?_eq_some_iff, overlong_iff,
    overlong_iff, overlong_maxBytes, overlong_maxBytes, decide_eq_true_eq]
  constructor
  · intro h
    obtain ⟨htrunc, hrange, hlong⟩ := h
    obtain ⟨hstart, hstop⟩ := ByteRange.mk.inj hrange
    exact ⟨⟨htrunc, hrange, by omega⟩, by omega⟩
  · intro h
    obtain ⟨⟨htrunc, hrange, -⟩, hlong⟩ := h
    obtain ⟨hstart, hstop⟩ := ByteRange.mk.inj hrange
    exact ⟨htrunc, hrange, by omega⟩

theorem usableEdits_of_le (hle : m ≤ n) :
    usableEdits source (.maxBytes n) spans =
      (usableEdits source (.maxBytes m) spans).filter (fun e => n < e.stop - e.start) := by
  rw [usableEdits_eq_filterMap, usableEdits_eq_filterMap, List.filter_filterMap]
  exact List.filterMap_congr fun s _ => LiteralSpan.usableEdit?_of_le hle s

theorem resolved_usableEdits_of_le (hle : m ≤ n)
    (hnested : ∀ s ∈ spans, ∀ t ∈ spans, s.Usable source (.maxBytes m) →
      t.Usable source (.maxBytes m) → s.range.NestedOrDisjoint t.range) :
    (usableEdits source (.maxBytes n) spans).resolved =
      (usableEdits source (.maxBytes m) spans).resolved.filter
        (fun e => n < e.stop - e.start) := by
  rw [usableEdits_of_le hle]
  refine EditSet.resolved_filter_of_within consistent_usableEdits
    start_lt_stop_of_mem_usableEdits (nestedOrDisjoint_usableEdits hnested) ?_
  intro a _ b _ hwithin hlong
  simp only [ByteRange.Within, Edit.range, decide_eq_true_eq] at *
  omega

end

/-- Let the spans that are usable at limit zero, which are those that take up bytes of the source
and can be replaced, be nested or disjoint. Then what is reported at a greater limit is what is
reported at a smaller one but for the literals that the greater limit admits. -/
theorem truncate?_raised_limit (source : Text) (spans : List LiteralSpan) {m n : Nat} (hle : m ≤ n)
    (hnested : ∀ s ∈ spans, ∀ t ∈ spans, s.Usable source (.maxBytes 0) →
      t.Usable source (.maxBytes 0) → s.range.NestedOrDisjoint t.range) :
    ∃ r r', truncate? source spans (.maxBytes m) = some r ∧
      truncate? source spans (.maxBytes n) = some r' ∧
      r'.literals = r.literals.filter (fun l => n < l.byteLength) := by
  obtain ⟨text, hr, -⟩ := exists_truncation source spans (.maxBytes m)
  obtain ⟨text', hr', -⟩ := exists_truncation source spans (.maxBytes n)
  refine ⟨_, _, hr, hr', ?_⟩
  have hresolved := resolved_usableEdits_of_le hle fun s hs t ht husable husable' =>
    hnested s hs t ht (husable.of_le (Nat.zero_le m)) (husable'.of_le (Nat.zero_le m))
  simp only [hresolved, List.filter_map]
  rfl

theorem truncate?_raised_limit_nested :
    let source := ofString "<a <bbb> c> <d>,"
    let spans : List LiteralSpan :=
      [⟨12, 15, .string⟩, ⟨3, 8, .string⟩, ⟨0, 30, .string⟩, ⟨0, 11, .template⟩]
    ∃ r r', truncate? source spans (.maxBytes 2) = some r ∧
      truncate? source spans (.maxBytes 4) = some r' ∧
      r'.literals = r.literals.filter (fun l => 4 < l.byteLength) ∧
      ⟨12, 15⟩ ∈ r.ranges ∧ ⟨0, 11⟩ ∈ r'.ranges ∧ ⟨12, 15⟩ ∉ r'.ranges := by
  intro source spans
  obtain ⟨r, r', hr, hr', hliterals⟩ :=
    truncate?_raised_limit source spans (show 2 ≤ 4 by decide) (by decide +kernel)
  refine ⟨r, r', hr, hr', hliterals, ?_⟩
  rw [ranges_of_truncate? hr, ranges_of_truncate? hr']
  have hsmaller (g : ByteRange) : g ∈ resolvedRanges source (.maxBytes 2) spans ↔ _ :=
    mem_resolvedRanges_iff_outermost (by decide +kernel)
  have hgreater (g : ByteRange) : g ∈ resolvedRanges source (.maxBytes 4) spans ↔ _ :=
    mem_resolvedRanges_iff_outermost (by decide +kernel)
  exact ⟨(hsmaller _).2 (by decide +kernel), (hgreater _).2 (by decide +kernel),
    mt (hgreater _).1 (by decide +kernel)⟩

end SourceWindow
