import SourceWindow.Proofs.Truncation.Outermost

set_option autoImplicit false

namespace SourceWindow
open Text

structure Text.CleanPart (a m b : Text) : Prop where
  ne_nil : m ≠ []
  left : CleanCut a (m ++ b)
  right : CleanCut (a ++ m) b

theorem Edit.truncates_iff {source : Text} {e : Edit} :
    e.Truncates source ↔ ∃ a m b, source = a ++ m ++ b ∧ CleanPart a m b ∧
      e = ⟨a.size, size (a ++ m), m.truncated⟩ := by
  constructor
  · rintro ⟨a, m, b, hsource, hne, hleft, hright, he⟩
    exact ⟨a, m, b, hsource, ⟨hne, hleft, hright⟩, he⟩
  · rintro ⟨a, m, b, hsource, hpart, he⟩
    exact ⟨a, m, b, hsource, hpart.ne_nil, hpart.left, hpart.right, he⟩

def LiteralSpan.usableEdit? (source : Text) (limit : TruncationLimit) (s : LiteralSpan) :
    Option Edit :=
  if s.usable source limit = true then s.edit? source else none

theorem usableEdits_eq_filterMap (source : Text) (limit : TruncationLimit)
    (spans : List LiteralSpan) :
    usableEdits source limit spans = spans.filterMap (·.usableEdit? source limit) := by
  rw [usableEdits, usableSpans, List.filterMap_filter]
  rfl

theorem LiteralSpan.usableEdit?_eq_some_iff {source : Text} {limit : TruncationLimit}
    {s : LiteralSpan} {e : Edit} :
    s.usableEdit? source limit = some e ↔
      e.Truncates source ∧ e.range = s.range ∧ s.overlong limit = true := by
  unfold usableEdit?
  constructor
  · intro h
    obtain ⟨husable, hedit⟩ := (Option.ite_none_right_eq_some).1 h
    obtain ⟨e', he', htrunc, hstart, hstop⟩ := edit?_of_usable (usable_iff.1 husable)
    obtain rfl : e' = e := Option.some.inj (he'.symm.trans hedit)
    refine ⟨htrunc, ?_, (Bool.and_eq_true_iff.1 husable).1⟩
    rw [Edit.range, hstart, hstop]
    rfl
  · rintro ⟨htrunc, hrange, hlong⟩
    obtain ⟨hstart, hstop⟩ := ByteRange.mk.inj hrange
    have husable := htrunc.usable hstart hstop (overlong_iff.1 hlong)
    obtain ⟨e', he', htrunc', hstart', hstop'⟩ := edit?_of_usable husable
    have hsame : e' = e := by
      rw [htrunc'.eq_of_slice, htrunc.eq_of_slice, hstart', hstop', hstart, hstop]
    rw [if_pos (usable_iff.2 husable), he', hsame]

end SourceWindow
