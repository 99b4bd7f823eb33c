import SourceWindow.Proofs.Truncation.Positions

set_option autoImplicit false

namespace SourceWindow
open Text

/-- The edit puts the truncated form of a part of the source in its place, which parts no carriage
return from its line feed. -/
def Edit.Truncates (source : Text) (e : Edit) : Prop :=
  ∃ a literal b, source = a ++ literal ++ b ∧ literal ≠ [] ∧ CleanCut a (literal ++ b) ∧
    CleanCut (a ++ literal) b ∧ e = ⟨a.size, size (a ++ literal), literal.truncated⟩

theorem Edit.Truncates.start_lt_stop {source : Text} {e : Edit} (h : e.Truncates source) :
    e.start < e.stop := by
  obtain ⟨a, literal, b, -, hne, -, -, rfl⟩ := h
  have hpos := size_pos hne
  simp only [size_append]
  omega

theorem Edit.Truncates.fits {source : Text} {e : Edit} (h : e.Truncates source) :
    e.fits source = true := by
  obtain ⟨a, literal, b, rfl, -, -, -, rfl⟩ := h
  exact Edit.fits_iff.2 ⟨a, literal, b, rfl, rfl, rfl⟩

namespace Text

def CleanAt (t : Text) (offset : Nat) : Prop :=
  ∀ a b, t = a ++ b → a.size = offset → CleanCut a b

theorem cleanAt_append {a b : Text} : CleanAt (a ++ b) a.size ↔ CleanCut a b := by
  refine ⟨fun h => h a b rfl rfl, fun h a' b' hcut hsize => ?_⟩
  obtain ⟨rfl, rfl⟩ := append_inj_of_size hcut hsize.symm
  exact h

theorem splitsBreak_eq_false_iff {t : Text} {offset : Nat} :
    t.splitsBreak offset = false ↔ t.CleanAt offset := by
  unfold splitsBreak
  cases hsplit : t.splitAt? offset with
  | none =>
    refine iff_of_true rfl fun a b hcut hsize => ?_
    rw [splitAt?_eq_some_iff.2 ⟨hcut, hsize⟩] at hsplit
    cases hsplit
  | some parts =>
    obtain ⟨a, b⟩ := parts
    obtain ⟨rfl, rfl⟩ := splitAt?_eq_some_iff.1 hsplit
    rw [cleanAt_append]
    cases b with
    | nil => simp
    | cons c b =>
      by_cases hc : c = '\n'
      · subst c
        simp [CleanCut]
      · simp [CleanCut, hc]

end Text

theorem TruncationLimit.isExceededBy_iff {limit : TruncationLimit} {n : Nat} :
    limit.isExceededBy n = true ↔ ∃ m, limit = .maxBytes m ∧ m < n := by
  cases limit <;> simp [isExceededBy]

namespace LiteralSpan
variable {source : Text} {limit : TruncationLimit} {s : LiteralSpan}

def Overlong (limit : TruncationLimit) (s : LiteralSpan) : Prop :=
  ∃ m, limit = .maxBytes m ∧ m < s.stop - s.start

theorem overlong_iff : s.overlong limit = true ↔ s.Overlong limit :=
  TruncationLimit.isExceededBy_iff

instance (limit : TruncationLimit) (s : LiteralSpan) : Decidable (s.Overlong limit) :=
  decidable_of_iff _ overlong_iff

theorem overlong_maxBytes {m : Nat} : s.Overlong (.maxBytes m) ↔ m < s.stop - s.start := by
  simp [Overlong]

theorem Overlong.start_lt_stop (h : s.Overlong limit) : s.start < s.stop := by
  obtain ⟨m, -, hm⟩ := h
  omega

/-- The span is longer than the limit, and both its ends lie in the source, on character boundaries
and between no carriage return and its line feed. -/
structure Usable (source : Text) (limit : TruncationLimit) (s : LiteralSpan) : Prop where
  overlong : s.Overlong limit
  stop_le : s.stop ≤ source.size
  boundary_start : ∃ a b, source = a ++ b ∧ a.size = s.start
  boundary_stop : ∃ a b, source = a ++ b ∧ a.size = s.stop
  clean_start : source.CleanAt s.start
  clean_stop : source.CleanAt s.stop

theorem Usable.of_cut {a literal b : Text} (hlong : s.Overlong limit) (ha : a.size = s.start)
    (hb : Text.size (a ++ literal) = s.stop) (hstart : CleanAt (a ++ literal ++ b) s.start)
    (hstop : CleanAt (a ++ literal ++ b) s.stop) : s.Usable (a ++ literal ++ b) limit := by
  have hle : s.stop ≤ Text.size (a ++ literal ++ b) := by
    rw [← hb, size_append _ b]
    omega
  exact ⟨hlong, hle, ⟨a, literal ++ b, by simp, ha⟩, ⟨a ++ literal, b, rfl, hb⟩, hstart, hstop⟩

theorem Usable.exists_literal (h : s.Usable source limit) :
    ∃ a literal b, source = a ++ literal ++ b ∧ a.size = s.start ∧
      Text.size (a ++ literal) = s.stop := by
  have hlt := h.overlong.start_lt_stop
  obtain ⟨a, r, rfl, ha⟩ := h.boundary_start
  obtain ⟨am, b, hcut, ham⟩ := h.boundary_stop
  obtain ⟨literal, rfl, rfl⟩ := exists_append_of_size_le hcut (by omega)
  exact ⟨a, literal, b, by simp, ha, ham⟩

theorem usable_iff : s.usable source limit = true ↔ s.Usable source limit := by
  unfold usable replaceable
  simp only [Bool.and_eq_true, Bool.not_eq_true', overlong_iff, splitsBreak_eq_false_iff]
  constructor
  · rintro ⟨hlong, ⟨hsome, hstart⟩, hstop⟩
    obtain ⟨literal, hliteral⟩ := Option.isSome_iff_exists.1 hsome
    obtain ⟨a, b, rfl, ha, hb⟩ := slice?_eq_some_iff.1 hliteral
    exact .of_cut hlong ha hb hstart hstop
  · intro h
    obtain ⟨a, literal, b, hsource, ha, hb⟩ := h.exists_literal
    have htext : s.text? source = some literal := slice?_eq_some_iff.2 ⟨a, b, hsource, ha, hb⟩
    exact ⟨h.overlong, ⟨by rw [htext]; rfl, h.clean_start⟩, h.clean_stop⟩

instance (source : Text) (limit : TruncationLimit) (s : LiteralSpan) :
    Decidable (s.Usable source limit) :=
  decidable_of_iff _ usable_iff

theorem edit?_of_usable (h : s.Usable source limit) :
    ∃ e, s.edit? source = some e ∧ e.Truncates source ∧ e.start = s.start ∧ e.stop = s.stop := by
  obtain ⟨a, literal, b, rfl, ha, hb⟩ := h.exists_literal
  have hliteral : s.text? (a ++ literal ++ b) = some literal :=
    slice?_eq_some_iff.2 ⟨a, b, rfl, ha, hb⟩
  have hne : literal ≠ [] := by
    rintro rfl
    have hlt := h.overlong.start_lt_stop
    rw [List.append_nil] at hb
    omega
  have hstart := h.clean_start a (literal ++ b) (by simp) ha
  have hstop := h.clean_stop (a ++ literal) b rfl hb
  refine ⟨⟨s.start, s.stop, literal.truncated⟩, by rw [edit?, hliteral]; rfl, ?_, rfl, rfl⟩
  exact ⟨a, literal, b, rfl, hne, hstart, hstop, by rw [ha, hb]⟩

theorem usable_congr {t : LiteralSpan} (hstart : t.start = s.start) (hstop : t.stop = s.stop)
    (source : Text) (limit : TruncationLimit) : t.usable source limit = s.usable source limit := by
  simp only [usable, LiteralSpan.overlong, replaceable, size, text?, hstart, hstop]

end LiteralSpan

/-- What is truncated is the range of a usable span, if the span is over-long. -/
theorem Edit.Truncates.usable {source : Text} {limit : TruncationLimit} {e : Edit} {s : LiteralSpan}
    (h : e.Truncates source) (hstart : e.start = s.start) (hstop : e.stop = s.stop)
    (hlong : s.Overlong limit) : s.Usable source limit := by
  obtain ⟨a, literal, b, rfl, -, hleft, hright, rfl⟩ := h
  simp only at hstart hstop
  refine .of_cut hlong hstart hstop ?_ ?_
  · rw [← hstart, List.append_assoc]
    exact cleanAt_append.2 hleft
  · rw [← hstop]
    exact cleanAt_append.2 hright

def usableSpans (source : Text) (limit : TruncationLimit) (spans : List LiteralSpan) :
    List LiteralSpan :=
  spans.filter (·.usable source limit)

def usableEdits (source : Text) (limit : TruncationLimit) (spans : List LiteralSpan) : EditSet :=
  (usableSpans source limit spans).filterMap (·.edit? source)

theorem filter_overlong_replaceable (source : Text) (limit : TruncationLimit)
    (spans : List LiteralSpan) :
    (spans.filter (·.overlong limit)).filter (·.replaceable source) =
      usableSpans source limit spans := by
  rw [List.filter_filter]
  exact List.filter_congr fun s _ => Bool.and_comm _ _

theorem exists_span_of_mem_usableEdits {source : Text} {limit : TruncationLimit}
    {spans : List LiteralSpan} {e : Edit} (h : e ∈ usableEdits source limit spans) :
    e.Truncates source ∧
      ∃ s ∈ spans, s.Usable source limit ∧ e.start = s.start ∧ e.stop = s.stop := by
  obtain ⟨s, hs, he⟩ := List.mem_filterMap.1 h
  obtain ⟨hs, husable⟩ := List.mem_filter.1 hs
  have husable := LiteralSpan.usable_iff.1 husable
  obtain ⟨e', he', htrunc, hstart, hstop⟩ := LiteralSpan.edit?_of_usable husable
  obtain rfl : e' = e := Option.some.inj (he'.symm.trans he)
  exact ⟨htrunc, s, hs, husable, hstart, hstop⟩

end SourceWindow
