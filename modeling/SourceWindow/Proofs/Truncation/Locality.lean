import SourceWindow.Proofs.Edit.Halves
import SourceWindow.Proofs.Lines.Offsets
import SourceWindow.Proofs.Truncation.Edits
import Mathlib.Data.List.Basic

/-!
Truncation in two halves. A text that is cut in two, though not between a carriage return and its
line feed, is truncated half by half: no span of one half affects what becomes of the other. What is
reported of the second half is moved by the bytes and the line breaks of the first.
-/

set_option autoImplicit false

namespace SourceWindow
open Text

def LiteralSpan.movedBy (bytes : Nat) (s : LiteralSpan) : LiteralSpan :=
  ⟨bytes + s.start, bytes + s.stop, s.kind⟩

def TruncatedLiteral.movedBy (bytes lines : Nat) (l : TruncatedLiteral) : TruncatedLiteral :=
  { l with line := lines + l.line, start := bytes + l.start }

namespace Text.CleanPart

variable {a m b c : Text}

theorem append_right (h : CleanPart a m b) (hcut : CleanCut (a ++ m ++ b) c) :
    CleanPart a m (b ++ c) := by
  refine ⟨h.ne_nil, h.left.of_append_right.append_right h.ne_nil _, ?_⟩
  by_cases hb : b = []
  · subst hb
    simpa using hcut
  · exact h.right.append_right hb c

theorem of_append_right (h : CleanPart a m (b ++ c)) : CleanPart a m b :=
  ⟨h.ne_nil, h.left.of_append_right.append_right h.ne_nil b, h.right.of_append_right⟩

theorem append_left (h : CleanPart a m b) (hcut : CleanCut c (a ++ m ++ b)) :
    CleanPart (c ++ a) m b := by
  refine ⟨h.ne_nil, ?_, ?_⟩
  · by_cases ha : a = []
    · subst ha
      simpa using hcut
    · exact h.left.append_left ha c
  · rw [List.append_assoc]
    exact h.right.append_left (by simp [h.ne_nil]) c

theorem of_append_left (h : CleanPart (c ++ a) m b) : CleanPart a m b := by
  refine ⟨h.ne_nil, h.left.of_append_left, CleanCut.of_append_left (a := c) ?_⟩
  rw [← List.append_assoc]
  exact h.right

end Text.CleanPart

namespace Edit.Truncates

variable {s₁ s₂ : Text} {e : Edit}

theorem append (h : e.Truncates s₁) (hcut : CleanCut s₁ s₂) : e.Truncates (s₁ ++ s₂) := by
  obtain ⟨a, m, b, rfl, hpart, rfl⟩ := truncates_iff.1 h
  exact truncates_iff.2 ⟨a, m, b ++ s₂, by simp, hpart.append_right hcut, rfl⟩

theorem of_append (h : e.Truncates (s₁ ++ s₂)) (hle : e.stop ≤ s₁.size) : e.Truncates s₁ := by
  obtain ⟨a, m, b, hcut, hpart, rfl⟩ := truncates_iff.1 h
  obtain ⟨k, rfl, rfl⟩ := exists_append_of_size_le hcut.symm hle
  exact truncates_iff.2 ⟨a, m, k, rfl, hpart.of_append_right, rfl⟩

theorem behind (h : e.Truncates s₂) (hcut : CleanCut s₁ s₂) :
    (e.movedBy s₁.size).Truncates (s₁ ++ s₂) := by
  obtain ⟨a, m, b, rfl, hpart, rfl⟩ := truncates_iff.1 h
  refine truncates_iff.2 ⟨s₁ ++ a, m, b, by simp, hpart.append_left hcut, ?_⟩
  simp only [movedBy, size_append, Nat.add_assoc]

theorem of_behind (h : (e.movedBy s₁.size).Truncates (s₁ ++ s₂)) : e.Truncates s₂ := by
  obtain ⟨a, m, b, hcut, hpart, he⟩ := truncates_iff.1 h
  obtain ⟨hstart, hstop, hreplacement⟩ := Edit.mk.inj he
  obtain ⟨k, rfl, rfl⟩ : ∃ k, a = s₁ ++ k ∧ s₂ = k ++ (m ++ b) :=
    exists_append_of_size_le (by rw [hcut, List.append_assoc]) (by omega)
  refine truncates_iff.2 ⟨k, m, b, by simp, hpart.of_append_left, ?_⟩
  cases e
  simp only [size_append] at hstart hstop ⊢
  simp only [mk.injEq]
  exact ⟨by omega, by omega, hreplacement⟩

end Edit.Truncates

section
variable {s₁ s₂ : Text} {limit : TruncationLimit}

theorem LiteralSpan.usableEdit?_append {s : LiteralSpan} (hcut : CleanCut s₁ s₂)
    (hs : s.stop ≤ s₁.size) :
    s.usableEdit? (s₁ ++ s₂) limit = s.usableEdit? s₁ limit := by
  refine Option.ext fun e => ?_
  rw [usableEdit?_eq_some_iff, usableEdit?_eq_some_iff]
  constructor
  · rintro ⟨htrunc, hrange, hlong⟩
    have hstop : e.stop = s.stop := congrArg ByteRange.stop hrange
    exact ⟨htrunc.of_append (by omega), hrange, hlong⟩
  · rintro ⟨htrunc, hrange, hlong⟩
    exact ⟨htrunc.append hcut, hrange, hlong⟩

theorem LiteralSpan.overlong_movedBy (limit : TruncationLimit) (bytes : Nat) (s : LiteralSpan) :
    (s.movedBy bytes).overlong limit = s.overlong limit := by
  simp only [overlong, size, movedBy, Nat.add_sub_add_left]

theorem LiteralSpan.usableEdit?_movedBy (hcut : CleanCut s₁ s₂) (s : LiteralSpan) :
    (s.movedBy s₁.size).usableEdit? (s₁ ++ s₂) limit =
      (s.usableEdit? s₂ limit).map (·.movedBy s₁.size) := by
  refine Option.ext fun e => ?_
  rw [Option.map_eq_some_iff, usableEdit?_eq_some_iff, overlong_movedBy]
  constructor
  · rintro ⟨htrunc, hrange, hlong⟩
    obtain ⟨hstart, hstop⟩ := ByteRange.mk.inj hrange
    have he : e = Edit.movedBy s₁.size ⟨s.start, s.stop, e.replacement⟩ := by
      cases e
      simp_all [movedBy, Edit.movedBy]
    rw [he] at htrunc
    exact ⟨_, usableEdit?_eq_some_iff.2 ⟨htrunc.of_behind, rfl, hlong⟩, he.symm⟩
  · rintro ⟨d, hd, rfl⟩
    obtain ⟨htrunc, hrange, hlong⟩ := usableEdit?_eq_some_iff.1 hd
    obtain ⟨hstart, hstop⟩ := ByteRange.mk.inj hrange
    refine ⟨htrunc.behind hcut, ?_, hlong⟩
    simp only [Edit.range, Edit.movedBy, range, movedBy, hstart, hstop]

theorem usableEdits_append {spans₁ spans₂ : List LiteralSpan} (hcut : CleanCut s₁ s₂)
    (h : ∀ s ∈ spans₁, s.stop ≤ s₁.size) :
    usableEdits (s₁ ++ s₂) limit (spans₁ ++ spans₂.map (·.movedBy s₁.size)) =
      usableEdits s₁ limit spans₁ ++ (usableEdits s₂ limit spans₂).map (·.movedBy s₁.size) := by
  have hleft : spans₁.filterMap (·.usableEdit? (s₁ ++ s₂) limit) =
      spans₁.filterMap (·.usableEdit? s₁ limit) :=
    List.filterMap_congr fun s hs => LiteralSpan.usableEdit?_append hcut (h s hs)
  simp only [usableEdits_eq_filterMap, List.filterMap_append, List.filterMap_map,
    List.map_filterMap, hleft, Function.comp_def, LiteralSpan.usableEdit?_movedBy hcut]

theorem resolved_usableEdits_append {spans₁ spans₂ : List LiteralSpan} (hcut : CleanCut s₁ s₂)
    (h : ∀ s ∈ spans₁, s.stop ≤ s₁.size) :
    (usableEdits (s₁ ++ s₂) limit (spans₁ ++ spans₂.map (·.movedBy s₁.size))).resolved =
      (usableEdits s₁ limit spans₁).resolved ++
        (usableEdits s₂ limit spans₂).resolved.map (·.movedBy s₁.size) := by
  have hcons : (usableEdits (s₁ ++ s₂) limit
      (spans₁ ++ spans₂.map (·.movedBy s₁.size))).Consistent := consistent_usableEdits
  rw [usableEdits_append hcut h] at hcons ⊢
  rw [EditSet.resolved_append hcons start_lt_stop_of_mem_usableEdits, EditSet.resolved_movedBy]
  intro e he d hd
  obtain ⟨-, s, hs, -, -, hstop⟩ := exists_span_of_mem_usableEdits he
  obtain ⟨d, -, rfl⟩ := List.mem_map.1 hd
  have hle := h s hs
  simp only [Edit.Before, Edit.movedBy]
  omega

end

namespace Shortening

variable {before s₁ s₂ r₁ r₂ : Text} {es₁ es₂ : List Edit}

theorem append (h₁ : Shortening before s₁ es₁ r₁) (h₂ : Shortening (before ++ s₁) s₂ es₂ r₂)
    (hcut : CleanCut s₁ s₂) : Shortening before (s₁ ++ s₂) (es₁ ++ es₂) (r₁ ++ r₂) := by
  induction h₁ with
  | kept before rest =>
    -- What the first half keeps at its end goes before what the second half keeps at its start.
    cases h₂ with
    | kept => exact .kept before _
    | literal kept literal hne hstart hstop h =>
      have hassoc : before ++ rest ++ kept = before ++ (rest ++ kept) := List.append_assoc ..
      rw [hassoc] at hstart h ⊢
      simpa using Shortening.literal (rest ++ kept) literal hne hstart hstop h
  | @literal before source result edits kept literal hne hstart hstop h ih =>
    have hbehind : before ++ (kept ++ literal ++ source) = before ++ kept ++ literal ++ source := by
      simp
    rw [hbehind] at h₂
    have hnext := ih h₂ hcut.of_append_left
    have hstop' : CleanCut literal (source ++ s₂) := by
      by_cases hs : source = []
      · subst hs
        rw [List.append_nil] at hcut
        exact hcut.of_append_left
      · exact hstop.append_right hs s₂
    simpa using Shortening.literal kept literal hne hstart hstop' hnext

theorem behind {k : Text} (h : Shortening before s₂ es₂ r₂) (hcut : CleanCut k (before ++ s₂)) :
    Shortening (k ++ before) s₂ (es₂.map (·.movedBy k.size)) r₂ := by
  induction h with
  | kept before rest => exact .kept _ rest
  | @literal before source result edits kept literal hne hstart hstop h ih =>
    have hassoc : before ++ (kept ++ literal ++ source) = before ++ kept ++ literal ++ source := by
      simp
    rw [hassoc] at hcut
    have hnext := ih hcut
    have hstart' : CleanCut (k ++ before ++ kept) literal := by
      by_cases hb : before ++ kept = []
      · obtain ⟨rfl, rfl⟩ := List.append_eq_nil_iff.1 hb
        simpa using hcut.of_append_right
      · simpa using hstart.append_left hb k
    have hassoc' : k ++ (before ++ kept ++ literal) = k ++ before ++ kept ++ literal := by simp
    rw [hassoc'] at hnext
    simpa [Edit.movedBy, size_append, Nat.add_assoc] using
      Shortening.literal kept literal hne hstart' hstop hnext

end Shortening

section
variable {spans₁ spans₂ : List LiteralSpan} {e : Edit}

theorem kindOfEdit_append_left (h : ∀ s ∈ spans₂, e.start < s.start) :
    kindOfEdit (spans₁ ++ spans₂) e = kindOfEdit spans₁ e := by
  have hno : spans₂.reverse.find? (fun s => s.start == e.start && s.stop == e.stop) = none := by
    refine List.find?_eq_none.2 fun s hs => ?_
    have hlt := h s (List.mem_reverse.1 hs)
    simp only [Bool.and_eq_true, beq_iff_eq]
    omega
  simp [kindOfEdit, List.reverse_append, List.find?_append, hno]

theorem kindOfEdit_append_right (h : ∃ s ∈ spans₂, s.start = e.start ∧ s.stop = e.stop) :
    kindOfEdit (spans₁ ++ spans₂) e = kindOfEdit spans₂ e := by
  obtain ⟨s, hs, hrange⟩ := h
  have hsome : (spans₂.reverse.find? fun s => s.start == e.start && s.stop == e.stop).isSome := by
    rw [List.find?_isSome]
    exact ⟨s, List.mem_reverse.2 hs, by simpa using hrange⟩
  obtain ⟨t, ht⟩ := Option.isSome_iff_exists.1 hsome
  simp only [kindOfEdit, List.reverse_append, List.find?_append, ht, Option.some_or]

theorem kindOfEdit_movedBy (bytes : Nat) (spans : List LiteralSpan) (e : Edit) :
    kindOfEdit (spans.map (·.movedBy bytes)) (e.movedBy bytes) = kindOfEdit spans e := by
  have hsame : (fun s : LiteralSpan => s.start == e.start && s.stop == e.stop) =
      (fun s => s.start == (e.movedBy bytes).start && s.stop == (e.movedBy bytes).stop) ∘
        (·.movedBy bytes) := by
    funext s
    rw [Bool.eq_iff_iff]
    simp [LiteralSpan.movedBy, Edit.movedBy]
  rw [kindOfEdit, kindOfEdit, ← List.map_reverse, List.find?_map, hsame]
  cases spans.reverse.find? _ <;> rfl

end

section
variable {s₁ s₂ : Text} {limit : TruncationLimit} {spans₁ spans₂ : List LiteralSpan} {e : Edit}

theorem Edit.Truncates.lineAt?_append (h : e.Truncates s₁) (s₂ : Text) :
    (LineIndex.ofText (s₁ ++ s₂)).lineAt? e.start = (LineIndex.ofText s₁).lineAt? e.start := by
  obtain ⟨a, m, b, rfl, hpart, rfl⟩ := truncates_iff.1 h
  have hcut := hpart.left.of_append_right
  have hwhole := LineIndex.lineAt?_of_cleanCut (b := b ++ s₂) hpart.ne_nil hcut
  rw [List.append_assoc, hwhole, LineIndex.lineAt?_of_cleanCut hpart.ne_nil hcut]

theorem Edit.Truncates.lineAt?_behind (h : e.Truncates s₂) (hcut : CleanCut s₁ s₂) :
    (LineIndex.ofText (s₁ ++ s₂)).lineAt? (s₁.size + e.start) =
      ((LineIndex.ofText s₂).lineAt? e.start).map (s₁.lineBreaks + ·) := by
  obtain ⟨a, m, b, rfl, hpart, rfl⟩ := truncates_iff.1 h
  have hmoved := hpart.append_left hcut
  have hbreaks : Text.lineBreaks (s₁ ++ a) = s₁.lineBreaks + a.lineBreaks := by
    rw [List.append_assoc] at hcut
    exact lineBreaks_append hcut.of_append_right
  have hwhole := LineIndex.lineAt?_of_cleanCut (b := b) hmoved.ne_nil hmoved.left.of_append_right
  have hpart' := LineIndex.lineAt?_of_cleanCut (b := b) hpart.ne_nil hpart.left.of_append_right
  have hassoc : s₁ ++ (a ++ m ++ b) = s₁ ++ a ++ m ++ b := by simp
  rw [size_append, hbreaks] at hwhole
  rw [hassoc, hwhole, hpart']
  rfl

theorem ofEdit_append_left (htrunc : e.Truncates s₁) (hstop : e.stop ≤ s₁.size) :
    TruncatedLiteral.ofEdit (s₁ ++ s₂) (spans₁ ++ spans₂.map (·.movedBy s₁.size)) e =
      .ofEdit s₁ spans₁ e := by
  have hpos := htrunc.start_lt_stop
  have hkind : kindOfEdit (spans₁ ++ spans₂.map (·.movedBy s₁.size)) e = kindOfEdit spans₁ e := by
    refine kindOfEdit_append_left fun s hs => ?_
    obtain ⟨s, -, rfl⟩ := List.mem_map.1 hs
    simp only [LiteralSpan.movedBy]
    omega
  simp only [TruncatedLiteral.ofEdit, htrunc.lineAt?_append, hkind]

theorem ofEdit_append_right (hcut : CleanCut s₁ s₂) (he : e ∈ usableEdits s₂ limit spans₂) :
    TruncatedLiteral.ofEdit (s₁ ++ s₂) (spans₁ ++ spans₂.map (·.movedBy s₁.size))
        (e.movedBy s₁.size) =
      (TruncatedLiteral.ofEdit s₂ spans₂ e).movedBy s₁.size s₁.lineBreaks := by
  obtain ⟨htrunc, s, hs, -, hstart, hstop⟩ := exists_span_of_mem_usableEdits he
  have hkind : kindOfEdit (spans₁ ++ spans₂.map (·.movedBy s₁.size)) (e.movedBy s₁.size) =
      kindOfEdit spans₂ e := by
    rw [kindOfEdit_append_right, kindOfEdit_movedBy]
    refine ⟨s.movedBy s₁.size, List.mem_map_of_mem hs, ?_⟩
    simp only [LiteralSpan.movedBy, Edit.movedBy, hstart, hstop, and_self]
  have hline := htrunc.lineAt?_behind hcut
  obtain ⟨a, m, b, rfl, hpart, rfl⟩ := Edit.truncates_iff.1 htrunc
  have hfound := LineIndex.lineAt?_of_cleanCut (b := b) hpart.ne_nil hpart.left.of_append_right
  simp only [TruncatedLiteral.ofEdit, TruncatedLiteral.movedBy, hkind]
  simp only [Edit.movedBy, hline, hfound, Nat.add_sub_add_left]
  rfl

theorem length_usableEdits (source : Text) (limit : TruncationLimit) (spans : List LiteralSpan) :
    (usableEdits source limit spans).length = (usableSpans source limit spans).length := by
  refine List.filterMap_length_eq_length.2 fun s hs => ?_
  have husable := LiteralSpan.usable_iff.1 (List.mem_filter.1 hs).2
  obtain ⟨e, he, -⟩ := LiteralSpan.edit?_of_usable husable
  rw [he]
  rfl

theorem length_usableSpans_le (source : Text) (limit : TruncationLimit) (spans : List LiteralSpan) :
    (usableSpans source limit spans).length ≤ (spans.filter (·.overlong limit)).length := by
  rw [← filter_overlong_replaceable]
  exact List.length_filter_le _ _

theorem length_overlong_sub_usable_append (hcut : CleanCut s₁ s₂)
    (h : ∀ s ∈ spans₁, s.stop ≤ s₁.size) :
    ((spans₁ ++ spans₂.map (·.movedBy s₁.size)).filter (·.overlong limit)).length -
        (usableSpans (s₁ ++ s₂) limit (spans₁ ++ spans₂.map (·.movedBy s₁.size))).length =
      (spans₁.filter (·.overlong limit)).length - (usableSpans s₁ limit spans₁).length +
        ((spans₂.filter (·.overlong limit)).length - (usableSpans s₂ limit spans₂).length) := by
  have hlong : (spans₂.map (·.movedBy s₁.size)).filter (·.overlong limit) =
      (spans₂.filter (·.overlong limit)).map (·.movedBy s₁.size) := by
    simp only [List.filter_map, Function.comp_def, LiteralSpan.overlong_movedBy]
  have hle₁ := length_usableSpans_le s₁ limit spans₁
  have hle₂ := length_usableSpans_le s₂ limit spans₂
  rw [← length_usableEdits, usableEdits_append hcut h, List.filter_append, hlong]
  simp only [List.length_append, List.length_map, length_usableEdits]
  omega

end

/-- A text cut in two, but not between a carriage return and its line feed, is truncated half by
half, if no span of the first half ends behind it. The two texts come one after the other, and so do
the reports, the second one moved by the size and the line breaks of the first half. -/
theorem truncate?_append {s₁ s₂ : Text} (hcut : CleanCut s₁ s₂) {spans₁ : List LiteralSpan}
    (h : ∀ s ∈ spans₁, s.stop ≤ s₁.size) (spans₂ : List LiteralSpan) (limit : TruncationLimit) :
    ∃ r₁ r₂, truncate? s₁ spans₁ limit = some r₁ ∧ truncate? s₂ spans₂ limit = some r₂ ∧
      truncate? (s₁ ++ s₂) (spans₁ ++ spans₂.map (·.movedBy s₁.size)) limit =
        some ⟨r₁.text ++ r₂.text,
          r₁.literals ++ r₂.literals.map (·.movedBy s₁.size s₁.lineBreaks),
          r₁.skipped + r₂.skipped⟩ := by
  obtain ⟨t₁, htext₁, hshort₁⟩ := exists_truncation s₁ spans₁ limit
  obtain ⟨t₂, htext₂, hshort₂⟩ := exists_truncation s₂ spans₂ limit
  obtain ⟨t, htext, hshort⟩ :=
    exists_truncation (s₁ ++ s₂) (spans₁ ++ spans₂.map (·.movedBy s₁.size)) limit
  refine ⟨_, _, htext₁, htext₂, ?_⟩
  rw [resolved_usableEdits_append hcut h] at htext hshort
  have hbehind := hshort₂.behind (k := s₁) (by simpa using hcut)
  rw [List.append_nil] at hbehind
  -- Both texts shorten the whole by the same edits, and there is only one such text.
  have hresult : t₁ ++ t₂ = t := hshort.result_unique (hshort₁.append hbehind hcut) rfl
  rw [htext, ← hresult, length_overlong_sub_usable_append hcut h, List.map_append, List.map_map,
    List.map_map]
  congr 3
  · refine List.map_congr_left fun e he => ?_
    have hmem := EditSet.mem_of_mem_resolved he
    obtain ⟨htrunc, s, hs, -, -, hstop⟩ := exists_span_of_mem_usableEdits hmem
    exact ofEdit_append_left htrunc (hstop ▸ h s hs)
  · refine List.map_congr_left fun e he => ?_
    exact ofEdit_append_right hcut (EditSet.mem_of_mem_resolved he)

theorem truncate?_append_seam :
    let s₁ := ofString "x\n<aaa>"
    let s₂ := ofString "<b\nb>\n"
    ∃ r, truncate? (s₁ ++ s₂) [⟨2, 7, .string⟩, ⟨7, 12, .template⟩] (.maxBytes 2) = some r ∧
      r.literals = [⟨2, 2, 5, 0, .string⟩, ⟨2, 7, 5, 1, .template⟩] := by
  intro s₁ s₂
  have hcut : CleanCut s₁ s₂ := by unfold CleanCut; decide
  have hstop : ∀ s ∈ ([⟨2, 7, .string⟩] : List LiteralSpan), s.stop ≤ s₁.size := by decide
  obtain ⟨r₁, r₂, hr₁, hr₂, hr⟩ :=
    truncate?_append hcut hstop [⟨0, 5, .template⟩] (.maxBytes 2)
  have hliterals₁ : (truncate? s₁ [⟨2, 7, .string⟩] (.maxBytes 2)).map (·.literals) =
      some [⟨2, 2, 5, 0, .string⟩] := by decide +kernel
  have hliterals₂ : (truncate? s₂ [⟨0, 5, .template⟩] (.maxBytes 2)).map (·.literals) =
      some [⟨1, 0, 5, 1, .template⟩] := by decide +kernel
  rw [hr₁, Option.map_some, Option.some.injEq] at hliterals₁
  rw [hr₂, Option.map_some, Option.some.injEq] at hliterals₂
  refine ⟨_, hr, ?_⟩
  simp only [hliterals₁, hliterals₂]
  rfl

end SourceWindow
