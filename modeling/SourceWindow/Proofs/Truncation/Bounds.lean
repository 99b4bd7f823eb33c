import SourceWindow.Proofs.Text.Decoding
import SourceWindow.Proofs.Truncation.Report

/-!
Truncation with its operations checked. A difference below zero, a part that reaches out of a list
and a cut off a character boundary each give none. A run with all these checks gives for any spans
what truncation gives, so that no check ever fails.
-/

set_option autoImplicit false

namespace SourceWindow
open Text Utf8

namespace Checked

def minus? (a b : Nat) : Option Nat := if b ≤ a then some (a - b) else none

def part? {α : Type} (l : List α) (start stop : Nat) : Option (List α) :=
  if start ≤ stop ∧ stop ≤ l.length then some ((l.take stop).drop start) else none

def truncated? (literal : Text) : Option Text :=
  match literal.head?, literal.getLast? with
  | some first, some last => do
    let n := literal.length
    let head ← part? literal (min 1 n) (min (previewLength + 1) n)
    let beforeLast ← minus? n 1
    let tail ← part? literal (n - (previewLength + 1)) beforeLast
    some (escapeBreaks [first] ++ escapeBreaks head
      ++ ofString " ...[TRUNCATED " ++ decimal literal.size ++ ofString " CHARS]... "
      ++ List.replicate literal.lineBreaks '\n'
      ++ escapeBreaks tail ++ escapeBreaks [last])
  | _, _ => some []

def splitsBreak? (t : Text) (offset : Nat) : Option Bool :=
  if 0 < offset then do
    let before ← minus? offset 1
    some (t.bytes[before]? == some 0x0D && t.bytes[offset]? == some 0x0A)
  else some false

def edit? (source : Text) (s : LiteralSpan) : Option (Option Edit) :=
  match s.text? source with
  | none => some none
  | some literal => do
    let startSplits ← splitsBreak? source s.start
    let stopSplits ← splitsBreak? source s.stop
    if startSplits || stopSplits then some none
    else do
      let replacement ← truncated? literal
      some (some ⟨s.start, s.stop, replacement⟩)

structure Gathered where
  edits : EditSet
  spans : List LiteralSpan
  skipped : Nat

def Gathered.add? (source : Text) (limit : TruncationLimit) (g : Gathered) (s : LiteralSpan) :
    Option Gathered :=
  if s.overlong limit then
    (edit? source s).map fun
      | some e => ⟨g.edits ++ [e], g.spans ++ [s], g.skipped⟩
      | none => ⟨g.edits, g.spans, g.skipped + 1⟩
  else some g

def report? (source : Text) (index : LineIndex) (spans : List LiteralSpan) (e : Edit) :
    Option TruncatedLiteral := do
  let byteLength ← minus? e.stop e.start
  let literal ← source.slice? e.start e.stop
  some
    { line := (index.lineAt? e.start).elim 1 (· + 1)
      start := e.start
      byteLength
      lineBreaks := literal.lineBreaks
      kind := kindOfEdit spans e }

/-- Truncation, each operation with its check. -/
def truncate? (source : Text) (spans : List LiteralSpan) (limit : TruncationLimit) :
    Option Truncation := do
  let g ← spans.foldlM (Gathered.add? source limit) ⟨[], [], 0⟩
  if g.edits.isEmpty then some ⟨source, [], g.skipped⟩
  else do
    let ordered := g.edits.ordered
    let literals ← ordered.reverse.mapM (report? source (LineIndex.ofText source) g.spans)
    let text ← EditSet.applyTo? ordered source
    some ⟨text, literals, g.skipped⟩

theorem minus?_of_le {a b : Nat} (h : b ≤ a) : minus? a b = some (a - b) := if_pos h

theorem part?_of_le {α : Type} {l : List α} {start stop : Nat} (hstart : start ≤ stop)
    (hstop : stop ≤ l.length) : part? l start stop = some ((l.take stop).drop start) :=
  if_pos ⟨hstart, hstop⟩

theorem truncated?_eq (literal : Text) : truncated? literal = some literal.truncated := by
  cases literal with
  | nil => rfl
  | cons first rest =>
    have hhead : part? (first :: rest) (min 1 (first :: rest).length)
        (min (previewLength + 1) (first :: rest).length) = some (rest.take previewLength) := by
      have hle : min 1 (first :: rest).length ≤ min (previewLength + 1) (first :: rest).length := by
        unfold previewLength
        omega
      rw [part?_of_le hle (Nat.min_le_right _ _)]
      simp
    have hlast : minus? (first :: rest).length 1 = some rest.length := minus?_of_le (by simp)
    have htail : part? (first :: rest) ((first :: rest).length - (previewLength + 1)) rest.length =
        some ((first :: rest).dropLast.drop ((first :: rest).length - (previewLength + 1))) := by
      have hlength : (first :: rest).length = rest.length + 1 := rfl
      rw [part?_of_le (by omega) (by omega), List.dropLast_eq_take]
      rfl
    rw [truncated?, List.head?_cons, List.getLast?_eq_some_getLast (List.cons_ne_nil first rest)]
    simp only [hhead, hlast, htail, Option.bind_eq_bind, Option.bind_some]
    rfl

theorem splitsBreak?_append (a b : Text) :
    splitsBreak? (a ++ b) a.size = some (splitsBreak (a ++ b) a.size) := by
  have hsplits : splitsBreak (a ++ b) a.size = true ↔
      a.getLast? = some '\r' ∧ b.head? = some '\n' := by
    rw [← Bool.not_eq_false, splitsBreak_eq_false_iff, cleanAt_append]
    simp [CleanCut]
  unfold splitsBreak?
  split
  · rename_i hpos
    have hbefore : (a ++ b).bytes[a.size - 1]? = a.bytes.getLast? := by
      rw [bytes_getElem?_left (by omega), List.getLast?_eq_getElem?, length_bytes]
    have hbehind : (a ++ b).bytes[a.size]? = b.bytes.head? := by
      rw [← Nat.add_zero a.size, bytes_getElem?_right, List.head?_eq_getElem?]
    rw [minus?_of_le hpos, Option.bind_eq_bind, Option.bind_some, Option.some.injEq,
      Bool.eq_iff_iff, hsplits, hbefore, hbehind, Bool.and_eq_true, beq_iff_eq, beq_iff_eq]
    exact and_congr (getLast?_bytes_iff (c := '\r') (by decide))
      (head?_bytes_iff (c := '\n') (by decide))
  · rename_i hzero
    obtain rfl : a = [] := size_eq_zero.1 (by omega)
    rw [Option.some.injEq, eq_comm, Bool.eq_false_iff, ne_eq, hsplits]
    simp

theorem edit?_eq (source : Text) (s : LiteralSpan) :
    edit? source s = some (if s.replaceable source then s.edit? source else none) := by
  unfold edit? LiteralSpan.replaceable LiteralSpan.edit?
  cases hliteral : s.text? source with
  | none => simp
  | some literal =>
    -- The span names a part of the source, so that both its ends are places where it is cut.
    obtain ⟨a, b, hsource, hstart, hstop⟩ := slice?_eq_some_iff.1 hliteral
    have hstartSplits := splitsBreak?_append a (literal ++ b)
    have hstopSplits := splitsBreak?_append (a ++ literal) b
    rw [← List.append_assoc, ← hsource, hstart] at hstartSplits
    rw [← hsource, hstop] at hstopSplits
    simp only [hstartSplits, hstopSplits, truncated?_eq, Option.bind_eq_bind, Option.bind_some]
    cases source.splitsBreak s.start <;> cases source.splitsBreak s.stop <;> rfl

section
variable {source : Text} {limit : TruncationLimit}

/-- What truncation has of the spans that the run has come by. -/
structure Gathers (source : Text) (limit : TruncationLimit) (seen : List LiteralSpan)
    (g : Gathered) : Prop where
  edits : g.edits = usableEdits source limit seen
  spans : g.spans = usableSpans source limit seen
  skipped : g.spans.length + g.skipped = (seen.filter (·.overlong limit)).length

theorem Gathers.nil : Gathers source limit [] ⟨[], [], 0⟩ := ⟨rfl, rfl, rfl⟩

theorem Gathers.add? {seen : List LiteralSpan} {g : Gathered} (h : Gathers source limit seen g)
    (s : LiteralSpan) :
    ∃ g', g.add? source limit s = some g' ∧ Gathers source limit (seen ++ [s]) g' := by
  obtain ⟨hedits, hspans, hskipped⟩ := h
  unfold Gathered.add?
  by_cases husable : s.usable source limit = true
  · obtain ⟨hlong, hreplaceable⟩ := Bool.and_eq_true_iff.1 husable
    obtain ⟨e, he, -⟩ := LiteralSpan.edit?_of_usable (LiteralSpan.usable_iff.1 husable)
    refine ⟨⟨g.edits ++ [e], g.spans ++ [s], g.skipped⟩, ?_, ?_, ?_, ?_⟩
    · simp [hlong, edit?_eq, hreplaceable, he]
    · simp [usableEdits, usableSpans, husable, he, hedits]
    · simp [usableSpans, husable, hspans]
    · simp [hlong, ← hskipped]
      omega
  · -- No edit comes of the span, which at most is counted.
    have hsameEdits : usableEdits source limit (seen ++ [s]) = usableEdits source limit seen := by
      simp [usableEdits, usableSpans, husable]
    have hsameSpans : usableSpans source limit (seen ++ [s]) = usableSpans source limit seen := by
      simp [usableSpans, husable]
    by_cases hlong : s.overlong limit = true
    · have hreplaceable : ¬ s.replaceable source = true := by
        simpa [LiteralSpan.usable, hlong] using husable
      refine ⟨⟨g.edits, g.spans, g.skipped + 1⟩, ?_, ?_, ?_, ?_⟩
      · simp [hlong, edit?_eq, hreplaceable]
      · rw [hsameEdits, hedits]
      · rw [hsameSpans, hspans]
      · simp [hlong, ← hskipped]
        omega
    · refine ⟨g, if_neg hlong, ?_, ?_, ?_⟩
      · rw [hsameEdits, hedits]
      · rw [hsameSpans, hspans]
      · simp [hlong, hskipped]

theorem Gathers.foldlM_add? {seen : List LiteralSpan} {g : Gathered}
    (h : Gathers source limit seen g) (spans : List LiteralSpan) :
    ∃ g', spans.foldlM (Gathered.add? source limit) g = some g' ∧
      Gathers source limit (seen ++ spans) g' := by
  induction spans generalizing seen g with
  | nil => exact ⟨g, rfl, by rwa [List.append_nil]⟩
  | cons s spans ih =>
    obtain ⟨g', hg', h'⟩ := h.add? s
    obtain ⟨g'', hg'', h''⟩ := ih h'
    refine ⟨g'', ?_, by simpa using h''⟩
    rw [List.foldlM_cons, hg']
    exact hg''

end

theorem report?_eq {e : Edit} (h : e.start ≤ e.stop) (source : Text) (index : LineIndex)
    (spans : List LiteralSpan) :
    report? source index spans e = TruncatedLiteral.ofEdit? source index spans e := by
  rw [report?, minus?_of_le h, TruncatedLiteral.ofEdit?, Option.map_eq_bind]
  rfl

theorem mapM_report?_eq {es : List Edit} (h : ∀ e ∈ es, e.start ≤ e.stop) (source : Text)
    (index : LineIndex) (spans : List LiteralSpan) :
    es.mapM (report? source index spans) =
      es.mapM (TruncatedLiteral.ofEdit? source index spans) := by
  refine Option.ext fun literals => ?_
  rw [List.mapM_eq_some_iff, List.mapM_eq_some_iff,
    List.map_congr_left fun e he => report?_eq (h e he) source index spans]

theorem truncate?_eq (source : Text) (spans : List LiteralSpan) (limit : TruncationLimit) :
    truncate? source spans limit = SourceWindow.truncate? source spans limit := by
  have hstart : Gathers source limit [] ⟨[], [], 0⟩ := Gathers.nil
  obtain ⟨⟨edits, kept, skipped⟩, hrun, hedits, hspans, hskipped⟩ := hstart.foldlM_add? spans
  simp only [List.nil_append] at hedits hspans hskipped
  subst hedits hspans
  have hcount : (spans.filter (·.overlong limit)).length - (usableSpans source limit spans).length =
      skipped := by omega
  have hforwards : ∀ e ∈ (usableEdits source limit spans).ordered.reverse, e.start ≤ e.stop := by
    rw [EditSet.ordered, List.reverse_reverse]
    intro e he
    have hmem := EditSet.mem_of_mem_resolved he
    exact Nat.le_of_lt (exists_span_of_mem_usableEdits hmem).1.start_lt_stop
  rw [truncate?, hrun, SourceWindow.truncate?]
  simp only [filter_overlong_replaceable, hcount, Option.bind_eq_bind, Option.bind_some,
    mapM_report?_eq hforwards]
  rfl

end Checked

theorem Text.bounds_of_replace? {t r out : Text} {i j : Nat} (h : t.replace? i j r = some out) :
    i ≤ j ∧ j ≤ t.size ∧ t.isBoundary i = true ∧ t.isBoundary j = true := by
  unfold replace? at h
  split at h
  · rename_i hle
    obtain ⟨⟨before, after⟩, hsplit, hkept⟩ := Option.bind_eq_some_iff.1 h
    obtain ⟨⟨kept, m⟩, hsplit', -⟩ := Option.map_eq_some_iff.1 hkept
    obtain ⟨rfl, hstop⟩ := splitAt?_eq_some_iff.1 hsplit
    obtain ⟨rfl, hstart⟩ := splitAt?_eq_some_iff.1 hsplit'
    refine ⟨hle, ?_, isBoundary_iff.2 ⟨kept, m ++ after, by simp, hstart⟩,
      isBoundary_iff.2 ⟨kept ++ m, after, rfl, hstop⟩⟩
    rw [size_append]
    omega
  · cases h

/-- Truncation never fails, and neither does any of its operations: over whatever spans, no
difference is below zero, each part lies in its list and each cut is on a character boundary. This
holds of the edits too, each of which is made on the text as changed by those before it. -/
theorem truncate?_in_bounds (source : Text) (spans : List LiteralSpan) (limit : TruncationLimit) :
    ∃ r, truncate? source spans limit = some r ∧ Checked.truncate? source spans limit = some r ∧
      ∀ done e rest,
        EditSet.ordered (usableEdits source limit spans).ordered = done ++ e :: rest →
        ∃ changed, done.foldlM (EditSet.applyTo?.step source) source = some changed ∧
          e.start ≤ e.stop ∧ e.stop ≤ changed.size ∧ changed.isBoundary e.start = true ∧
          changed.isBoundary e.stop = true := by
  obtain ⟨text, hr, hshort⟩ := exists_truncation source spans limit
  have htrunc : ∀ e ∈ usableEdits source limit spans, e.Truncates source :=
    fun e he => (exists_span_of_mem_usableEdits he).1
  have happly := applyTo?_ordered htrunc hshort
  refine ⟨_, hr, by rw [Checked.truncate?_eq, hr], fun done e rest hsplit => ?_⟩
  have he : e ∈ usableEdits source limit spans := by
    have hmem : e ∈ EditSet.ordered (usableEdits source limit spans).ordered := by simp [hsplit]
    exact EditSet.mem_of_mem_resolved (List.mem_reverse.1
      (EditSet.mem_of_mem_resolved (List.mem_reverse.1 hmem)))
  rw [EditSet.applyTo?, hsplit, List.foldlM_append, Option.bind_eq_bind] at happly
  obtain ⟨changed, hdone, happly⟩ := Option.bind_eq_some_iff.1 happly
  rw [List.foldlM_cons, Option.bind_eq_bind] at happly
  obtain ⟨next, hstep, -⟩ := Option.bind_eq_some_iff.1 happly
  rw [EditSet.applyTo?.step, if_pos (htrunc e he).fits] at hstep
  exact ⟨changed, hdone, bounds_of_replace? hstep⟩

end SourceWindow
