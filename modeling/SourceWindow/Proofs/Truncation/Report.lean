import SourceWindow.Proofs.Truncation.Usable

set_option autoImplicit false

theorem List.mapM_eq_some_iff {α β : Type} {f : α → Option β} {l : List α} {bs : List β} :
    l.mapM f = some bs ↔ l.map f = bs.map some := by
  induction l generalizing bs with
  | nil => cases bs <;> simp
  | cons a l ih =>
    rw [List.mapM_cons, List.map_cons]
    cases bs with
    | nil =>
      cases f a with
      | none => simp
      | some b => cases l.mapM f <;> simp
    | cons b bs =>
      rw [List.map_cons, List.cons.injEq, ← ih]
      cases f a with
      | none => simp
      | some b => cases l.mapM f <;> simp

namespace SourceWindow
open Text

namespace TruncatedLiteral

def stop (l : TruncatedLiteral) : Nat := l.start + l.byteLength

def edit (source : Text) (l : TruncatedLiteral) : Edit :=
  ⟨l.start, l.stop, truncated ((source.slice? l.start l.stop).getD [])⟩

end TruncatedLiteral

theorem exists_shortening {before rest source : Text} {es : List Edit}
    (hsource : source = before ++ rest) (hes : es.Pairwise Edit.Before)
    (hbehind : ∀ e ∈ es, before.size ≤ e.start) (htrunc : ∀ e ∈ es, e.Truncates source) :
    ∃ result, Shortening before rest es result := by
  induction es generalizing before rest with
  | nil => exact ⟨rest, .kept before rest⟩
  | cons e es ih =>
    obtain ⟨hfirst, hes'⟩ := List.pairwise_cons.1 hes
    obtain ⟨a, literal, b, hcut, hne, hstart, hstop, rfl⟩ := htrunc e List.mem_cons_self
    obtain ⟨kept, rfl, rfl⟩ : ∃ kept, a = before ++ kept ∧ rest = kept ++ (literal ++ b) := by
      refine exists_append_of_size_le ?_ (hbehind _ List.mem_cons_self)
      rw [← hsource, hcut, List.append_assoc]
    obtain ⟨result, h⟩ := ih hcut hes' (fun d hd => hfirst d hd)
      fun d hd => htrunc d (List.mem_cons_of_mem _ hd)
    rw [← List.append_assoc kept]
    exact ⟨_, .literal kept literal hne hstart.of_append_right hstop.of_append_left h⟩

theorem kindOfEdit_usableSpans {source : Text} {limit : TruncationLimit} {spans : List LiteralSpan}
    {e : Edit} (he : e ∈ usableEdits source limit spans) :
    kindOfEdit (usableSpans source limit spans) e = kindOfEdit spans e := by
  obtain ⟨-, s, -, husable, hstart, hstop⟩ := exists_span_of_mem_usableEdits he
  have himp (t : LiteralSpan) (ht : (t.start == e.start && t.stop == e.stop) = true) :
      t.usable source limit = true := by
    simp only [Bool.and_eq_true, beq_iff_eq] at ht
    rw [LiteralSpan.usable_congr (ht.1.trans hstart) (ht.2.trans hstop)]
    exact LiteralSpan.usable_iff.2 husable
  unfold kindOfEdit usableSpans
  rw [← List.filter_reverse, List.find?_filter]
  congr 3
  funext t
  rw [Bool.eq_iff_iff, decide_eq_true_eq]
  exact and_iff_right_of_imp (himp t)

def TruncatedLiteral.ofEdit (source : Text) (spans : List LiteralSpan) (e : Edit) :
    TruncatedLiteral where
  line := ((LineIndex.ofText source).lineAt? e.start).elim 1 (· + 1)
  start := e.start
  byteLength := e.stop - e.start
  lineBreaks := e.replacement.lineBreaks
  kind := kindOfEdit spans e

theorem Edit.Truncates.ofEdit?_eq {source : Text} {e : Edit} (h : e.Truncates source)
    (spans : List LiteralSpan) :
    TruncatedLiteral.ofEdit? source (LineIndex.ofText source) spans e =
      some (.ofEdit source spans e) := by
  obtain ⟨a, literal, b, rfl, hne, -, -, rfl⟩ := h
  simp only [TruncatedLiteral.ofEdit?, TruncatedLiteral.ofEdit, slice?_append, Option.map_some,
    lineBreaks_truncated hne]

theorem Edit.Truncates.edit_ofEdit {source : Text} {e : Edit} (h : e.Truncates source)
    (spans : List LiteralSpan) : (TruncatedLiteral.ofEdit source spans e).edit source = e := by
  have hlt := h.start_lt_stop
  obtain ⟨a, literal, b, rfl, -, -, -, rfl⟩ := h
  have hstop : a.size + (size (a ++ literal) - a.size) = size (a ++ literal) := by
    simp only at hlt
    omega
  simp only [TruncatedLiteral.edit, TruncatedLiteral.stop, TruncatedLiteral.ofEdit, hstop,
    slice?_append, Option.getD_some]

/-- Made a second time from a list already resolved, the edits give the text that the shortening
gives. -/
theorem applyTo?_ordered {source result : Text} {edits : EditSet}
    (htrunc : ∀ e ∈ edits, e.Truncates source)
    (h : Shortening [] source edits.resolved result) :
    EditSet.applyTo? edits.ordered source = some result := by
  have hmem : ∀ e ∈ edits.resolved, e.Truncates source :=
    fun e he => htrunc e (EditSet.mem_of_mem_resolved he)
  have hordered : ∀ e ∈ edits.ordered, e.start < e.stop :=
    fun e he => (hmem e (List.mem_reverse.1 he)).start_lt_stop
  have hagain : EditSet.resolved edits.ordered = edits.resolved :=
    EditSet.resolved_of_perm (List.reverse_perm _)
      (EditSet.resolved_before fun e he => (htrunc e he).start_lt_stop)
      fun e he => (hmem e he).start_lt_stop
  have hfit : edits.resolved.filter (·.fits source) = edits.resolved :=
    List.filter_eq_self.2 fun e he => (hmem e he).fits
  obtain ⟨out, happly, hout⟩ := EditSet.applyTo?_eq_rewrite? edits.ordered source hordered
  rw [hagain, hfit] at hout
  have hresult := h.rewrite?_eq
  rw [List.nil_append, size_nil, hout, Option.some.injEq] at hresult
  rw [happly, hresult]

/-- Truncation gives a report for every source, span list and limit: of the resolved edits of its
usable spans, by which the source is shortened. -/
theorem exists_truncation (source : Text) (spans : List LiteralSpan) (limit : TruncationLimit) :
    ∃ text, truncate? source spans limit = some
        ⟨text, (usableEdits source limit spans).resolved.map (.ofEdit source spans),
          (spans.filter (·.overlong limit)).length - (usableSpans source limit spans).length⟩ ∧
      Shortening [] source (usableEdits source limit spans).resolved text := by
  have htrunc : ∀ e ∈ usableEdits source limit spans, e.Truncates source :=
    fun e he => (exists_span_of_mem_usableEdits he).1
  have hmem : ∀ e ∈ (usableEdits source limit spans).resolved, e.Truncates source :=
    fun e he => htrunc e (EditSet.mem_of_mem_resolved he)
  have hbefore := EditSet.resolved_before fun e he => (htrunc e he).start_lt_stop
  unfold truncate?
  simp only [filter_overlong_replaceable]
  by_cases hempty : usableEdits source limit spans = []
  · have hresolved : (usableEdits source limit spans).resolved = [] := by
      rw [hempty, EditSet.resolved, List.mergeSort_nil, EditSet.keepApart]
    rw [usableEdits] at hempty
    rw [hempty, if_pos List.isEmpty_nil, hresolved]
    exact ⟨source, rfl, .kept [] source⟩
  · obtain ⟨text, hshort⟩ :=
      exists_shortening (show source = [] ++ source from rfl) hbefore (by simp) hmem
    have happly := applyTo?_ordered htrunc hshort
    have hreverse : (usableEdits source limit spans).ordered.reverse =
        (usableEdits source limit spans).resolved := List.reverse_reverse _
    have hreported : (usableEdits source limit spans).resolved.mapM
        (TruncatedLiteral.ofEdit? source (LineIndex.ofText source)
          (usableSpans source limit spans)) =
        some ((usableEdits source limit spans).resolved.map (.ofEdit source spans)) := by
      rw [List.mapM_eq_some_iff, List.map_map]
      refine List.map_congr_left fun e he => ?_
      rw [(hmem e he).ofEdit?_eq, TruncatedLiteral.ofEdit,
        kindOfEdit_usableSpans (EditSet.mem_of_mem_resolved he)]
      rfl
    rw [← hreverse] at hreported
    rw [usableEdits] at hempty happly hreported
    rw [if_neg (by rwa [List.isEmpty_iff]), hreported, happly]
    refine ⟨text, ?_, hshort⟩
    rw [← hreverse]
    rfl

theorem exists_report (source : Text) (spans : List LiteralSpan) (limit : TruncationLimit) :
    ∃ r, truncate? source spans limit = some r ∧
      r.literals.map (·.edit source) = (usableEdits source limit spans).resolved ∧
      Shortening [] source (r.literals.map (·.edit source)) r.text ∧
      ∀ l ∈ r.literals, l.line = ((LineIndex.ofText source).lineAt? l.start).elim 1 (· + 1) := by
  obtain ⟨text, htext, hshort⟩ := exists_truncation source spans limit
  have hedits : ((usableEdits source limit spans).resolved.map
      (TruncatedLiteral.ofEdit source spans)).map (·.edit source) =
        (usableEdits source limit spans).resolved := by
    have hid : ∀ e ∈ (usableEdits source limit spans).resolved,
        ((·.edit source) ∘ TruncatedLiteral.ofEdit source spans) e = id e := fun e he =>
      (exists_span_of_mem_usableEdits (EditSet.mem_of_mem_resolved he)).1.edit_ofEdit spans
    rw [List.map_map, List.map_congr_left hid, List.map_id]
  refine ⟨_, htext, hedits, by rwa [hedits], fun l hl => ?_⟩
  obtain ⟨e, -, rfl⟩ := List.mem_map.1 hl
  rfl

/-- The text is rewritten at the reported literals and nowhere else. They come one behind the other,
each is the range of a usable span, and one pass over the source that puts their truncated forms in
place gives the text. -/
theorem truncate?_rewrites_reported (source : Text) (spans : List LiteralSpan)
    (limit : TruncationLimit) :
    ∃ r, truncate? source spans limit = some r ∧
      r.literals.Pairwise (fun a b => a.start < b.start ∧ a.stop ≤ b.start) ∧
      (∀ l ∈ r.literals,
        (∃ literal, source.slice? l.start l.stop = some literal ∧
          (l.edit source).replacement = literal.truncated) ∧
        ∃ s ∈ spans, s.start = l.start ∧ s.stop = l.stop ∧ s.Usable source limit) ∧
      source.rewrite? 0 (r.literals.map (·.edit source)) = some r.text := by
  obtain ⟨r, hr, hedits, hshort, -⟩ := exists_report source spans limit
  refine ⟨r, hr, ?_, fun l hl => ?_, ?_⟩
  · refine List.Pairwise.imp_of_mem (fun {a b} ha _ hab => ?_)
      (List.pairwise_map.1 hshort.before_of_mem)
    have hlt := (hshort.bounds (List.mem_map_of_mem ha)).2.1
    exact ⟨Nat.lt_of_lt_of_le hlt hab, hab⟩
  · have hmem : l.edit source ∈ usableEdits source limit spans := by
      apply EditSet.mem_of_mem_resolved
      rw [← hedits]
      exact List.mem_map_of_mem hl
    obtain ⟨⟨a, literal, b, rfl, -, -, -, hedit⟩, s, hs, husable, hstart, hstop⟩ :=
      exists_span_of_mem_usableEdits hmem
    have hla : l.start = a.size := congrArg Edit.start hedit
    have hlb : l.stop = size (a ++ literal) := congrArg Edit.stop hedit
    refine ⟨⟨literal, ?_, congrArg Edit.replacement hedit⟩, s, hs, hstart.symm, hstop.symm, husable⟩
    rw [hla, hlb, slice?_append]
  · simpa using hshort.rewrite?_eq

end SourceWindow
