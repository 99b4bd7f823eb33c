import SourceWindow.Proofs.Edit.Selection

/-!
Edits in any order. Which ranges are kept does not depend on the order in which edits are given.
Edits of one range stay in that order, so that the first of them counts, and it is only where a kept
range is given with different replacements that another order gives another result.
-/

set_option autoImplicit false

namespace SourceWindow

theorem ByteRange.eq_of_not_outranks {a b : ByteRange} (hab : ¬ a.Outranks b)
    (hba : ¬ b.Outranks a) : a = b := by
  cases a
  cases b
  simp only [Outranks, mk.injEq] at *
  omega

theorem Edit.precedes_iff_range {a b : Edit} :
    a.precedes b = true ↔ ¬ b.range.Outranks a.range := by
  rw [precedes_iff]
  simp only [ByteRange.Outranks, range]
  omega

namespace EditSet

theorem any_overlaps_of_range {last last' : Option Edit} {e e' : Edit}
    (hlast : last.map (·.range) = last'.map (·.range)) (he : e.range = e'.range) :
    last.any e.overlaps = last'.any e'.overlaps := by
  cases last with
  | none =>
    obtain rfl : last' = none := by simpa using hlast.symm
    rfl
  | some l =>
    obtain ⟨l', rfl, hl⟩ := Option.map_eq_some_iff.1 hlast.symm
    rw [Option.any_some, Option.any_some, Bool.eq_iff_iff, Edit.overlaps_iff_range,
      Edit.overlaps_iff_range, he, hl]

/-- Which ranges are kept depends on the ranges alone. -/
theorem map_range_keepApart {last last' : Option Edit} {es es' : List Edit}
    (hlast : last.map (·.range) = last'.map (·.range))
    (h : es.map (·.range) = es'.map (·.range)) :
    (keepApart last es).map (·.range) = (keepApart last' es').map (·.range) := by
  induction es generalizing last last' es' with
  | nil =>
    obtain rfl : es' = [] := by simpa using h.symm
    rfl
  | cons e es ih =>
    obtain ⟨e', es', rfl, he, h⟩ := List.map_eq_cons_iff.1 h.symm
    rw [keepApart, keepApart, any_overlaps_of_range hlast he.symm]
    split
    · exact ih hlast h.symm
    · have hlast' : (some e).map (·.range) = (some e').map (·.range) := congrArg some he.symm
      rw [List.map_cons, List.map_cons, he, ih hlast' h.symm]

section
variable {edits edits' : EditSet}

theorem map_range_resolved (h : edits'.Perm edits) :
    edits'.resolved.map (·.range) = edits.resolved.map (·.range) := by
  have hsorted (es : EditSet) : ((es.mergeSort Edit.precedes).map (·.range)).Pairwise
      fun g k => ¬ k.Outranks g :=
    List.pairwise_map.2 ((mergeSort_precedes es).imp Edit.precedes_iff_range.1)
  have hperm := (List.mergeSort_perm edits' Edit.precedes).trans
    (h.trans (List.mergeSort_perm edits Edit.precedes).symm)
  refine map_range_keepApart rfl (List.Perm.eq_of_pairwise (fun g k _ _ hgk hkg => ?_)
    (hsorted edits') (hsorted edits) (hperm.map _))
  exact ByteRange.eq_of_not_outranks hkg hgk

end

theorem range_ne_of_mem_keepApart {last : Option Edit} {e : Edit} {es : List Edit}
    (hsorted : (e :: es).Pairwise fun a b => a.precedes b = true)
    (hover : last.any e.overlaps = true) : ∀ k ∈ keepApart last es, k.range ≠ e.range := by
  induction es with
  | nil => simp [keepApart]
  | cons d es ih =>
    obtain ⟨he, hsorted⟩ := List.pairwise_cons.1 hsorted
    obtain ⟨hd, hsorted⟩ := List.pairwise_cons.1 hsorted
    by_cases hrange : d.range = e.range
    · rw [keepApart, any_overlaps_of_range rfl hrange, if_pos hover]
      exact ih (List.pairwise_cons.2 ⟨fun k hk => he k (List.mem_cons_of_mem d hk), hsorted⟩)
    · intro k hk hsame
      rcases List.mem_cons.1 ((keepApart_sublist last _).subset hk) with rfl | hk
      · exact hrange hsame
      · -- With `e` before `d` and `d` before `k` all three have one range.
        have hed := Edit.precedes_iff_range.1 (he d List.mem_cons_self)
        have hdk := Edit.precedes_iff_range.1 (hd k hk)
        rw [hsame] at hdk
        exact hrange (ByteRange.eq_of_not_outranks hed hdk)

/-- Where a range is kept at all, the first of its edits is. -/
theorem find?_keepApart {last : Option Edit} {es : List Edit} {g : ByteRange}
    (hsorted : es.Pairwise fun a b => a.precedes b = true)
    (h : ∃ e ∈ keepApart last es, e.range = g) :
    (keepApart last es).find? (·.range = g) = es.find? (·.range = g) := by
  induction es generalizing last with
  | nil => rfl
  | cons e es ih =>
    have hes := (List.pairwise_cons.1 hsorted).2
    obtain ⟨k, hk, hrange⟩ := h
    by_cases hover : last.any e.overlaps = true
    · rw [keepApart, if_pos hover] at hk ⊢
      have hne : e.range ≠ g := fun he =>
        range_ne_of_mem_keepApart hsorted hover k hk (hrange.trans he.symm)
      rw [List.find?_cons_of_neg (by simpa using hne), ih hes ⟨k, hk, hrange⟩]
    · rw [keepApart, if_neg hover] at hk ⊢
      by_cases he : e.range = g
      · rw [List.find?_cons_of_pos (by simpa using he), List.find?_cons_of_pos (by simpa using he)]
      · have hk : k ∈ keepApart (some e) es :=
          (List.mem_cons.1 hk).resolve_left fun hke => he (hke ▸ hrange)
        rw [List.find?_cons_of_neg (by simpa using he), List.find?_cons_of_neg (by simpa using he),
          ih hes ⟨k, hk, hrange⟩]

theorem find?_mergeSort (edits : EditSet) (g : ByteRange) :
    (edits.mergeSort Edit.precedes).find? (·.range = g) = edits.find? (·.range = g) := by
  have hsorted : (edits.filter (·.range = g)).Pairwise fun a b => a.precedes b = true := by
    refine List.pairwise_of_forall_mem_list fun a ha b hb => Edit.precedes_iff_range.2 ?_
    have ha : a.range = g := by simpa using (List.mem_filter.1 ha).2
    have hb : b.range = g := by simpa using (List.mem_filter.1 hb).2
    rw [ha, hb]
    exact g.not_outranks_self
  have hfilter := List.mergeSort_filter Edit.precedes_trans Edit.precedes_total (·.range = g) edits
  rw [List.mergeSort_of_pairwise hsorted] at hfilter
  rw [← List.head?_filter, ← List.head?_filter, hfilter]

theorem find?_resolved {edits : EditSet} {k : Edit} (hk : k ∈ edits.resolved) :
    edits.resolved.find? (·.range = k.range) = edits.find? (·.range = k.range) :=
  (find?_keepApart (mergeSort_precedes edits) ⟨k, hk, rfl⟩).trans (find?_mergeSort edits k.range)

theorem eq_of_map_range {es es' : List Edit} (h : es'.map (·.range) = es.map (·.range))
    (hunique : ∀ a ∈ es, ∀ b ∈ es', b.range = a.range → b = a) : es' = es := by
  induction es generalizing es' with
  | nil => simpa using h
  | cons a es ih =>
    obtain ⟨b, es', rfl, hab, h⟩ := List.map_eq_cons_iff.1 h
    rw [hunique a List.mem_cons_self b List.mem_cons_self hab,
      ih h fun c hc d hd => hunique c (List.mem_cons_of_mem a hc) d (List.mem_cons_of_mem b hd)]

section
variable {edits : EditSet}

theorem find?_resolved_of_forall_perm
    (h : ∀ edits' : EditSet, edits'.Perm edits → edits'.resolved = edits.resolved) {k e : Edit}
    (hk : k ∈ edits.resolved) (he : e ∈ edits) (hrange : e.range = k.range) :
    edits.resolved.find? (·.range = k.range) = some e := by
  have hfront := h (e :: edits.erase e) (List.perm_cons_erase he).symm
  rw [← hfront] at hk ⊢
  rw [find?_resolved hk, List.find?_cons_of_pos (by simpa using hrange)]

theorem resolved_eq_of_unique
    (hunique : ∀ a ∈ edits.resolved, ∀ b ∈ edits, b.range = a.range → b = a)
    {edits' : EditSet} (h : edits'.Perm edits) : edits'.resolved = edits.resolved :=
  eq_of_map_range (map_range_resolved h) fun a ha b hb =>
    hunique a ha b (h.subset (mem_of_mem_resolved hb))

theorem resolved_perm_iff :
    (∀ edits' : EditSet, edits'.Perm edits → edits'.resolved = edits.resolved) ↔
      ∀ a ∈ edits.resolved, ∀ b ∈ edits, b.range = a.range → b = a := by
  constructor
  · intro h a ha b hb hrange
    have hfirst := find?_resolved_of_forall_perm h ha (mem_of_mem_resolved ha) rfl
    rw [find?_resolved_of_forall_perm h ha hb hrange] at hfirst
    exact Option.some.inj hfirst
  · intro hunique edits' h
    exact resolved_eq_of_unique hunique h

end

/-- In whatever order edits are given the same ranges are kept, and in front of all others of its
range, the one given first. The order makes no difference to the edits to be made and to the result
just when no kept range is given with two replacements. -/
theorem ordered_perm_iff_unique (edits : EditSet) :
    (∀ edits' : EditSet, edits'.Perm edits →
      edits'.ordered.map (·.range) = edits.ordered.map (·.range)) ∧
    (∀ k ∈ edits.ordered,
      edits.resolved.find? (·.range = k.range) = edits.find? (·.range = k.range)) ∧
    ((∀ edits' : EditSet, edits'.Perm edits → edits'.ordered = edits.ordered ∧
        ∀ source, edits'.applyTo? source = edits.applyTo? source) ↔
      ∀ a ∈ edits.ordered, ∀ b ∈ edits, b.range = a.range → b = a) := by
  have hmem {k : Edit} : k ∈ edits.ordered ↔ k ∈ edits.resolved := List.mem_reverse
  refine ⟨fun edits' h => ?_, fun k hk => find?_resolved (hmem.1 hk), ?_⟩
  · rw [ordered, ordered, List.map_reverse, List.map_reverse, map_range_resolved h]
  · have hordered {edits' : EditSet} :
        (edits'.ordered = edits.ordered ∧
          ∀ source, edits'.applyTo? source = edits.applyTo? source) ↔
        edits'.resolved = edits.resolved := by
      constructor
      · exact fun h => List.reverse_inj.1 h.1
      · intro h
        have hsame : edits'.ordered = edits.ordered := congrArg List.reverse h
        exact ⟨hsame, fun source => by rw [applyTo?, applyTo?, hsame]⟩
    simp only [hordered, hmem]
    exact resolved_perm_iff

theorem ordered_perm_iff_unique_pair :
    let a : Edit := ⟨1, 3, ['A']⟩
    let b : Edit := ⟨1, 3, ['B']⟩
    let outer : Edit := ⟨0, 4, []⟩
    (∃ edits' : EditSet, edits'.Perm [a, b] ∧ ¬ (edits'.ordered = ordered [a, b] ∧
        ∀ source, edits'.applyTo? source = applyTo? [a, b] source)) ∧
      ordered [b, outer, a] = ordered [outer, a, b] ∧
      ∀ source, applyTo? [b, outer, a] source = applyTo? [outer, a, b] source := by
  intro a b outer
  have hpair : ordered [a, b] = [a] := by
    rw [ordered, resolved_of_precedes (by decide)]
    rfl
  have houter : ordered [outer, a, b] = [outer] := by
    rw [ordered, resolved_of_precedes (by decide)]
    rfl
  constructor
  · refine Classical.byContradiction fun hnone => ?_
    have hunique := (ordered_perm_iff_unique [a, b]).2.2.1 fun edits' h =>
      Classical.not_not.1 fun hdiffers => hnone ⟨edits', h, hdiffers⟩
    rw [hpair] at hunique
    exact absurd hunique (by decide)
  · refine (ordered_perm_iff_unique [outer, a, b]).2.2.2 ?_ [b, outer, a] (by decide)
    rw [houter]
    decide

end EditSet
end SourceWindow
