import SourceWindow.Proofs.Edit.Resolution
import Mathlib.Data.List.Chain

set_option autoImplicit false

namespace SourceWindow

theorem Edit.overlaps_comm (a b : Edit) : a.overlaps b = b.overlaps a := by
  simp [overlaps, Bool.and_comm]

namespace EditSet

theorem keepApart_isChain (last : Option Edit) (es : List Edit) :
    (last.toList ++ keepApart last es).IsChain fun a b => ¬ b.overlaps a = true := by
  induction es generalizing last with
  | nil => cases last <;> simp [keepApart]
  | cons e es ih =>
    by_cases hover : last.any e.overlaps = true
    · rw [keepApart, if_pos hover]
      exact ih last
    · rw [keepApart, if_neg hover]
      cases last with
      | none => exact ih (some e)
      | some l => exact List.isChain_cons_cons.2 ⟨hover, ih (some e)⟩

theorem resolved_isChain (edits : EditSet) :
    edits.resolved.IsChain fun a b => ¬ b.overlaps a = true :=
  keepApart_isChain none _

theorem resolved_starts_le (edits : EditSet) :
    edits.resolved.Pairwise fun a b => a.start ≤ b.start :=
  (mergeSort_starts_le edits).sublist (keepApart_sublist _ _)

/-- What is kept behind an edit lies behind its range, unless the first of it takes up no byte. -/
theorem exists_empty_of_overlaps {edits : EditSet} {i j : Nat} (hij : i < j)
    (hj : j < edits.resolved.length) (hover : edits.resolved[i].overlaps edits.resolved[j] = true) :
    ∃ h : i + 1 < j, edits.resolved[i + 1].stop ≤ edits.resolved[i].start ∧
      edits.resolved[i].start ≤ edits.resolved[i + 1].start := by
  have hstarts := List.pairwise_iff_getElem.1 (resolved_starts_le edits)
  have hnext := List.isChain_iff_getElem.1 (resolved_isChain edits) i (by omega)
  have hfirst := hstarts i (i + 1) (by omega) (by omega) (by omega)
  have hle : edits.resolved[i + 1].start ≤ edits.resolved[j].start := by
    rcases Nat.lt_or_eq_of_le (Nat.succ_le_of_lt hij) with h | h
    · exact hstarts (i + 1) j (by omega) hj h
    · simp only [← h]
      exact Nat.le_refl _
  -- The next one starts before the edit at `j` does and yet does not overlap the one at `i`.
  rw [Edit.overlaps_iff] at hnext hover
  have hempty : edits.resolved[i + 1].stop ≤ edits.resolved[i].start := by omega
  refine ⟨Nat.lt_of_le_of_ne hij fun h => ?_, hempty, hfirst⟩
  subst h
  omega

theorem getElem?_ordered_eq_some_iff {edits : EditSet} {i : Nat} {e : Edit} :
    edits.ordered[i]? = some e ↔ ∃ (h : i < edits.resolved.length),
      edits.resolved[edits.resolved.length - 1 - i] = e := by
  rw [ordered, List.getElem?_eq_some_iff]
  simp only [List.length_reverse, List.getElem_reverse]

section
variable {edits : EditSet} {i j : Nat} {a b : Edit}

theorem exists_empty_of_ordered_overlaps (hij : i < j) (hb : edits.ordered[i]? = some b)
    (ha : edits.ordered[j]? = some a) (hover : a.overlaps b = true) :
    ∃ e, i < j - 1 ∧ edits.ordered[j - 1]? = some e ∧ a.start ≤ e.start ∧ e.stop ≤ a.start := by
  obtain ⟨hi, rfl⟩ := getElem?_ordered_eq_some_iff.1 hb
  obtain ⟨hj, rfl⟩ := getElem?_ordered_eq_some_iff.1 ha
  obtain ⟨hlt, hstop, hstart⟩ := exists_empty_of_overlaps (by omega) (by omega) hover
  have hindex : edits.resolved.length - 1 - (j - 1) = edits.resolved.length - 1 - j + 1 := by
    omega
  refine ⟨_, by omega, getElem?_ordered_eq_some_iff.2 ⟨by omega, rfl⟩, ?_, ?_⟩
  · simpa only [hindex] using hstart
  · simpa only [hindex] using hstop

theorem ordered_not_overlaps (hbytes : ∀ e ∈ edits, e.start < e.stop) (hij : i < j)
    (hb : edits.ordered[i]? = some b) (ha : edits.ordered[j]? = some a) :
    a.overlaps b = false := by
  rw [Bool.eq_false_iff]
  intro hover
  obtain ⟨e, -, he, hstart, hstop⟩ := exists_empty_of_ordered_overlaps hij hb ha hover
  have hmem := mem_of_mem_resolved (List.mem_reverse.1 (List.mem_of_getElem? he))
  have hpos := hbytes e hmem
  omega

end

/-- Two edits to be made overlap only across a third one, which is made right before the one that
comes first in the source and is empty or turned around at its start. If each edit takes up a byte,
no two overlap. -/
theorem ordered_overlap_across_empty (edits : EditSet) :
    (∀ (i j : Nat) (a b : Edit), i < j → edits.ordered[i]? = some b →
      edits.ordered[j]? = some a → a.overlaps b = true →
        ∃ e, i < j - 1 ∧ edits.ordered[j - 1]? = some e ∧ a.start ≤ e.start ∧ e.stop ≤ a.start) ∧
    ((∀ e ∈ edits, e.start < e.stop) → ∀ (i j : Nat) (a b : Edit), i ≠ j →
      edits.ordered[i]? = some a → edits.ordered[j]? = some b → a.overlaps b = false) := by
  refine ⟨fun i j a b => exists_empty_of_ordered_overlaps, fun hbytes i j a b hne ha hb => ?_⟩
  rcases Nat.lt_or_gt_of_ne hne with hij | hij
  · rw [Edit.overlaps_comm]
    exact ordered_not_overlaps hbytes hij ha hb
  · exact ordered_not_overlaps hbytes hij hb ha

theorem ordered_overlap_across_empty_insertion :
    let outer : Edit := ⟨0, 4, ['A']⟩
    let empty : Edit := ⟨0, 0, ['B']⟩
    let inner : Edit := ⟨1, 2, ['C']⟩
    (ordered [outer, empty, inner] = [inner, empty, outer] ∧ outer.overlaps inner = true ∧
      ∃ e, (ordered [outer, empty, inner])[1]? = some e ∧ e.stop ≤ outer.start) ∧
    ∀ (i j : Nat) (a b : Edit), i ≠ j → (ordered [inner, outer])[i]? = some a →
      (ordered [inner, outer])[j]? = some b → a.overlaps b = false := by
  intro outer empty inner
  have hordered : ordered [outer, empty, inner] = [inner, empty, outer] := by
    rw [ordered, resolved_of_precedes (by decide)]
    rfl
  refine ⟨⟨hordered, by decide, ?_⟩, ?_⟩
  · obtain ⟨e, -, he, -, hstop⟩ :=
      (ordered_overlap_across_empty [outer, empty, inner]).1 0 2 outer inner (by decide)
        (by rw [hordered]; rfl) (by rw [hordered]; rfl) (by decide)
    exact ⟨e, he, hstop⟩
  · exact (ordered_overlap_across_empty [inner, outer]).2 (by decide)

end EditSet
end SourceWindow
