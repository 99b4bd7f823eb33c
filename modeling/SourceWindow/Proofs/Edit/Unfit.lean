import SourceWindow.Proofs.Edit.Overlaps
import SourceWindow.Proofs.Edit.Rewriting
import SourceWindow.Proofs.Edit.Selection

/-!
Edits that do not fit the source. They are never made, but they are resolved with the others, so
that one that is kept takes out what it overlaps. Apart from these the result is that of the edits
that fit. An edit that is turned around overlaps little and yet comes last, so that it may let
overlapping edits through; where it starts within no other it makes no difference.
-/

set_option autoImplicit false

namespace SourceWindow
open Text

namespace Edit

def ClearOf (u e : Edit) : Prop := u.overlaps e = false ∧ (u.start < e.start ∨ e.stop ≤ u.start)

theorem Fits.start_le {e : Edit} {source : Text} (h : e.Fits source) : e.start ≤ e.stop := by
  obtain ⟨a, m, b, -, hstart, hstop⟩ := h
  rw [size_append] at hstop
  omega

end Edit

namespace EditSet

theorem filter_keepApart {last last' : Option Edit} {es : List Edit} {p : Edit → Bool}
    (hsorted : es.Pairwise fun a b => a.start ≤ b.start)
    (hclear : ∀ u ∈ es, p u = false → ∀ e ∈ es, p e = true → u.ClearOf e)
    (hlast : ∀ l ∈ last', ∀ u ∈ es, p u = false → l.stop ≤ u.start)
    (hsame : ∀ e ∈ es, p e = true → last.any e.overlaps = last'.any e.overlaps) :
    (keepApart last es).filter p = keepApart last' (es.filter p) := by
  induction es generalizing last last' with
  | nil => rfl
  | cons e es ih =>
    obtain ⟨hstart, hsorted⟩ := List.pairwise_cons.1 hsorted
    have hclear' : ∀ u ∈ es, p u = false → ∀ d ∈ es, p d = true → u.ClearOf d :=
      fun u hu hpu d hd => hclear u (List.mem_cons_of_mem _ hu) hpu d (List.mem_cons_of_mem _ hd)
    have hlast' : ∀ l ∈ last', ∀ u ∈ es, p u = false → l.stop ≤ u.start :=
      fun l hl u hu => hlast l hl u (List.mem_cons_of_mem _ hu)
    have hsame' : ∀ d ∈ es, p d = true → last.any d.overlaps = last'.any d.overlaps :=
      fun d hd => hsame d (List.mem_cons_of_mem _ hd)
    by_cases hp : p e = true
    · have hany := hsame e List.mem_cons_self hp
      rw [List.filter_cons_of_pos hp, keepApart, keepApart, hany]
      split
      · exact ih hsorted hclear' hlast' hsame'
      · rw [List.filter_cons_of_pos hp]
        refine congrArg _ (ih hsorted hclear' ?_ fun _ _ _ => rfl)
        rintro l ⟨⟩ u hu hpu
        have hout := (hclear u (List.mem_cons_of_mem _ hu) hpu e List.mem_cons_self hp).2
        have hle := hstart u hu
        omega
    · have hpe : p e = false := by simpa using hp
      rw [List.filter_cons_of_neg hp, keepApart]
      split
      · exact ih hsorted hclear' hlast' hsame'
      · rw [List.filter_cons_of_neg hp]
        refine ih hsorted hclear' hlast' fun d hd hpd => ?_
        -- What comes behind `e` overlaps neither `e` nor the last one that was kept before it.
        have hout := (hclear e List.mem_cons_self hpe d (List.mem_cons_of_mem _ hd) hpd).1
        rw [Edit.overlaps_comm] at hout
        rw [Option.any_some, hout]
        cases hl : last' with
        | none => rfl
        | some l =>
          have hbefore := hlast l hl e List.mem_cons_self hpe
          have hle := hstart d hd
          rw [Option.any_some, eq_comm, Bool.eq_false_iff, ne_eq, Edit.overlaps_iff]
          omega

theorem resolved_filter_eq (edits : EditSet) (p : Edit → Bool) :
    resolved (edits.filter p) = keepApart none ((edits.mergeSort Edit.precedes).filter p) := by
  rw [resolved, List.mergeSort_filter Edit.precedes_trans Edit.precedes_total]

theorem applyTo?_congr {edits edits' : EditSet} {source : Text}
    (h : edits.resolved.filter (·.fits source) = edits'.resolved.filter (·.fits source)) :
    edits.applyTo? source = edits'.applyTo? source := by
  have hfilter (es : EditSet) : es.applyTo? source =
      (es.resolved.filter (·.fits source)).reverse.foldlM
        (fun changed e => changed.replace? e.start e.stop e.replacement) source := by
    rw [applyTo?, ordered, ← List.filter_reverse, List.foldlM_filter]
    rfl
  rw [hfilter, hfilter, h]

/-- The edit fits, and none that is kept without fitting overlaps it. -/
def Unsuppressed (edits : EditSet) (source : Text) (e : Edit) : Prop :=
  e.Fits source ∧ ∀ u ∈ edits.resolved, ¬ u.Fits source → u.overlaps e = false

instance (edits : EditSet) (source : Text) (e : Edit) : Decidable (edits.Unsuppressed source e) :=
  inferInstanceAs (Decidable (_ ∧ _))

section
variable {edits : EditSet} {source : Text} (hne : ∀ e ∈ edits, e.start ≠ e.stop)
  (hturned : ∀ u ∈ edits, u.stop < u.start → ∀ e ∈ edits, u.start < e.start ∨ e.stop ≤ u.start)
include hne hturned

theorem resolved_not_overlaps {a b : Edit} (ha : a ∈ edits.resolved) (hb : b ∈ edits.resolved)
    (hab : a ≠ b) : a.overlaps b = false := by
  have hapart {i j : Nat} (hij : i < j) (hj : j < edits.resolved.length) :
      edits.resolved[i].overlaps edits.resolved[j] = false := by
    rw [Bool.eq_false_iff]
    intro hover
    obtain ⟨hnext, hstop, hstart⟩ := exists_empty_of_overlaps hij hj hover
    have hmem (k : Nat) (hk : k < edits.resolved.length) : edits.resolved[k] ∈ edits :=
      mem_of_mem_resolved (List.getElem_mem hk)
    have hle := List.pairwise_iff_getElem.1 (resolved_starts_le edits) (i + 1) j (by omega) hj hnext
    have hne' := hne _ (hmem (i + 1) (by omega))
    have hout := hturned _ (hmem (i + 1) (by omega)) (by omega) _ (hmem i (by omega))
    rw [Edit.overlaps_iff] at hover
    omega
  obtain ⟨i, hi, rfl⟩ := List.getElem_of_mem ha
  obtain ⟨j, hj, rfl⟩ := List.getElem_of_mem hb
  rcases Nat.lt_trichotomy i j with hij | rfl | hij
  · exact hapart hij hj
  · exact absurd rfl hab
  · rw [Edit.overlaps_comm]
    exact hapart hij hi

theorem filter_fits_resolved :
    edits.resolved.filter (·.fits source) =
      resolved (edits.filter (edits.Unsuppressed source)) := by
  -- Without what is suppressed the same edits are kept. Those of them that do not fit are then
  -- clear of all that do.
  let stays (e : Edit) : Bool :=
    edits.Unsuppressed source e ∨ ¬ e.Fits source ∧ e ∈ edits.resolved
  have hstays : ∀ e ∈ edits.resolved, stays e = true := by
    intro e he
    refine decide_eq_true ?_
    by_cases hfits : e.Fits source
    · refine .inl ⟨hfits, fun u hu hunfit => ?_⟩
      exact resolved_not_overlaps hne hturned hu he fun h => hunfit (h ▸ hfits)
    · exact .inr ⟨hfits, he⟩
  have hmem {e : Edit} (he : e ∈ (edits.mergeSort Edit.precedes).filter stays) :
      e ∈ edits ∧ (edits.Unsuppressed source e ∨ ¬ e.Fits source ∧ e ∈ edits.resolved) :=
    ⟨List.mem_mergeSort.1 (List.mem_filter.1 he).1, of_decide_eq_true (List.mem_filter.1 he).2⟩
  have hclear : ∀ u ∈ (edits.mergeSort Edit.precedes).filter stays, u.fits source = false →
      ∀ e ∈ (edits.mergeSort Edit.precedes).filter stays, e.fits source = true → u.ClearOf e := by
    intro u hu hunfit e he hfits
    rw [← Edit.decide_fits, decide_eq_false_iff_not] at hunfit
    rw [Edit.fits_iff] at hfits
    obtain ⟨hu, hukept⟩ := hmem hu
    obtain ⟨he, hemade⟩ := hmem he
    have hukept : u ∈ edits.resolved := (hukept.resolve_left fun h => hunfit h.1).2
    have hemade : edits.Unsuppressed source e := hemade.resolve_right fun h => h.1 hfits
    have hover := hemade.2 u hukept hunfit
    refine ⟨hover, ?_⟩
    rcases Nat.lt_or_gt_of_ne (hne u hu) with hforward | hback
    · rw [Bool.eq_false_iff, ne_eq, Edit.overlaps_iff] at hover
      omega
    · exact hturned u hu hback e he
  calc edits.resolved.filter (·.fits source)
      = (keepApart none ((edits.mergeSort Edit.precedes).filter stays)).filter (·.fits source) := by
        rw [keepApart_filter hstays]
        rfl
    _ = keepApart none (((edits.mergeSort Edit.precedes).filter stays).filter (·.fits source)) :=
        filter_keepApart ((mergeSort_starts_le edits).filter stays) hclear (by simp) (by simp)
    _ = keepApart none ((edits.mergeSort Edit.precedes).filter (edits.Unsuppressed source)) := by
        rw [List.filter_filter]
        refine congrArg _ (List.filter_congr fun e _ => ?_)
        rw [Bool.eq_iff_iff, Bool.and_eq_true, Edit.fits_iff, decide_eq_true_eq, decide_eq_true_eq]
        exact ⟨fun h => h.2.resolve_right fun h' => h'.1 h.1, fun h => ⟨h.1, .inl h⟩⟩
    _ = resolved (edits.filter (edits.Unsuppressed source)) := (resolved_filter_eq _ _).symm

end

/-- An edit that does not fit is not made, but if it is kept it suppresses what it overlaps: the
result is that of the edits that fit and are not suppressed. These are all that fit if none of the
others overlaps one of them. Edits that are empty or start within another with their ends turned
around are left aside. -/
theorem applyTo?_unfit (source : Text) (edits : EditSet) (hne : ∀ e ∈ edits, e.start ≠ e.stop)
    (hturned : ∀ u ∈ edits, u.stop < u.start → ∀ e ∈ edits, u.start < e.start ∨ e.stop ≤ u.start) :
    ∃ out, edits.applyTo? source = some out ∧
      applyTo? (edits.filter (edits.Unsuppressed source)) source = some out ∧
      ((∀ u ∈ edits, ¬ u.Fits source → ∀ e ∈ edits, e.Fits source → u.overlaps e = false) →
        applyTo? (edits.filter (·.Fits source)) source = some out) := by
  have hmade {e : Edit} (he : e ∈ edits.filter (edits.Unsuppressed source)) :
      e ∈ edits ∧ e.Fits source :=
    ⟨(List.mem_filter.1 he).1, (of_decide_eq_true (List.mem_filter.1 he).2).1⟩
  have hfits : ∀ e ∈ resolved (edits.filter (edits.Unsuppressed source)),
      e.fits source = true :=
    fun e he => Edit.fits_iff.2 (hmade (mem_of_mem_resolved he)).2
  have happly : edits.applyTo? source =
      applyTo? (edits.filter (edits.Unsuppressed source)) source := by
    apply applyTo?_congr
    rw [filter_fits_resolved hne hturned, List.filter_eq_self.2 hfits]
  have hbytes : ∀ e ∈ edits.filter (edits.Unsuppressed source), e.start < e.stop := by
    intro e he
    obtain ⟨he, hfits⟩ := hmade he
    have hle := hfits.start_le
    have hne := hne e he
    omega
  obtain ⟨out, hout, -⟩ := applyTo?_eq_rewrite? _ source hbytes
  refine ⟨out, happly.trans hout, hout, fun hnone => ?_⟩
  have hsame : edits.filter (edits.Unsuppressed source) = edits.filter (·.Fits source) := by
    refine List.filter_congr fun e he => ?_
    rw [decide_eq_decide, Unsuppressed, and_iff_left_iff_imp]
    exact fun hfits u hu hunfit => hnone u (mem_of_mem_resolved hu) hunfit e he hfits
  rw [← hsame, hout]

theorem applyTo?_unfit_past_end :
    let first : Edit := ⟨0, 1, ofString "Z"⟩
    let past : Edit := ⟨2, 50, ofString "x"⟩
    let within : Edit := ⟨3, 4, ofString "Y"⟩
    let turned : Edit := ⟨1, 0, ofString "R"⟩
    applyTo? [first, turned, past, within] (ofString "abcde") = some (ofString "Zbcde") ∧
      applyTo? [first, turned, past] (ofString "abcde") =
        applyTo? [first] (ofString "abcde") := by
  intro first past within turned
  obtain ⟨out, hout, hmade, -⟩ := applyTo?_unfit (ofString "abcde") [first, turned, past, within]
    (by decide) (by decide)
  obtain ⟨out', hout', -, hfit⟩ := applyTo?_unfit (ofString "abcde") [first, turned, past]
    (by decide) (by decide)
  have hresolved : resolved [first, turned, past, within] = [first, turned, past] := by
    rw [resolved_of_precedes (by decide)]
    rfl
  have hfirst : List.filter (Unsuppressed [first, turned, past, within] (ofString "abcde"))
      [first, turned, past, within] = [first] := by
    simp only [Unsuppressed, hresolved]
    rfl
  constructor
  · rw [hout, ← hmade, hfirst, applyTo?, ordered, resolved_of_precedes (by decide)]
    rfl
  · rw [hout', ← hfit (by decide)]
    rfl

/-- Turned around within the first edit, the second lets the third through, which lies in the first.
Then no range is left for the first. -/
example : applyTo? [⟨0, 10, ['A']⟩, ⟨5, 0, ['R']⟩, ⟨6, 8, []⟩] (ofString "0123456789") = none := by
  rw [applyTo?, ordered, resolved_of_precedes (by decide)]
  rfl

end EditSet
end SourceWindow
