import SourceWindow.Proofs.Edit.Resolution
import SourceWindow.Proofs.Text.Cuts

set_option autoImplicit false

namespace SourceWindow

/-- The source from byte `here` on with each edit's replacement in place of its range. What lies
between the edits is kept, and all offsets are those of the source. -/
def Text.rewrite? (source : Text) (here : Nat) : List Edit → Option Text
  | [] => (source.splitAt? here).map (·.2)
  | e :: es => do
    let kept ← source.slice? here e.start
    let rest ← source.rewrite? e.stop es
    some (kept ++ e.replacement ++ rest)

namespace Edit

def Fits (source : Text) (e : Edit) : Prop :=
  ∃ a m b, source = a ++ m ++ b ∧ a.size = e.start ∧ Text.size (a ++ m) = e.stop

theorem fits_iff {e : Edit} {source : Text} : e.fits source = true ↔ e.Fits source := by
  unfold fits
  rw [Bool.and_eq_true, Bool.and_eq_true, decide_eq_true_eq, Text.isBoundary_iff,
    Text.isBoundary_iff]
  constructor
  · rintro ⟨⟨hle, a, r, rfl, ha⟩, am, b, h, ham⟩
    obtain ⟨m, rfl, rfl⟩ := Text.exists_append_of_size_le h (by omega)
    exact ⟨a, m, b, by simp, ha, ham⟩
  · rintro ⟨a, m, b, rfl, ha, ham⟩
    refine ⟨⟨?_, a, m ++ b, by simp, ha⟩, a ++ m, b, rfl, ham⟩
    rw [Text.size_append] at ham
    omega

instance (source : Text) (e : Edit) : Decidable (e.Fits source) := decidable_of_iff _ fits_iff

theorem decide_fits (source : Text) (e : Edit) : decide (e.Fits source) = e.fits source := by
  rw [Bool.eq_iff_iff, decide_eq_true_eq, fits_iff]

end Edit

namespace EditSet
open Text

theorem rewrite?_cons {a k m b rest : Text} {e : Edit} {es : List Edit}
    (hstart : size (a ++ k) = e.start)
    (hrest : (a ++ k ++ m ++ b).rewrite? e.stop es = some rest) :
    (a ++ k ++ m ++ b).rewrite? a.size (e :: es) = some (k ++ e.replacement ++ rest) := by
  have hkept : (a ++ k ++ m ++ b).slice? a.size e.start = some k :=
    slice?_eq_some_iff.2 ⟨a, m ++ b, by simp, rfl, hstart⟩
  rw [rewrite?, hkept, hrest]
  rfl

theorem step_of_fits {a k m b rest : Text} {e : Edit} (hstart : size (a ++ k) = e.start)
    (hstop : size (a ++ k ++ m) = e.stop) :
    applyTo?.step (a ++ k ++ m ++ b) (a ++ k ++ m ++ rest) e =
      some (a ++ (k ++ e.replacement ++ rest)) := by
  have hfits : e.fits (a ++ k ++ m ++ b) = true :=
    Edit.fits_iff.2 ⟨a ++ k, m, b, rfl, hstart, hstop⟩
  rw [applyTo?.step, if_pos hfits, ← hstart, ← hstop, replace?_append]
  simp

/-- The edits behind `a`, made from the last to the first, leave `a` as it stands, so that an edit
still waiting finds its range unchanged. -/
theorem foldrM_step_eq {source a r : Text} {es : List Edit} (hsource : source = a ++ r)
    (hes : es.Pairwise Edit.Before) (hbytes : ∀ e ∈ es, e.start < e.stop)
    (ha : ∀ e ∈ es, a.size ≤ e.start) :
    ∃ out, es.foldrM (fun e changed => applyTo?.step source changed e) source = some (a ++ out) ∧
      source.rewrite? a.size (es.filter (·.fits source)) = some out := by
  induction es generalizing a r with
  | nil =>
    refine ⟨r, by rw [hsource]; rfl, ?_⟩
    rw [List.filter_nil, rewrite?, hsource, splitAt?_append]
    rfl
  | cons e es ih =>
    obtain ⟨hbehind, hes⟩ := List.pairwise_cons.1 hes
    have hpos := hbytes e (by simp)
    have hbytes' : ∀ d ∈ es, d.start < d.stop := fun d hd => hbytes d (by simp [hd])
    rw [List.foldrM_cons]
    by_cases hfits : e.fits source = true
    · -- What was changed so far lies behind `e`, so its range is still that of the source.
      obtain ⟨ak, m, b, hcut, hstart, hstop⟩ := Edit.fits_iff.1 hfits
      obtain ⟨k, rfl, -⟩ : ∃ k, ak = a ++ k ∧ r = k ++ (m ++ b) := by
        refine exists_append_of_size_le ?_ ?_
        · rw [← hsource, hcut, List.append_assoc]
        · rw [hstart]
          exact ha e (by simp)
      obtain ⟨out, hfold, hrest⟩ := ih (a := a ++ k ++ m) hcut hes hbytes' fun d hd => by
        rw [hstop]
        exact hbehind d hd
      rw [hstop] at hrest
      refine ⟨k ++ e.replacement ++ out, ?_, ?_⟩
      · rw [hfold]
        rw [hcut]
        exact step_of_fits hstart hstop
      · rw [List.filter_cons, if_pos hfits]
        rw [hcut] at hrest ⊢
        exact rewrite?_cons hstart hrest
    · obtain ⟨out, hfold, hrest⟩ := ih hsource hes hbytes' fun d hd => by
        have hbefore := hbehind d hd
        have hle := ha e (by simp)
        unfold Edit.Before at hbefore
        omega
      refine ⟨out, ?_, ?_⟩
      · rw [hfold]
        simp [applyTo?.step, hfits]
      · rw [List.filter_cons, if_neg hfits]
        exact hrest

theorem applyTo?_eq_rewrite? (edits : EditSet) (source : Text)
    (h : ∀ e ∈ edits, e.start < e.stop) :
    ∃ out, edits.applyTo? source = some out ∧
      source.rewrite? 0 (edits.resolved.filter (·.fits source)) = some out := by
  obtain ⟨out, hfold, hrest⟩ := foldrM_step_eq (a := []) (r := source) rfl (resolved_before h)
    (fun e he => h e (mem_of_mem_resolved he)) (by simp)
  refine ⟨out, ?_, hrest⟩
  rw [applyTo?, ordered, List.foldlM_reverse]
  exact hfold

/-- Edits made from the back, each on the text as changed so far, put their texts in place of their
ranges all at once. Those that fit are disjoint, and one pass over the source gives the result. -/
theorem applyTo?_one_pass (source : Text) (edits : EditSet) (h : ∀ e ∈ edits, e.start < e.stop) :
    (edits.ordered.reverse.filter (·.Fits source)).Pairwise Edit.Before ∧
      ∃ out, edits.applyTo? source = some out ∧
        source.rewrite? 0 (edits.ordered.reverse.filter (·.Fits source)) = some out := by
  have hreverse : edits.ordered.reverse = edits.resolved := List.reverse_reverse _
  simp only [hreverse, Edit.decide_fits]
  exact ⟨(resolved_before h).filter _, applyTo?_eq_rewrite? edits source h⟩

theorem applyTo?_one_pass_accent :
    let longer : Edit := ⟨1, 3, ofString "ee"⟩
    let shorter : Edit := ⟨3, 4, []⟩
    applyTo? [longer, ⟨2, 3, ['x']⟩, shorter, ⟨5, 6, ['y']⟩, ⟨7, 50, ['z']⟩] (ofString "aébcéf") =
      some (ofString "aeecéf") := by
  intro longer shorter
  obtain ⟨-, out, hout, hpass⟩ := applyTo?_one_pass (ofString "aébcéf")
    [longer, ⟨2, 3, ['x']⟩, shorter, ⟨5, 6, ['y']⟩, ⟨7, 50, ['z']⟩] (by decide)
  rw [ordered, resolved_of_precedes (by decide)] at hpass
  rw [hout, ← hpass]
  rfl

end EditSet
end SourceWindow
