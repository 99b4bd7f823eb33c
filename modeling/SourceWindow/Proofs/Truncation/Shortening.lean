import SourceWindow.Proofs.Edit.Rewriting
import SourceWindow.Proofs.Truncation.Replacement

/-!
A text and its form with literals shortened, laid side by side. The two share what lies between the
literals, and no cut at the ends of a literal parts a carriage return from its line feed. What holds
of all such pairs is proved by induction on the literals in source order.
-/

set_option autoImplicit false

namespace SourceWindow

/-- Behind `before`, the edits put the truncated form of each of some literals of `source` in its
place, which gives `result`. -/
inductive Shortening : Text → Text → List Edit → Text → Prop where
  | kept (before rest : Text) : Shortening before rest [] rest
  | literal {before source result : Text} {edits : List Edit} (kept literal : Text) :
      literal ≠ [] → Text.CleanCut (before ++ kept) literal → Text.CleanCut literal source →
      Shortening (before ++ kept ++ literal) source edits result →
      Shortening before (kept ++ literal ++ source)
        (⟨Text.size (before ++ kept), Text.size (before ++ kept ++ literal), literal.truncated⟩ ::
          edits)
        (kept ++ literal.truncated ++ result)

def Edit.growth (e : Edit) : Int := e.replacement.size - (e.stop - e.start)

def EditSet.growth : EditSet → Int
  | [] => 0
  | e :: edits => e.growth + EditSet.growth edits

namespace Shortening
open Text

variable {before source result : Text} {edits : List Edit}

theorem bounds (h : Shortening before source edits result) {e : Edit} (he : e ∈ edits) :
    before.size ≤ e.start ∧ e.start < e.stop ∧ e.stop ≤ size (before ++ source) := by
  induction h with
  | kept => cases he
  | literal kept literal hne hstart hstop h ih =>
    have hpos := size_pos hne
    rcases List.mem_cons.1 he with rfl | he
    · simp only [size_append]
      omega
    · have h := ih he
      simp only [size_append] at h ⊢
      omega

theorem before_of_mem (h : Shortening before source edits result) : edits.Pairwise Edit.Before := by
  induction h with
  | kept => exact .nil
  | literal kept literal hne hstart hstop h ih =>
    exact List.pairwise_cons.2 ⟨fun e he => (h.bounds he).1, ih⟩

theorem cleanCut_right (h : Shortening before source edits result) {a : Text}
    (ha : CleanCut a source) : CleanCut a result := by
  cases h with
  | kept => exact ha
  | literal kept literal hne hstart hstop h =>
    by_cases hk : kept = []
    · rw [hk, List.nil_append]
      exact (cleanCut_truncated_right hne a).append_right (truncated_ne_nil hne) _
    · rw [List.append_assoc] at ha ⊢
      exact ha.of_append_right.append_right hk _

theorem lineBreaks_eq (h : Shortening before source edits result) :
    lineBreaks result = lineBreaks source := by
  induction h with
  | kept => rfl
  | literal kept literal hne hstart hstop h ih =>
    have hleft : CleanCut kept literal := hstart.of_append_left
    rw [List.append_assoc, List.append_assoc,
      lineBreaks_append ((cleanCut_truncated_right hne kept).append_right (truncated_ne_nil hne) _),
      lineBreaks_append (cleanCut_truncated_left hne _), lineBreaks_truncated hne, ih,
      lineBreaks_append (hleft.append_right hne _), lineBreaks_append hstop]

theorem size_eq (h : Shortening before source edits result) :
    (result.size : Int) = source.size + EditSet.growth edits := by
  induction h with
  | kept => simp [EditSet.growth]
  | literal kept literal hne hstart hstop h ih =>
    simp only [EditSet.growth, Edit.growth, size_append]
    push_cast
    omega

/-- The result is what one pass of the edits over the whole source gives. -/
theorem rewrite?_eq (h : Shortening before source edits result) :
    (before ++ source).rewrite? before.size edits = some result := by
  induction h with
  | kept before rest => simp [rewrite?, splitAt?_append]
  | @literal before source result edits kept literal hne hstart hstop h ih =>
    have hs : before ++ (kept ++ literal ++ source) = before ++ kept ++ literal ++ source := by simp
    rw [hs]
    exact EditSet.rewrite?_cons rfl ih

end Shortening
end SourceWindow
