import SourceWindow.Grammar
import SourceWindow.Proofs.Text.Lowercase

set_option autoImplicit false

namespace SourceWindow
open Text

namespace Grammar

def IsNameOf (g : Grammar) (t : Text) : Prop := t.map Char.toLower = g.name

variable {g : Grammar} {t : Text}

theorem isVisible_of_mem_name {c : Char} (h : c ∈ g.name) : IsVisible c := by
  have hall : g.name.all (IsVisible ·) = true := by cases g <;> decide
  simpa using List.all_eq_true.1 hall c h

/-- White space around a visible name, and the case of its letters, make no difference. -/
theorem ofName?_padded {padded : Text} (hpad : Padded t padded) (hne : t ≠ [])
    (hvisible : ∀ c ∈ t, IsVisible c) :
    ofName? padded = all.find? (·.goesBy (dropDot (t.map Char.toLower))) := by
  have hlower := lowercase_of_lt fun c hc => Nat.lt_succ_of_lt (hvisible c hc).2
  rw [ofName?, hpad.trim_eq hne hvisible, hlower]

theorem find?_goesBy_name (g : Grammar) : all.find? (·.goesBy (dropDot g.name)) = some g := by
  cases g <;> decide

theorem IsNameOf.isVisible (h : g.IsNameOf t) {c : Char} (hc : c ∈ t) : IsVisible c := by
  have hlower : c.toLower ∈ g.name := h ▸ List.mem_map_of_mem hc
  exact isVisible_of_toLower (isVisible_of_mem_name hlower)

theorem IsNameOf.ne_nil (h : g.IsNameOf t) : t ≠ [] := by
  rintro rfl
  have hname : g.name ≠ [] := by cases g <;> decide
  exact hname h.symm

theorem IsNameOf.ofName?_eq (h : g.IsNameOf t) {padded : Text} (hpad : Padded t padded) :
    ofName? padded = some g := by
  have hname : t.map Char.toLower = g.name := h
  rw [ofName?_padded hpad h.ne_nil fun _ => h.isVisible, hname]
  exact find?_goesBy_name g

end Grammar
end SourceWindow
