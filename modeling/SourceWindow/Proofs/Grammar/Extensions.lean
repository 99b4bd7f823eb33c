import SourceWindow.Files.Path
import SourceWindow.Proofs.Grammar.Names

set_option autoImplicit false

namespace SourceWindow

namespace Grammar
open Text

def IsExtensionOf (g : Grammar) (t : Text) : Prop :=
  ∃ e ∈ g.extensions, t.map Char.toLower = ofString e

theorem dropDot_cons {c : Char} (h : c ≠ '.') (t : Text) : dropDot (c :: t) = c :: t := by
  unfold dropDot
  split
  · rename_i heq
    exact absurd (List.cons.inj heq).1 h
  · rfl

theorem mem_dropDot {c : Char} {t : Text} (hc : c ∈ t) : c = '.' ∨ c ∈ dropDot t := by
  cases t with
  | nil => exact .inr hc
  | cons d t =>
    by_cases hd : d = '.'
    · rw [hd] at hc ⊢
      exact List.mem_cons.1 hc
    · exact .inr (by rwa [dropDot_cons hd])

/-- It makes no difference whether the dot is dropped before or after the change of case. -/
theorem dropDot_map_toLower (t : Text) :
    dropDot (t.map Char.toLower) = (dropDot t).map Char.toLower := by
  cases t with
  | nil => rfl
  | cons c t =>
    by_cases hc : c = '.'
    · rw [hc]
      rfl
    · rw [List.map_cons, dropDot_cons (mt Char.toLower_eq_dot_iff.1 hc), dropDot_cons hc, List.map_cons]

variable {g : Grammar} {t padded : Text}

theorem isVisible_of_mem_extension : ∀ e ∈ g.extensions, ∀ c ∈ ofString e,
    IsVisible c ∧ c ≠ 'k' := by
  have hall : (g.extensions.all fun e =>
      (ofString e).all fun c => IsVisible c && c != 'k') = true := by
    cases g <;> decide
  simpa using hall

theorem dot_not_mem_extension : ∀ e ∈ g.extensions, '.' ∉ ofString e := by
  cases g <;> decide

theorem find?_hasExtension : ∀ e ∈ g.extensions,
    all.find? (·.hasExtension (ofString e)) = some g := by
  cases g <;> decide

theorem find?_goesBy_extension : ∀ e ∈ g.extensions,
    all.find? (·.goesBy (ofString e)) = some g := by
  cases g <;> decide

theorem hasExtension_lowercase_iff : g.hasExtension t.lowercase = true ↔ g.IsExtensionOf t := by
  simp only [hasExtension, IsExtensionOf, List.any_eq_true, beq_iff_eq]
  refine exists_congr fun e => and_congr_right fun he => ?_
  rw [eq_comm, lowercase_eq_iff (isVisible_of_mem_extension e he)]

theorem ofExtension?_eq_some_iff : ofExtension? t = some g ↔ g.IsExtensionOf (dropDot t) := by
  constructor
  · intro h
    have hfound := List.find?_some h
    exact hasExtension_lowercase_iff.1 hfound
  · rintro ⟨e, he, hlower⟩
    rw [ofExtension?, (lowercase_eq_iff (isVisible_of_mem_extension e he)).2 hlower]
    exact find?_hasExtension e he

namespace IsExtensionOf

theorem of_sameButCase {s : Text} (h : g.IsExtensionOf t) (hs : SameButCase s t) :
    g.IsExtensionOf s := by
  obtain ⟨e, he, hlower⟩ := h
  exact ⟨e, he, hs.trans hlower⟩

theorem isVisible (h : g.IsExtensionOf t) {c : Char} (hc : c ∈ t) : IsVisible c := by
  obtain ⟨e, he, hlower⟩ := h
  have hmem : c.toLower ∈ ofString e := hlower ▸ List.mem_map_of_mem hc
  exact isVisible_of_toLower (isVisible_of_mem_extension e he _ hmem).1

theorem ne_nil (h : g.IsExtensionOf t) : t ≠ [] := by
  rintro rfl
  obtain ⟨e, he, hlower⟩ := h
  have hempty : ∀ e ∈ g.extensions, ofString e ≠ [] := by cases g <;> decide
  exact hempty e he hlower.symm

theorem dropDot_eq (h : g.IsExtensionOf t) : dropDot t = t := by
  obtain ⟨e, he, hlower⟩ := h
  cases t with
  | nil => rfl
  | cons c t =>
    refine dropDot_cons (fun hc => dot_not_mem_extension e he ?_) t
    rw [← hlower, List.map_cons, hc]
    exact List.mem_cons_self

theorem ofName?_eq (h : g.IsExtensionOf (dropDot t)) (hpad : Padded t padded) :
    ofName? padded = some g := by
  have hvisible : ∀ c ∈ t, IsVisible c := by
    intro c hc
    rcases mem_dropDot hc with rfl | hc
    · decide
    · exact h.isVisible hc
  have hne : t ≠ [] := by
    rintro rfl
    exact h.ne_nil rfl
  obtain ⟨e, he, hlower⟩ := h
  rw [ofName?_padded hpad hne hvisible, dropDot_map_toLower, hlower]
  exact find?_goesBy_extension e he

end IsExtensionOf

/-- The grammar that a file extension chooses is the grammar of that name, for the extension with
or without its dot, in letters of either case, and for the name with any white space around it. So
a path is read with the grammar that its extension names. -/
theorem ofExtension?_agrees_ofName? {extension : Text} (h : ofExtension? extension = some g) :
    ofName? extension = some g ∧
    (∀ e, SameButCase e (dropDot extension) → ∀ dotted, dotted = e ∨ dotted = '.' :: e →
      ofExtension? dotted = some g ∧ ∀ padded, Padded dotted padded → ofName? padded = some g) ∧
    ∀ path fallback, Path.extension? path = some extension → Path.grammar path fallback = g := by
  have hextension := ofExtension?_eq_some_iff.1 h
  refine ⟨hextension.ofName?_eq (padded_self extension), ?_, ?_⟩
  · intro e he dotted hdotted
    have hbare := hextension.of_sameButCase he
    have hchosen : g.IsExtensionOf (dropDot dotted) := by
      rcases hdotted with rfl | rfl
      · rwa [hbare.dropDot_eq]
      · exact hbare
    exact ⟨ofExtension?_eq_some_iff.2 hchosen, fun padded => hchosen.ofName?_eq⟩
  · intro path fallback hpath
    rw [Path.grammar, Path.registered?, hpath, Option.bind_some, h]
    rfl

theorem ofExtension?_agrees_ofName?_python :
    ofExtension? (ofString "Py") = some .python ∧ ofName? (ofString "Py") = some .python ∧
      ofExtension? (ofString ".pY") = some .python ∧
      ofName? (ofString "\u3000.pY\n") = some .python ∧
      Path.grammar (ofString "src/main.Py") .json = .python := by
  have h : ofExtension? (ofString "Py") = some .python := by decide
  obtain ⟨hname, hcase, hpath⟩ := ofExtension?_agrees_ofName? h
  obtain ⟨hdotted, hpadded⟩ := hcase (ofString "pY") rfl (ofString ".pY") (.inr rfl)
  have hpad : Padded (ofString ".pY") (ofString "\u3000.pY\n") :=
    ⟨['\u3000'], ['\n'], rfl, by simp [isBlank], by simp [isBlank]⟩
  exact ⟨h, hname, hdotted, hpadded _ hpad, hpath _ _ (by decide)⟩

end Grammar
end SourceWindow
