import SourceWindow.Text.Lowercase
import SourceWindow.Proofs.Text.Trimming

set_option autoImplicit false

theorem Char.toLower_eq_dot_iff {c : Char} : c.toLower = '.' ↔ c = '.' := by
  refine ⟨fun h => ?_, fun h => by rw [h]; rfl⟩
  unfold Char.toLower at h
  split at h
  · rename_i hupper
    simp only [ge_iff_le, UInt32.le_iff_toNat_le] at hupper
    have hfirst : 'A'.val.toNat = 65 := rfl
    have hlast : 'Z'.val.toNat = 90 := rfl
    have hval : (c.val.toNat + 32) % 2 ^ 32 = 46 := congrArg (·.val.toNat) h
    omega
  · exact h

namespace SourceWindow

/-- The lowercase letters of each run are beyond ASCII, but for that of the Kelvin sign. -/
theorem capitalRuns_lead_beyond : ∀ run ∈ capitalRuns,
    (128 : Int) ≤ run.1 + run.2.2.2 ∨ run = (0x212A, 0x212A, 1, -8383) := by
  decide +kernel

theorem not_isVisible_ofNat {n : Nat} (h : 128 ≤ n) : ¬ IsVisible (Char.ofNat n) := by
  by_cases hvalid : n.isValidChar
  · have hn : (Char.ofNat n).toNat = n := by
      rw [Char.ofNat, dif_pos hvalid]
      rfl
    unfold IsVisible
    omega
  · rw [Char.ofNat, dif_neg hvalid]
    decide

theorem exists_mem_lowercaseChar {c : Char} (hc : 128 ≤ c.toNat) :
    ∃ d ∈ lowercaseChar c, d = 'k' ∨ ¬ IsVisible d := by
  unfold lowercaseChar
  rw [if_neg (Nat.not_lt.2 hc)]
  split
  · exact ⟨'\u0307', by simp, .inr (by decide)⟩
  · dsimp only
    split
    · rename_i first last step distance hrun
      refine ⟨_, List.mem_singleton_self _, ?_⟩
      have hin := List.find?_some hrun
      simp only [Bool.and_eq_true, decide_eq_true_eq, beq_iff_eq] at hin
      rcases capitalRuns_lead_beyond _ (List.mem_of_find?_eq_some hrun) with h | h
      · exact .inr (not_isVisible_ofNat (by simp only at h; omega))
      · cases h
        have hn : c.toNat = 0x212A := by omega
        rw [hn]
        exact .inl rfl
    · refine ⟨c, List.mem_singleton_self c, .inr ?_⟩
      unfold IsVisible
      omega

namespace Text

def SameButCase (s t : Text) : Prop := s.map Char.toLower = t.map Char.toLower

variable {t : Text}

theorem lowercase_of_lt (h : ∀ c ∈ t, c.toNat < 128) : t.lowercase = t.map Char.toLower := by
  induction t with
  | nil => rfl
  | cons c t ih =>
    have hc : lowercaseChar c = [c.toLower] := if_pos (h c List.mem_cons_self)
    have ht := ih fun d hd => h d (List.mem_cons_of_mem c hd)
    rw [lowercase, List.flatMap_cons, hc, ← lowercase, ht]
    rfl

theorem lt_of_lowercase (h : ∀ d ∈ t.lowercase, IsVisible d ∧ d ≠ 'k') {c : Char} (hc : c ∈ t) :
    c.toNat < 128 := by
  refine Nat.lt_of_not_le fun hbeyond => ?_
  obtain ⟨d, hd, hform⟩ := exists_mem_lowercaseChar hbeyond
  obtain ⟨hvisible, hk⟩ := h d (List.mem_flatMap.2 ⟨c, hc, hd⟩)
  exact hform.elim hk fun hnot => hnot hvisible

/-- A text of visible ASCII without the letter k is the lowercase form of just the texts that
differ from it in the case of ASCII letters. -/
theorem lowercase_eq_iff {w : Text} (hw : ∀ d ∈ w, IsVisible d ∧ d ≠ 'k') :
    t.lowercase = w ↔ t.map Char.toLower = w := by
  constructor
  · rintro rfl
    exact (lowercase_of_lt fun c => lt_of_lowercase hw).symm
  · rintro rfl
    refine lowercase_of_lt fun c hc => Nat.lt_succ_of_lt (isVisible_of_toLower ?_).2
    exact (hw _ (List.mem_map_of_mem hc)).1

end Text
end SourceWindow
