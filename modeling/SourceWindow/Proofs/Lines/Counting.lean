import SourceWindow.Proofs.Lines.Contents

/-!
The count of lines and the count of terminators. Lines are counted where the index sets them and
terminators by themselves, and yet the two go by the same terminators: the counts differ by one for
a last line left open, and no more. So line feeds can stand in place of a part of a text, one for
each terminator of it, wherever the part is cut out without parting a carriage return from its line
feed and the text goes on behind it.
-/

set_option autoImplicit false

namespace SourceWindow

namespace LineIndex
open Text

def endedBefore (index : LineIndex) (offset : Nat) : LineIndex := index.filter (·.stop < offset)

theorem endedBefore_cons {l : Line} {offset : Nat} (h : l.stop < offset) (index : LineIndex) :
    endedBefore (l :: index) offset = l :: index.endedBefore offset := by
  simp [endedBefore, h]

theorem le_stop_of_mem_scan {start here : Nat} {t : Text} {l : Line} (h : l ∈ scan start here t) :
    here ≤ l.stop := by
  induction t using lineInduction generalizing start here with
  | nil =>
    rw [scan] at h
    split at h
    · obtain rfl := List.mem_singleton.1 h
      exact Nat.le_refl here
    · cases h
  | lineEnd e t he ih =>
    rw [scan_lineEnd _ _ he] at h
    rcases List.mem_cons.1 h with rfl | h
    · exact Nat.le_refl here
    · exact Nat.le_trans (Nat.le_add_right _ _) (ih h)
  | char c t hc ih =>
    rw [scan_char _ _ hc] at h
    exact Nat.le_trans (Nat.le_add_right _ _) (ih h)

theorem endedBefore_scan {offset here : Nat} (h : offset ≤ here) (start : Nat) (t : Text) :
    (scan start here t).endedBefore offset = [] := by
  refine List.filter_eq_nil_iff.2 fun l hl => ?_
  have hle := le_stop_of_mem_scan hl
  simp only [decide_eq_true_eq]
  omega

/-- As many lines of a text end before a cut as there are terminators in front of it. This holds
also where the cut parts a carriage return from its line feed. -/
theorem length_endedBefore_scan {t a b : Text} (ht : t = a ++ b) (start here : Nat) :
    ((scan start here t).endedBefore (here + a.size)).length = a.lineBreaks := by
  induction t using lineInduction generalizing a start here with
  | nil =>
    obtain ⟨rfl, rfl⟩ := List.append_eq_nil_iff.1 ht.symm
    rw [endedBefore_scan (by simp)]
    rfl
  | lineEnd e t he ih =>
    by_cases ha : a = []
    · rw [ha, endedBefore_scan (by simp)]
      rfl
    · have hpos := size_pos ha
      rw [scan_lineEnd _ _ he, endedBefore_cons (by simp only; omega), List.length_cons]
      by_cases hsize : e.size ≤ a.size
      · obtain ⟨k, rfl, rfl⟩ := exists_append_of_size_le ht hsize
        rw [size_append, ← Nat.add_assoc, ih rfl, lineBreaks_lineEnd he.of_append]
      · -- The cut is within the line end, and no later line ends before it.
        obtain ⟨k, rfl, -⟩ := exists_append_of_size_le ht.symm (by omega)
        obtain ⟨d, c, rfl⟩ := exists_eq_concat ha
        rw [List.append_assoc] at he
        rw [endedBefore_scan (by omega), he.lineBreaks_prefix.2]
        rfl
  | char c t hc ih =>
    rw [scan_char _ _ hc]
    cases a with
    | nil =>
      rw [endedBefore_scan (by simp)]
      rfl
    | cons d a =>
      obtain ⟨rfl, rfl⟩ := List.cons.inj ht
      rw [size_cons, ← Nat.add_assoc, ih rfl, lineBreaks_char hc]

end LineIndex

namespace Text

theorem lineBreaks_eq_zero_iff {t : Text} : lineBreaks t = 0 ↔ Unbroken t := by
  refine ⟨fun h => ?_, Unbroken.lineBreaks_eq⟩
  induction t using lineInduction with
  | nil => exact unbroken_nil
  | lineEnd e t he ih =>
    rw [lineBreaks_lineEnd he] at h
    omega
  | char c t hc ih =>
    rw [lineBreaks_char hc] at h
    exact List.forall_mem_cons.2 ⟨hc, ih h⟩

def Unended (t : Text) : Prop := ∃ c ∈ t.getLast?, ¬ IsTerminator c

instance (t : Text) : Decidable t.Unended := Option.decidableExistsMem t.getLast?

theorem unended_append {b : Text} (hb : b ≠ []) (a : Text) : Unended (a ++ b) ↔ Unended b := by
  unfold Unended
  rw [List.getLast?_append, List.getLast?_eq_some_getLast hb, Option.some_or]

theorem unended_lineFeeds (n : Nat) : ¬ Unended (List.replicate n '\n') := by
  simp [Unended, List.getLast?_replicate, IsTerminator]

theorem not_unended {t : Text} (h : ∃ c ∈ t.getLast?, IsTerminator c) : ¬ Unended t := by
  intro hopen
  obtain ⟨c, hlast, hc⟩ := h
  obtain ⟨d, hd, hnot⟩ := hopen
  exact hnot (Option.mem_unique hlast hd ▸ hc)

theorem lineBreaks_ne_zero {t : Text} (h : ∃ c ∈ t.getLast?, IsTerminator c) :
    lineBreaks t ≠ 0 := by
  obtain ⟨c, hlast, hc⟩ := h
  exact fun hzero => lineBreaks_eq_zero_iff.1 hzero c (List.mem_of_getLast? hlast) hc

theorem lineCount_eq_unended (t : Text) :
    t.lineCount = t.lineBreaks + if t.Unended then 1 else 0 := by
  rw [lineCount_eq]
  congr 1
  rcases List.eq_nil_or_concat t with rfl | ⟨t, c, rfl⟩
  · simp [openLine, Unended]
  · by_cases hc : IsTerminator c <;> simp [openLine_concat, Unended, hc]

/-- Texts put together have the line breaks of both, but for one where a carriage return and its
line feed come together. -/
theorem lineBreaks_append_add (a b : Text) :
    lineBreaks (a ++ b) + (if a.getLast? = some '\r' ∧ b.head? = some '\n' then 1 else 0) =
      lineBreaks a + lineBreaks b := by
  by_cases h : a.getLast? = some '\r' ∧ b.head? = some '\n'
  · obtain ⟨a, rfl⟩ := List.getLast?_eq_some_iff.1 h.1
    obtain ⟨b, rfl⟩ := List.head?_eq_some_iff.1 h.2
    have hclean (k : Text) : CleanCut a ('\r' :: k) := by simp [CleanCut]
    have hpair : lineBreaks ('\r' :: '\n' :: b) = lineBreaks b + 1 := lineBreaks_lineEnd (.pair b)
    have hreturn : lineBreaks ['\r'] = 1 := rfl
    have hfeed : lineBreaks ('\n' :: b) = lineBreaks b + 1 := lineBreaks_lineEnd (.lineFeed b)
    rw [if_pos h, lineBreaks_append (hclean []), List.append_assoc, List.singleton_append,
      lineBreaks_append (hclean _), hpair, hreturn, hfeed]
    omega
  · rw [if_neg h, Nat.add_zero, lineBreaks_append fun hl hb => h ⟨hl, hb⟩]

theorem cleanCut_append {a k b : Text} (ha : a.getLast? ≠ some '\r') (h : CleanCut k b) :
    CleanCut (a ++ k) b := by
  cases k with
  | nil => simp [CleanCut, ha]
  | cons c k => exact h.append_left (by simp) a

theorem lineCount_between {before k behind : Text} (hbefore : before.getLast? ≠ some '\r')
    (hk : CleanCut k behind) :
    lineCount (before ++ k ++ behind) = before.lineBreaks + k.lineBreaks + behind.lineBreaks +
      if Unended (before ++ k ++ behind) then 1 else 0 := by
  rw [lineCount_eq_unended, lineBreaks_append (cleanCut_append hbefore hk),
    lineBreaks_append fun hl => absurd hl hbefore]

theorem unended_padded {chunk behind : Text}
    (h : behind ≠ [] ∨ ∃ c ∈ chunk.getLast?, IsTerminator c) (before : Text) :
    Unended (before ++ List.replicate chunk.lineBreaks '\n' ++ behind) ↔
      Unended (before ++ chunk ++ behind) := by
  by_cases hb : behind = []
  · have hended := h.resolve_left (absurd hb)
    have hchunk : chunk ≠ [] := by
      rintro rfl
      simp at hended
    have hfeeds : List.replicate chunk.lineBreaks '\n' ≠ [] := by
      simpa using lineBreaks_ne_zero hended
    rw [hb, List.append_nil, List.append_nil, unended_append hchunk, unended_append hfeeds]
    exact iff_of_false (unended_lineFeeds _) (not_unended hended)
  · rw [unended_append hb, unended_append hb]

theorem lineCount_padded {before chunk behind : Text} (hbefore : before.getLast? ≠ some '\r')
    (hcut : CleanCut chunk behind)
    (hbehind : behind ≠ [] ∨ ∃ c ∈ chunk.getLast?, IsTerminator c) :
    lineCount (before ++ chunk ++ behind) =
      lineCount (before ++ List.replicate chunk.lineBreaks '\n' ++ behind) := by
  have hfeeds : CleanCut (List.replicate chunk.lineBreaks '\n') behind := by
    simp [CleanCut, List.getLast?_replicate]
  rw [lineCount_between hbefore hcut, lineCount_between hbefore hfeeds, lineBreaks_replicate]
  simp only [unended_padded hbehind]

/-- The lines of a text are as many as its terminators, and one more if the last lacks its own. The
terminators are the same ones: in front of any place of the text there are as many of them as lines
that end there. -/
theorem lineCount_counts_terminators (t : Text) :
    t.lineCount = t.lineBreaks + (if t.Unended then 1 else 0) ∧
      ∀ n, lineBreaks (t.take n) =
        ((LineIndex.ofText t).endedBefore (size (t.take n))).length := by
  refine ⟨lineCount_eq_unended t, fun n => ?_⟩
  have hended := LineIndex.length_endedBefore_scan (t.take_append_drop n).symm 0 0
  rw [Nat.zero_add] at hended
  exact hended.symm

example : lineBreaks (ofString "a\r\n\rb") = 2 ∧ lineCount (ofString "a\r\n\rb") = 3 := by decide

/-- The line breaks of two texts add up, but for a pair that comes together at the seam, and line
feeds in place of a part of a text, one for each line break of it, keep the number of lines. -/
theorem lineBreaks_pads_lines :
    (∀ a b, lineBreaks (a ++ b) +
        (if a.getLast? = some '\r' ∧ b.head? = some '\n' then 1 else 0) =
      lineBreaks a + lineBreaks b) ∧
    ∀ before chunk behind : Text, before.getLast? ≠ some '\r' → CleanCut chunk behind →
      (behind ≠ [] ∨ ∃ c ∈ chunk.getLast?, IsTerminator c) →
        lineCount (before ++ chunk ++ behind) =
          lineCount (before ++ List.replicate chunk.lineBreaks '\n' ++ behind) :=
  ⟨lineBreaks_append_add, fun _ _ _ => lineCount_padded⟩

theorem lineBreaks_pads_lines_mixed :
    lineCount (ofString "start x\r\ny\rz\n end") = lineCount (ofString "start \n\n\n end") ∧
      lineCount (ofString "a\nb\r") = lineCount (ofString "a\n\n") := by
  constructor
  · exact lineBreaks_pads_lines.2 (ofString "start ") (ofString "x\r\ny\rz\n") (ofString " end")
      (by decide) (Unbroken.cleanCut_right (by decide) _) (.inl (by decide))
  · exact lineBreaks_pads_lines.2 (ofString "a\n") (ofString "b\r") [] (by decide)
      (cleanCut_nil_right _) (.inr ⟨'\r', rfl, .inr rfl⟩)

end Text
end SourceWindow
