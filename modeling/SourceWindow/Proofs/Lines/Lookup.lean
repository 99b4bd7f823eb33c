import SourceWindow.Proofs.Lines.Offsets
import SourceWindow.Proofs.Lines.Splitting

set_option autoImplicit false

namespace SourceWindow
open Text

namespace LineIndex

/-- The line begins at the offset or before it, and behind the offset stands the beginning of the
next line or, if there is none, the end of a text of `size` bytes. -/
def Holds (index : LineIndex) (size i offset : Nat) : Prop :=
  (∃ l, index[i]? = some l ∧ l.start ≤ offset) ∧ offset < (index[i + 1]?).elim size (·.start)

theorem length_begun_eq_iff {index : LineIndex} {offset i : Nat}
    (h : index.Pairwise fun l k => l.start < k.start) :
    (index.begun offset).length = i + 1 ↔
      (∃ l, index[i]? = some l ∧ l.start ≤ offset) ∧
        ∀ l, index[i + 1]? = some l → offset < l.start := by
  induction index generalizing i with
  | nil => simp [begun]
  | cons k index ih =>
    obtain ⟨hk, h⟩ := List.pairwise_cons.1 h
    by_cases hle : k.start ≤ offset
    · rw [begun_cons hle, List.length_cons]
      cases i with
      | zero =>
        cases index with
        | nil => simp [begun, hle]
        | cons l index =>
          by_cases hl : l.start ≤ offset
          · simp [begun_cons hl, hl]
          · simp [begun_cons_of_lt (Nat.lt_of_not_le hl), hle, Nat.lt_of_not_le hl]
      | succ i => simp [ih h]
    · -- No later line has begun where the first has not.
      rw [begun_cons_of_lt (Nat.lt_of_not_le hle)]
      constructor
      · intro h
        cases h
      · intro hbegun
        obtain ⟨⟨l, hl, hstart⟩, -⟩ := hbegun
        rcases List.mem_cons.1 (List.mem_of_getElem? hl) with rfl | hmem
        · exact absurd hstart hle
        · have hlt := hk l hmem
          omega

theorem ofText_starts_lt (t : Text) : (ofText t).Pairwise fun l k => l.start < k.start := by
  obtain ⟨pieces, h, rfl⟩ := LinePiece.exists_wellSplit t
  rw [h.ofText_join.1]
  exact LinePiece.layout_starts_lt (fun p hp => h.text_ne_nil hp) 0

theorem ofText_eq_nil_iff {t : Text} : ofText t = [] ↔ t = [] := by
  constructor
  · intro h
    by_cases ht : t = []
    · exact ht
    · obtain ⟨stop, index, hi⟩ := scan_eq_cons (Nat.le_refl 0) ht
      rw [ofText, hi] at h
      cases h
  · intro h
    rw [h]
    rfl

variable {t : Text} {offset i : Nat}

theorem content?_of_mem {l : Line} (h : l ∈ ofText t) :
    ∃ line, l.content? t = some line ∧ Unbroken line := by
  have hmem : l.content? t ∈ t.lines.map some := by
    rw [← ofText_contents]
    exact List.mem_map_of_mem h
  obtain ⟨line, hline, hcontent⟩ := List.mem_map.1 hmem
  exact ⟨line, hcontent.symm, unbroken_of_mem_lines hline⟩

theorem start_le_size {l : Line} (h : l ∈ ofText t) : l.start ≤ t.size := by
  obtain ⟨line, hcontent, -⟩ := content?_of_mem h
  obtain ⟨a, b, rfl, hstart, -⟩ := slice?_eq_some_iff.1 hcontent
  simp only [size_append]
  omega

theorem stop_le_of_isTerminator {l : Line} {a b : Text} {c : Char}
    (h : l ∈ ofText (a ++ c :: b)) (hc : IsTerminator c) (hstart : l.start ≤ a.size) :
    l.stop ≤ a.size := by
  obtain ⟨line, hcontent, hline⟩ := content?_of_mem h
  obtain ⟨x, y, hcut, hx, hstop⟩ := slice?_eq_some_iff.1 hcontent
  by_cases hle : l.stop ≤ a.size
  · exact hle
  · -- Otherwise the terminator is a character of the line.
    obtain ⟨k, rfl, hk⟩ : ∃ k, a = x ++ k ∧ line ++ y = k ++ c :: b := by
      refine exists_append_of_size_le ?_ (by omega)
      rw [hcut, List.append_assoc]
    have hlt : k.size < line.size := by
      simp only [size_append] at hstop hle
      omega
    rcases size_le_or_of_append_eq hk.symm with hsize | hsize
    · omega
    · have hkc : k ++ [c] ++ b = line ++ y := by simp [hk]
      obtain ⟨z, rfl, -⟩ := exists_append_of_size_le hkc (by simpa using hsize)
      exact absurd hc (hline c (by simp))

theorem lineAt?_iff_last (ht : t ≠ []) :
    (ofText t).lineAt? offset = some i ↔
      (∃ l, (ofText t)[i]? = some l ∧ l.start ≤ offset) ∧
        ∀ l, (ofText t)[i + 1]? = some l → offset < l.start := by
  rw [lineAt?_eq_some_iff ht, length_begun_eq_iff (ofText_starts_lt t)]

theorem lineAt?_eq_none_iff : (ofText t).lineAt? offset = none ↔ t = [] := by
  rw [← ofText_eq_nil_iff, lineAt?]
  simp

theorem lineAt?_iff_holds (h : offset < t.size) :
    (ofText t).lineAt? offset = some i ↔ (ofText t).Holds t.size i offset := by
  have ht : t ≠ [] := by
    rintro rfl
    simp at h
  rw [lineAt?_iff_last ht, Holds]
  cases (ofText t)[i + 1]? <;> simp [h]

theorem lineAt?_of_append {begun later : LineIndex} (h : ofText t = begun ++ later)
    (hne : begun ≠ []) (hbegun : ∀ l ∈ begun, l.start ≤ offset)
    (hlater : ∀ l ∈ later.head?, offset < l.start) :
    (ofText t).lineAt? offset = some (begun.length - 1) := by
  have hbehind : later.takeWhile (·.start ≤ offset) = [] := by
    cases later with
    | nil => rfl
    | cons l later => simp [hlater l rfl]
  have htake : (begun ++ later).takeWhile (·.start ≤ offset) = begun := by
    rw [List.takeWhile_append_of_pos (by simpa using hbegun), hbehind, List.append_nil]
  rw [lineAt?, h, htake, if_neg (by simp [hne])]

theorem lineAt?_of_size_le (ht : t ≠ []) (h : t.size ≤ offset) :
    (ofText t).lineAt? offset = some ((ofText t).length - 1) := by
  refine lineAt?_of_append (List.append_nil _).symm (mt ofText_eq_nil_iff.1 ht) ?_ (by simp)
  intro l hl
  exact Nat.le_trans (start_le_size hl) h

end LineIndex

open LineIndex

/-- No line is found in the empty text only, and behind any other text it is the last. Inside a text
it is the one line that holds the offset, and for a terminator it is the line that this ends. Where
the text can be cut without parting a carriage return from its line feed, the number of the line is
the number of line breaks before. -/
theorem LineIndex.lineAt?_finds_line (t : Text) (offset : Nat) :
    ((ofText t).lineAt? offset = none ↔ t = []) ∧
      (t ≠ [] → t.size ≤ offset → (ofText t).lineAt? offset = some ((ofText t).length - 1)) ∧
      (offset < t.size → ∃ i, (ofText t).lineAt? offset = some i ∧
        ∀ j, (ofText t).Holds t.size j offset ↔ j = i) ∧
      (∀ a c b, t.splitAt? offset = some (a, c :: b) → IsTerminator c →
        ∃ i l, (ofText t).lineAt? offset = some i ∧ (ofText t)[i]? = some l ∧ l.stop ≤ offset) ∧
      ∀ a b, t.splitAt? offset = some (a, b) → b ≠ [] → CleanCut a b →
        (ofText t).lineAt? offset = some a.lineBreaks := by
  refine ⟨lineAt?_eq_none_iff, lineAt?_of_size_le, fun hlt => ?_, fun a c b hcut hc => ?_,
    fun a b hcut hb hclean => ?_⟩
  · have hsome : (ofText t).lineAt? offset ≠ none := by
      intro hnone
      rw [lineAt?_eq_none_iff.1 hnone] at hlt
      simp at hlt
    obtain ⟨i, hi⟩ := Option.ne_none_iff_exists'.1 hsome
    refine ⟨i, hi, fun j => ?_⟩
    rw [← lineAt?_iff_holds hlt, hi, Option.some.injEq, eq_comm]
  · obtain ⟨rfl, rfl⟩ := splitAt?_eq_some_iff.1 hcut
    have hpos := c.utf8Size_pos
    obtain ⟨i, hi, -⟩ := lineAt?_ofText (b := b) (c := c) (Nat.le_refl a.size) (by omega)
    obtain ⟨⟨l, hl, hstart⟩, -⟩ := (lineAt?_iff_last (by simp)).1 hi
    exact ⟨i, l, hi, hl, stop_le_of_isTerminator (List.mem_of_getElem? hl) hc hstart⟩
  · obtain ⟨rfl, rfl⟩ := splitAt?_eq_some_iff.1 hcut
    have hfound := lineAt?_of_cleanCut (b := []) hb hclean
    rwa [List.append_nil] at hfound

theorem LineIndex.lineAt?_finds_line_pair :
    let index := ofText (ofString "a\r\né")
    index.lineAt? 2 = some 0 ∧ index.lineAt? 4 = some 1 := by
  constructor
  · obtain ⟨-, -, hinside, -, -⟩ := lineAt?_finds_line (ofString "a\r\né") 2
    obtain ⟨i, hi, honly⟩ := hinside (by decide)
    rw [hi, ← (honly 0).1 ⟨⟨⟨0, 1⟩, rfl, by decide⟩, by decide⟩]
  · obtain ⟨-, -, hinside, -, -⟩ := lineAt?_finds_line (ofString "a\r\né") 4
    obtain ⟨i, hi, honly⟩ := hinside (by decide)
    rw [hi, ← (honly 1).1 ⟨⟨⟨3, 5⟩, rfl, by decide⟩, by decide⟩]

end SourceWindow
