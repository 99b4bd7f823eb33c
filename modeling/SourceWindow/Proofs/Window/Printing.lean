import SourceWindow.Proofs.Window.Rows

set_option autoImplicit false

namespace SourceWindow

namespace LineWindow

def firstLine (first : Int) : Nat := (max first 1).toNat

def lastLine (total : Nat) (last : Int) : Nat := (min (max last 0) total).toNat

theorem lastLine_le (total : Nat) (last : Int) : lastLine total last ≤ total := by
  unfold lastLine
  omega

theorem firstLine_pos (first : Int) : 0 < firstLine first := by
  unfold firstLine
  omega

theorem resolve?_eq (total : Nat) (first last : Int) :
    resolve? total first last =
      if total < firstLine first then none
      else some ⟨firstLine first - 1, lastLine total last, total⟩ := by
  have hstart : (first - 1).toNat = firstLine first - 1 := by
    unfold firstLine
    omega
  have hstop : min last.toNat total = lastLine total last := by
    unfold lastLine
    omega
  have hpos := firstLine_pos first
  simp only [resolve?, hstart, hstop]
  split <;> split <;> first | rfl | omega

end LineWindow

namespace Text

/-- The content of a line, counted from one. -/
def line? (t : Text) (n : Nat) : Option Text := (LineIndex.ofText t)[n - 1]?.bind (·.content? t)

theorem line?_eq (t : Text) (n : Nat) : t.line? n = t.lines[n - 1]? := by
  have h := congrArg (·[n - 1]?) (LineIndex.ofText_contents t)
  simp only [List.getElem?_map] at h
  unfold line?
  cases hc : t.lines[n - 1]? with
  | none =>
    rw [hc, Option.map_none, Option.map_eq_none_iff] at h
    rw [h, Option.bind_none]
  | some content =>
    rw [hc, Option.map_some, Option.map_eq_some_iff] at h
    obtain ⟨l, hl, hcontent⟩ := h
    rw [hl, Option.bind_some, hcontent]

theorem length_decimal_le {m n : Nat} (h : m ≤ n) : (decimal m).length ≤ (decimal n).length := by
  unfold decimal
  have hn := (Nat.length_toDigits_le_iff (n := n) (by decide) Nat.length_toDigits_pos).1
    (Nat.le_refl (Nat.toDigits 10 n).length)
  exact (Nat.length_toDigits_le_iff (by decide) Nat.length_toDigits_pos).2 (by omega)

theorem length_leftpad_decimal {m n : Nat} (h : m ≤ n) :
    ((decimal m).leftpad (decimal n).length ' ').length = (decimal n).length := by
  have hle := length_decimal_le h
  rw [List.length_leftpad]
  omega

theorem drop_row {column content : Text} {width : Nat} (h : column.length = width) :
    (column ++ [' ', '|', ' '] ++ content).drop (width + 3) = content := by
  rw [← h]
  exact List.drop_left' (by simp)

section
variable {t : Text} {a b : Nat}

theorem length_windowRows_lines (hb : b ≤ t.lineCount) :
    (t.windowRows ⟨a - 1, b, t.lineCount⟩).length = b - (a - 1) := by
  have hlines := LineIndex.length_ofText t
  unfold lineCount at hb
  rw [length_windowRows]
  simp only
  omega

theorem getElem?_windowRows_lines (ha : 0 < a) (hb : b ≤ t.lineCount) {k : Nat}
    (hk : k < b - (a - 1)) : ∃ column content,
      (t.windowRows ⟨a - 1, b, t.lineCount⟩)[k]? = some (column ++ [' ', '|', ' '] ++ content) ∧
      column = (decimal (a + k)).leftpad (decimal b).length ' ' ∧
      column.length = (decimal b).length ∧ t.line? (a + k) = some content := by
  have hlines := LineIndex.length_ofText t
  have hindex : a - 1 + k = a + k - 1 := by omega
  have hnumber : a + k - 1 + 1 = a + k := by omega
  have hlt : a + k - 1 < t.lines.length := by
    unfold lineCount at hb
    omega
  have hline := List.getElem?_eq_getElem hlt
  refine ⟨_, t.lines[a + k - 1], ?_, rfl, length_leftpad_decimal (by omega), ?_⟩
  · rw [getElem?_windowRows, if_pos (by simp only; omega)]
    simp only [hindex, hnumber, hline]
    rfl
  · rw [line?_eq, hline]

theorem map_drop_windowRows (ha : 0 < a) (hb : b ≤ t.lineCount) :
    (t.windowRows ⟨a - 1, b, t.lineCount⟩).map (fun row =>
        some (row.drop ((decimal b).length + 3))) =
      (List.range' a (b - (a - 1))).map t.line? := by
  have hlength := length_windowRows_lines (a := a) hb
  refine List.ext_getElem? fun k => ?_
  rw [List.getElem?_map, List.getElem?_map]
  by_cases hk : k < b - (a - 1)
  · obtain ⟨column, content, hrow, -, hwidth, hline⟩ := getElem?_windowRows_lines ha hb hk
    rw [hrow, Option.map_some, drop_row hwidth, List.getElem?_range' hk, Option.map_some,
      Nat.one_mul, hline]
  · rw [List.getElem?_eq_none (by omega), List.getElem?_eq_none (by rw [List.length_range']; omega)]
    rfl

theorem window_of_le {first last : Int} (ha : LineWindow.firstLine first ≤ t.lineCount) :
    t.window first last = join ['\n'] (t.windowRows
      ⟨LineWindow.firstLine first - 1, LineWindow.lastLine t.lineCount last, t.lineCount⟩) := by
  rw [window_eq, LineWindow.resolve?_eq, if_neg (by omega)]

end

theorem splitOn_join_windowRows (t : Text) (w : LineWindow) (h : t.windowRows w ≠ []) :
    (join ['\n'] (t.windowRows w)).splitOn '\n' = t.windowRows w := by
  have hrows := printedRows_window t w
  unfold printedRows at hrows
  split at hrows
  · exact absurd hrows.symm h
  · exact hrows

/-- A window past the end prints the end of file, and one that ends before it begins prints
nothing. Any other prints the lines from its first to its last one, each behind its number: the
output splits into one piece for each of them. -/
theorem window_prints_lines (t : Text) (first last : Int) :
    let a := LineWindow.firstLine first
    let b := LineWindow.lastLine t.lineCount last
    let width := (decimal b).length
    let pieces := (t.window first last).splitOn '\n'
    (t.lineCount < a → t.window first last = endOfFileMessage t.lineCount) ∧
    (a ≤ t.lineCount → b < a → t.window first last = []) ∧
    (a ≤ t.lineCount → a ≤ b →
      pieces.length = b - a + 1 ∧
      (∀ k < b - a + 1, ∃ column content,
        pieces[k]? = some (column ++ [' ', '|', ' '] ++ content) ∧
        column = (decimal (a + k)).leftpad width ' ' ∧ column.length = width ∧
        t.line? (a + k) = some content) ∧
      pieces.map (fun piece => some (piece.drop (width + 3))) =
        (List.range' a (b - a + 1)).map t.line?) := by
  intro a b width pieces
  have hpos : 0 < a := LineWindow.firstLine_pos first
  have hb : b ≤ t.lineCount := LineWindow.lastLine_le t.lineCount last
  have hlength := length_windowRows_lines (a := a) hb
  refine ⟨fun hpast => ?_, fun ha hempty => ?_, fun ha hab => ?_⟩
  · rw [window_eq, LineWindow.resolve?_eq, if_pos hpast]
  · have hrows : t.windowRows ⟨a - 1, b, t.lineCount⟩ = [] :=
      List.length_eq_zero_iff.1 (by omega)
    rw [window_of_le ha]
    exact congrArg (join ['\n']) hrows
  · have hcount : b - (a - 1) = b - a + 1 := by omega
    have hpieces : pieces = t.windowRows ⟨a - 1, b, t.lineCount⟩ := by
      have hne : t.windowRows ⟨a - 1, b, t.lineCount⟩ ≠ [] := List.length_pos_iff.1 (by omega)
      simp only [pieces, window_of_le ha]
      exact splitOn_join_windowRows t _ hne
    rw [hpieces]
    refine ⟨hlength.trans hcount, fun k hk => ?_, ?_⟩
    · exact getElem?_windowRows_lines hpos hb (hcount ▸ hk)
    · rw [← hcount]
      exact map_drop_windowRows hpos hb

theorem window_prints_lines_ten :
    let t := ofString "a\nb\nc\nd\ne\nf\ng\nh\ni\nj"
    t.window 11 20 = endOfFileMessage 10 ∧ t.window 5 2 = [] ∧
      ((t.window 9 99).splitOn '\n').length = 2 ∧
      ((t.window 9 99).splitOn '\n').map (fun piece => some (piece.drop 5)) =
        [some ['i'], some ['j']] := by
  intro t
  have hcount : t.lineCount = 10 := by decide +kernel
  have hpast := (window_prints_lines t 11 20).1 (by rw [hcount]; decide)
  have hempty := (window_prints_lines t 5 2).2.1 (by rw [hcount]; decide) (by rw [hcount]; decide)
  obtain ⟨hlength, -, hlines⟩ :=
    (window_prints_lines t 9 99).2.2 (by rw [hcount]; decide) (by rw [hcount]; decide)
  have hlast : LineWindow.lastLine t.lineCount 99 = 10 := by rw [hcount]; rfl
  rw [hlast] at hlength hlines
  refine ⟨hcount ▸ hpast, hempty, hlength, hlines.trans ?_⟩
  decide +kernel

end Text
end SourceWindow
