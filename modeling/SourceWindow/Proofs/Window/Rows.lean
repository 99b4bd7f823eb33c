import SourceWindow.Proofs.Lines.Contents
import SourceWindow.Window

set_option autoImplicit false

namespace SourceWindow

theorem LineWindow.resolve?_eq_some_iff {total : Nat} {first last : Int} {w : LineWindow} :
    resolve? total first last = some w ↔
      (first - 1).toNat < total ∧ w = ⟨(first - 1).toNat, min last.toNat total, total⟩ := by
  simp only [resolve?]
  split
  · simp only [reduceCtorEq, false_iff]
    omega
  · rw [Option.some.injEq, eq_comm, iff_and_self]
    omega

namespace Text

def windowRows (t : Text) (w : LineWindow) : List Text :=
  ((t.lines.take w.stop).drop w.start).zipIdx w.start |>.map fun (line, i) =>
    numbered (i + 1) w.numberWidth line

theorem length_windowRows (t : Text) (w : LineWindow) :
    (t.windowRows w).length = min w.stop t.lines.length - w.start := by
  simp [windowRows]

theorem getElem?_windowRows (t : Text) (w : LineWindow) (k : Nat) :
    (t.windowRows w)[k]? =
      if w.start + k < w.stop then
        t.lines[w.start + k]?.map (numbered (w.start + k + 1) w.numberWidth)
      else none := by
  unfold windowRows
  rw [List.getElem?_map, List.getElem?_zipIdx, List.getElem?_drop, List.getElem?_take]
  split
  · cases t.lines[w.start + k]? <;> rfl
  · rfl

theorem window_eq (t : Text) (first last : Int) :
    t.window first last = match LineWindow.resolve? t.lineCount first last with
      | none => endOfFileMessage t.lineCount
      | some w => join ['\n'] (t.windowRows w) := by
  have hlines : (LineIndex.ofText t).map (fun l => (l.content? t).getD []) = t.lines := by
    have h := congrArg (List.map (·.getD [])) (LineIndex.ofText_contents t)
    simpa [List.map_map, Function.comp_def] using h
  simp only [window, lineCount]
  cases LineWindow.resolve? (LineIndex.ofText t).length first last with
  | none => rfl
  | some w =>
    simp only [windowRows]
    rw [← hlines, ← List.map_take, ← List.map_drop, List.zipIdx_map, List.map_map]
    rfl

/-- The rows of an output. An empty output has none. -/
def printedRows (output : Text) : List Text := if output = [] then [] else output.splitOn '\n'

theorem printedRows_join {rows : List Text} (hne : ∀ row ∈ rows, row ≠ [])
    (hrow : ∀ row ∈ rows, '\n' ∉ row) : printedRows (join ['\n'] rows) = rows := by
  cases rows with
  | nil => rfl
  | cons row rows =>
    have hjoin : join ['\n'] (row :: rows) ≠ [] := by
      have hfirst := hne row List.mem_cons_self
      cases rows <;> simp [join, List.intercalate, hfirst]
    rw [printedRows, if_neg hjoin]
    exact List.splitOn_intercalate '\n' hrow (List.cons_ne_nil row rows)

theorem numbered_ne_nil (number width : Nat) (content : Text) :
    numbered number width content ≠ [] := by
  simp [numbered]

theorem lineFeed_not_mem_numbered {content : Text} (h : Unbroken content) (number width : Nat) :
    '\n' ∉ numbered number width content := by
  have hdigits : '\n' ∉ decimal number := fun hn => unbroken_decimal number _ hn (.inl rfl)
  have hcontent : '\n' ∉ content := fun hn => h _ hn (.inl rfl)
  simp [numbered, hdigits, hcontent, List.mem_replicate]

theorem printedRows_window (t : Text) (w : LineWindow) :
    printedRows (join ['\n'] (t.windowRows w)) = t.windowRows w := by
  have hmem {row : Text} (h : row ∈ t.windowRows w) :
      ∃ n, ∃ line ∈ t.lines, row = numbered n w.numberWidth line := by
    obtain ⟨⟨line, i⟩, hline, rfl⟩ := List.mem_map.1 h
    have hshown := List.mem_of_mem_drop (List.fst_mem_of_mem_zipIdx hline)
    exact ⟨i + 1, line, List.mem_of_mem_take hshown, rfl⟩
  apply printedRows_join
  · intro row h
    obtain ⟨n, line, -, rfl⟩ := hmem h
    exact numbered_ne_nil n w.numberWidth line
  · intro row h
    obtain ⟨n, line, hline, rfl⟩ := hmem h
    exact lineFeed_not_mem_numbered (unbroken_of_mem_lines hline) n w.numberWidth

end Text
end SourceWindow
