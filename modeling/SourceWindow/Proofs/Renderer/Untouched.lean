import SourceWindow.Proofs.Truncation.Untouched
import SourceWindow.Proofs.Window.Rows
import SourceWindow.Renderer

set_option autoImplicit false

namespace SourceWindow
open Text

/-- Two outputs have as many rows, from line `start` on and numbered alike, and the rows of lines
that are not touched are the same. -/
structure AgreeOutside (touched : Nat → Prop) (start : Nat) (output output' : Text) : Prop where
  length_eq : (printedRows output).length = (printedRows output').length
  rows : ∃ width, ∀ k < (printedRows output).length, ∃ content content',
    (printedRows output)[k]? = some (numbered (start + k + 1) width content) ∧
    (printedRows output')[k]? = some (numbered (start + k + 1) width content') ∧
    (¬ touched (start + k) → content = content')

theorem Text.windowRows_agreeOutside {t t' : Text} {touched : Nat → Prop} (w : LineWindow)
    (hcount : t'.lines.length = t.lines.length)
    (hsame : ∀ i, ¬ touched i → t'.lines[i]? = t.lines[i]?) :
    AgreeOutside touched w.start
      (join ['\n'] (t'.windowRows w)) (join ['\n'] (t.windowRows w)) := by
  constructor
  · rw [printedRows_window, printedRows_window, length_windowRows, length_windowRows, hcount]
  · refine ⟨w.numberWidth, fun k hk => ?_⟩
    rw [printedRows_window, length_windowRows] at hk
    have hstop : w.start + k < w.stop := by omega
    have hi' : w.start + k < t'.lines.length := by omega
    have hi : w.start + k < t.lines.length := by omega
    refine ⟨t'.lines[w.start + k], t.lines[w.start + k], ?_, ?_, fun hout => ?_⟩
    · rw [printedRows_window, getElem?_windowRows, if_pos hstop, List.getElem?_eq_getElem hi']
      rfl
    · rw [printedRows_window, getElem?_windowRows, if_pos hstop, List.getElem?_eq_getElem hi]
      rfl
    · have h := hsame _ hout
      rwa [List.getElem?_eq_getElem hi', List.getElem?_eq_getElem hi, Option.some.injEq] at h

theorem Text.window_agreeOutside {t t' : Text} {touched : Nat → Prop} (first last : Int)
    (hcount : t'.lineCount = t.lineCount)
    (hsame : ∀ i, ¬ touched i → t'.lines[i]? = t.lines[i]?) :
    t'.window first last = endOfFileMessage t.lineCount ∧
        t.window first last = endOfFileMessage t.lineCount ∨
      AgreeOutside touched (first - 1).toNat (t'.window first last) (t.window first last) := by
  have hlength : t'.lines.length = t.lines.length := by
    rwa [← LineIndex.length_ofText, ← LineIndex.length_ofText]
  rw [window_eq, window_eq, hcount]
  cases hw : LineWindow.resolve? t.lineCount first last with
  | none => exact .inl ⟨rfl, rfl⟩
  | some w =>
    obtain ⟨-, rfl⟩ := LineWindow.resolve?_eq_some_iff.1 hw
    exact .inr (windowRows_agreeOutside ⟨_, _, _⟩ hlength hsame)

namespace Renderer

variable {σ : Type} {r : Renderer σ} {source : LiteralSource σ} {state : σ} {t : Text}
  {spans : List LiteralSpan}

theorem render_of_scan (hsource : r.capability = .available source state)
    (hlimit : r.limit ≠ .disabled) (hscan : (source.scan state t).1 = .ok spans)
    (first last : Int) :
    (r.render t first last).1 = (truncateLiterals t spans r.limit).text.window first last := by
  unfold render truncate
  rw [if_neg hlimit, hsource]
  simp only [hscan]

theorem render_of_disabled (hlimit : r.limit = .disabled) (t : Text) (first last : Int) :
    (r.render t first last).1 = t.window first last := by
  unfold render truncate
  rw [if_pos hlimit]
  rfl

/-- Outside the lines that truncated literals cover, rendering is the same as with truncation
disabled, as long as no truncated literal ends in a terminator. -/
theorem render_agreeOutside (hsource : r.capability = .available source state)
    (hlimit : r.limit ≠ .disabled) (hscan : (source.scan state t).1 = .ok spans)
    (first last : Int) :
    ∃ report, truncate? t spans r.limit = some report ∧ (report.EndsWithinLines t →
      (r.render t first last).1 = endOfFileMessage t.lineCount ∧
          ({ r with limit := .disabled }.render t first last).1 = endOfFileMessage t.lineCount ∨
        AgreeOutside (fun i => ∃ l ∈ report.literals, l.Covers t i) (first - 1).toNat
          (r.render t first last).1 ({ r with limit := .disabled }.render t first last).1) := by
  obtain ⟨report, hreport, huntouched⟩ := exists_untouched t spans r.limit
  refine ⟨report, hreport, fun hends => ?_⟩
  obtain ⟨hcount, hsame⟩ := huntouched hends
  have htext : (truncateLiterals t spans r.limit).text = report.text := by
    rw [truncateLiterals, hreport]
    rfl
  rw [render_of_scan hsource hlimit hscan, render_of_disabled rfl, htext]
  exact window_agreeOutside first last hcount fun i hout => hsame i fun l hl hcov =>
    hout ⟨l, hl, hcov⟩

theorem render_agreeOutside_second_line :
    let t := ofString "a = [\n\"bbbb\"\n]"
    let source : LiteralSource Unit := ⟨fun _ _ => (.ok [⟨6, 12, .string⟩], ())⟩
    let r : Renderer Unit := ⟨.available source (), .maxBytes 3⟩
    ∃ report, truncate? t [⟨6, 12, .string⟩] r.limit = some report ∧ report.literals.length = 1 ∧
      AgreeOutside (fun i => ∃ l ∈ report.literals, l.Covers t i) 0
        (r.render t 1 9).1 ({ r with limit := .disabled }.render t 1 9).1 := by
  dsimp only
  obtain ⟨report, hreport, hagree⟩ :=
    render_agreeOutside (t := ofString "a = [\n\"bbbb\"\n]")
      (r := ⟨.available ⟨fun _ _ => (.ok [⟨6, 12, .string⟩], ())⟩ (), .maxBytes 3⟩)
      rfl (by decide) rfl 1 9
  have hliterals : report.literals = [⟨2, 6, 6, 0, .string⟩] := by
    have hrun : (truncate? (ofString "a = [\n\"bbbb\"\n]") [⟨6, 12, .string⟩] (.maxBytes 3)).map
        (·.literals) = some [⟨2, 6, 6, 0, .string⟩] := by decide +kernel
    rw [hreport] at hrun
    exact Option.some.inj hrun
  refine ⟨report, hreport, by rw [hliterals]; rfl, ?_⟩
  refine (hagree ?_).resolve_left ?_
  · unfold Truncation.EndsWithinLines
    rw [hliterals]
    decide +kernel
  · decide +kernel

end Renderer
end SourceWindow
