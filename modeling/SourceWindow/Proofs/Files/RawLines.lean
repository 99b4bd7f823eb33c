import SourceWindow.Proofs.Text.Decoding
import SourceWindow.Proofs.Window.Printing
import SourceWindow.Renderer

/-!
The lines of a file. Its bytes are split at the bytes of the terminators before anything is decoded,
and each line is decoded by itself. This gives the lines of the decoded file: no sequence that is
not UTF-8 takes a terminator with it, and none is read as a terminator.
-/

set_option autoImplicit false

namespace SourceWindow
open Text Utf8

def rawLinesFrom (line : List UInt8) : List UInt8 → List (List UInt8)
  | [] => if line = [] then [] else [line]
  | 0x0A :: bytes => line :: rawLinesFrom [] bytes
  | 0x0D :: 0x0A :: bytes => line :: rawLinesFrom [] bytes
  | 0x0D :: bytes => line :: rawLinesFrom [] bytes
  | b :: bytes => rawLinesFrom (line ++ [b]) bytes

def rawLines (bytes : List UInt8) : List (List UInt8) := rawLinesFrom [] bytes

namespace Utf8

theorem decode_lineFeed (rest : List UInt8) : decode (0x0A :: rest) = '\n' :: decode rest :=
  decode_ascii_cons (c := '\n') (by decide) rest

theorem decode_carriageReturn (rest : List UInt8) : decode (0x0D :: rest) = '\r' :: decode rest :=
  decode_ascii_cons (c := '\r') (by decide) rest

theorem decode_eq_nil_iff {bytes : List UInt8} : decode bytes = [] ↔ bytes = [] := by
  cases bytes <;> simp [decode_cons, decode]

theorem unbroken_decode {bytes : List UInt8} (h : ∀ b ∈ bytes, b ≠ 0x0A ∧ b ≠ 0x0D) :
    Unbroken (decode bytes) := by
  rintro c hc (rfl | rfl)
  · exact (h _ (mem_of_mem_decode_ascii (by decide) hc)).1 rfl
  · exact (h _ (mem_of_mem_decode_ascii (by decide) hc)).2 rfl

theorem head?_decode_ne {bytes : List UInt8} (h : ∀ rest, bytes ≠ 0x0A :: rest) :
    (decode bytes).head? ≠ some '\n' := by
  cases bytes with
  | nil => simp [decode]
  | cons b bytes =>
    rw [decode_cons, List.head?_cons]
    intro hc
    have hc : (next b bytes).1 = '\n' := Option.some.inj hc
    have hascii : (next b bytes).1.toNat ≤ 0x7F := by
      rw [hc]
      decide
    have hlead := lead_of_next_ascii hascii
    rw [hc] at hlead
    exact h bytes (by rw [hlead]; rfl)

theorem lines_decode_lineEnd {line raw rest : List UInt8} {e : Text}
    (hline : ∀ b ∈ line, b ≠ 0x0A ∧ b ≠ 0x0D) (hraw : StartsFresh raw)
    (hdecode : decode raw = e ++ decode rest) (he : LineEnd e (decode rest)) :
    lines (decode (line ++ raw)) = decode line :: lines (decode rest) := by
  rw [decode_append line hraw, hdecode]
  exact lines_unbroken_append (unbroken_decode hline) he

/-- The lines of decoded bytes are the lines of the bytes, decoded one by one. -/
theorem lines_decode {line : List UInt8} (hline : ∀ b ∈ line, b ≠ 0x0A ∧ b ≠ 0x0D)
    (bytes : List UInt8) :
    lines (decode (line ++ bytes)) = (rawLinesFrom line bytes).map decode := by
  have hempty : ∀ b ∈ ([] : List UInt8), b ≠ 0x0A ∧ b ≠ 0x0D := by simp
  have hfeed (rest : List UInt8) : StartsFresh (0x0A :: rest) :=
    startsFresh_ascii_cons (c := '\n') (by decide) rest
  have hreturn (rest : List UInt8) : StartsFresh (0x0D :: rest) :=
    startsFresh_ascii_cons (c := '\r') (by decide) rest
  fun_induction rawLinesFrom line bytes with
  | case1 => simp [lines_unbroken, decode]
  | case2 line hne =>
    have hne' : decode line ≠ [] := mt decode_eq_nil_iff.1 hne
    simp [lines_unbroken (unbroken_decode hline), hne']
  | case3 line bytes ih =>
    rw [lines_decode_lineEnd hline (hfeed bytes) (decode_lineFeed bytes) (.lineFeed _),
      List.map_cons, ← ih hempty, List.nil_append]
  | case4 line bytes ih =>
    have hdecode : decode (0x0D :: 0x0A :: bytes) = ['\r', '\n'] ++ decode bytes := by
      rw [decode_carriageReturn, decode_lineFeed]
      rfl
    rw [lines_decode_lineEnd hline (hreturn _) hdecode (.pair _), List.map_cons, ← ih hempty,
      List.nil_append]
  | case5 line bytes hnext ih =>
    rw [lines_decode_lineEnd hline (hreturn bytes) (decode_carriageReturn bytes)
      (.carriageReturn (head?_decode_ne hnext)), List.map_cons, ← ih hempty, List.nil_append]
  | case6 line b bytes hn _ hr ih =>
    have hb : ∀ d ∈ line ++ [b], d ≠ 0x0A ∧ d ≠ 0x0D := by
      simpa [or_imp, forall_and] using ⟨⟨fun d hd => (hline d hd).1, hn⟩,
        fun d hd => (hline d hd).2, hr⟩
    rw [← ih hb, List.append_assoc]
    rfl

end Utf8

theorem Entry.read_of_lookup {root : Entry} {path : Text} {limit : Option Nat} {bytes : List UInt8}
    (hfile : root.lookup path = .ok (.file bytes)) (hlimit : ∀ n ∈ limit, bytes.length ≤ n) :
    root.read path limit = .ok bytes := by
  cases limit with
  | none => simp [read, hfile, bind, Except.bind, pure, Except.pure]
  | some n =>
    have hsize : ¬ n < (Entry.file bytes).size := Nat.not_lt.2 (hlimit n rfl)
    simp [read, hfile, hsize, bind, Except.bind, pure, Except.pure]

/-- Decoding moves no line. The text read from a file has the lines of its bytes, each decoded by
itself, and a window shows them under the numbers that they have in the file. -/
theorem readSource_keeps_lines {root : Entry} {path : Text} {limit : Option Nat}
    {bytes : List UInt8} (hfile : root.lookup path = .ok (.file bytes))
    (hlimit : ∀ n ∈ limit, bytes.length ≤ n) :
    ∃ t, readSource root path limit = .ok t ∧
      t.lineCount = (rawLines bytes).length ∧
      (∀ i, t.line? (i + 1) = (rawLines bytes)[i]?.map decode) ∧
      ∀ first last, t.window first last =
        match LineWindow.resolve? (rawLines bytes).length first last with
        | none => endOfFileMessage (rawLines bytes).length
        | some w => join ['\n'] <|
          ((((rawLines bytes).take w.stop).drop w.start).zipIdx w.start).map fun (line, i) =>
            numbered (i + 1) w.numberWidth (decode line) := by
  have hempty : ∀ b ∈ ([] : List UInt8), b ≠ 0x0A ∧ b ≠ 0x0D := by simp
  have hlines : lines (decode bytes) = (rawLines bytes).map decode := lines_decode hempty bytes
  have hcount : lineCount (decode bytes) = (rawLines bytes).length := by
    rw [lineCount, LineIndex.length_ofText, hlines, List.length_map]
  refine ⟨decode bytes, ?_, hcount, fun i => ?_, fun first last => ?_⟩
  · rw [readSource, Entry.read_of_lookup hfile hlimit]
    rfl
  · rw [line?_eq, Nat.add_sub_cancel, hlines, List.getElem?_map]
  · rw [window_eq, hcount]
    cases LineWindow.resolve? (rawLines bytes).length first last with
    | none => rfl
    | some w =>
      simp only [windowRows, hlines]
      rw [← List.map_take, ← List.map_drop, List.zipIdx_map, List.map_map]
      rfl

theorem readSource_keeps_lines_cut_short :
    let bytes : List UInt8 := [0x61, 0xE2, 0x82, 0x0D, 0x0A, 0x80, 0x0A, 0x62]
    let root : Entry := .directory [(ofString "notes", .file bytes)]
    ∃ t, readSource root (ofString "notes") (some 8) = .ok t ∧ t.lineCount = 3 ∧
      t.window 2 2 = ofString "2 | \uFFFD" := by
  intro bytes root
  have hfile : root.lookup (ofString "notes") = .ok (.file bytes) := rfl
  have hlimit : ∀ n ∈ some 8, bytes.length ≤ n := by decide
  obtain ⟨t, ht, hcount, -, hwindow⟩ := readSource_keeps_lines hfile hlimit
  refine ⟨t, ht, hcount, (hwindow 2 2).trans ?_⟩
  decide +kernel

end SourceWindow
