import SourceWindow.Proofs.Lines.Terminators
import SourceWindow.Proofs.Text.Cuts

/-!
Lines with what ends them. A text comes apart into lines and their terminators in one way, and the
index finds this way: read with the gaps between its lines it gives the whole text back, and on lines
put together it has just these.
-/

set_option autoImplicit false

namespace SourceWindow

structure LinePiece where
  content : Text
  ending : Text
  deriving DecidableEq, Repr

namespace LinePiece
open Text

def text (p : LinePiece) : Text := p.content ++ p.ending

def join (pieces : List LinePiece) : Text := pieces.flatMap text

def lineEndings : List Text := [['\n'], ['\r', '\n'], ['\r']]

/-- Each piece is the content of a line and a terminator, which only the last may lack if it has
content. A carriage return that ends a piece is not followed by a line feed. -/
inductive WellSplit : List LinePiece → Prop where
  | nil : WellSplit []
  | unended {content : Text} : Unbroken content → content ≠ [] → WellSplit [⟨content, []⟩]
  | ended {content ending : Text} {pieces : List LinePiece} :
      Unbroken content → ending ∈ lineEndings →
      (ending = ['\r'] → pieces.head? ≠ some ⟨[], ['\n']⟩) → WellSplit pieces →
      WellSplit (⟨content, ending⟩ :: pieces)

def layout (here : Nat) : List LinePiece → LineIndex
  | [] => []
  | p :: pieces => ⟨here, here + p.content.size⟩ :: layout (here + p.text.size) pieces

@[simp] theorem join_nil : join [] = [] := rfl

@[simp] theorem join_cons (p : LinePiece) (pieces : List LinePiece) :
    join (p :: pieces) = p.text ++ join pieces := rfl

theorem lineEnd_iff {e t : Text} :
    LineEnd e t ↔ e ∈ lineEndings ∧ (e = ['\r'] → t.head? ≠ some '\n') := by
  simp only [lineEndings, List.mem_cons, List.not_mem_nil, or_false]
  constructor
  · intro h
    cases h with
    | lineFeed => simp
    | pair => simp
    | carriageReturn h => simpa using h
  · rintro ⟨rfl | rfl | rfl, hfollow⟩
    · exact .lineFeed t
    · exact .pair t
    · exact .carriageReturn (hfollow rfl)

theorem WellSplit.head?_join {pieces : List LinePiece} (h : WellSplit pieces) :
    (join pieces).head? = some '\n' ↔ pieces.head? = some ⟨[], ['\n']⟩ := by
  cases h with
  | nil => simp
  | @unended content hcontent hne =>
    cases content with
    | nil => exact absurd rfl hne
    | cons c content =>
      have hc : c ≠ '\n' := fun hc => hcontent c List.mem_cons_self (.inl hc)
      simp [text, hc]
  | @ended content ending pieces hcontent hending hfollow h =>
    cases content with
    | nil =>
      simp only [lineEndings, List.mem_cons, List.not_mem_nil, or_false] at hending
      rcases hending with rfl | rfl | rfl <;> simp [text]
    | cons c content =>
      have hc : c ≠ '\n' := fun hc => hcontent c List.mem_cons_self (.inl hc)
      simp [text, hc]

theorem WellSplit.text_ne_nil {pieces : List LinePiece} (h : WellSplit pieces) {p : LinePiece}
    (hp : p ∈ pieces) : p.text ≠ [] := by
  induction h with
  | nil => cases hp
  | unended hcontent hne =>
    obtain rfl := List.mem_singleton.1 hp
    simpa [text] using hne
  | @ended content ending pieces hcontent hending hfollow h ih =>
    rcases List.mem_cons.1 hp with rfl | hp
    · rintro hnil
      obtain ⟨-, rfl⟩ := List.append_eq_nil_iff.1 hnil
      simp [lineEndings] at hending
    · exact ih hp

theorem WellSplit.scan_join {pieces : List LinePiece} (h : WellSplit pieces) (here : Nat) :
    LineIndex.scan here here (join pieces) = layout here pieces := by
  induction h generalizing here with
  | nil => simp [LineIndex.scan, layout]
  | @unended content hcontent hne =>
    have hpos := size_pos hne
    have hscan := LineIndex.scan_unbroken here here hcontent []
    rw [LineIndex.scan, if_pos (by omega)] at hscan
    simpa [text, layout] using hscan
  | @ended content ending pieces hcontent hending hfollow h ih =>
    have hend : LineEnd ending (join pieces) :=
      lineEnd_iff.2 ⟨hending, fun he => mt h.head?_join.1 (hfollow he)⟩
    rw [join_cons, text, List.append_assoc, LineIndex.scan_unbroken _ _ hcontent,
      LineIndex.scan_lineEnd _ _ hend, ih, layout, text, size_append, Nat.add_assoc]

theorem start_le_of_mem_layout {here : Nat} {pieces : List LinePiece} {l : Line}
    (h : l ∈ layout here pieces) : here ≤ l.start := by
  induction pieces generalizing here with
  | nil => cases h
  | cons p pieces ih =>
    rcases List.mem_cons.1 h with rfl | h
    · exact Nat.le_refl _
    · exact Nat.le_trans (Nat.le_add_right _ _) (ih h)

theorem layout_starts_lt {pieces : List LinePiece} (h : ∀ p ∈ pieces, p.text ≠ []) (here : Nat) :
    (layout here pieces).Pairwise fun l k => l.start < k.start := by
  induction pieces generalizing here with
  | nil => exact .nil
  | cons p pieces ih =>
    refine List.pairwise_cons.2 ⟨fun k hk => ?_, ih (fun q hq => h q (List.mem_cons_of_mem p hq)) _⟩
    have hpos := size_pos (h p List.mem_cons_self)
    have hle := start_le_of_mem_layout hk
    simp only
    omega

theorem exists_wellSplit (t : Text) : ∃ pieces, WellSplit pieces ∧ join pieces = t := by
  induction t using lineInduction with
  | nil => exact ⟨[], .nil, rfl⟩
  | lineEnd e t he ih =>
    obtain ⟨pieces, h, rfl⟩ := ih
    obtain ⟨hending, hfollow⟩ := lineEnd_iff.1 he
    refine ⟨⟨[], e⟩ :: pieces, .ended unbroken_nil hending (fun hreturn => ?_) h, rfl⟩
    exact mt h.head?_join.2 (hfollow hreturn)
  | char c t hc ih =>
    obtain ⟨pieces, h, rfl⟩ := ih
    have hline {content : Text} (hcontent : Unbroken content) : Unbroken (c :: content) :=
      List.forall_mem_cons.2 ⟨hc, hcontent⟩
    cases h with
    | nil => exact ⟨[⟨[c], []⟩], .unended (hline unbroken_nil) (by simp), rfl⟩
    | @unended content hcontent hne =>
      exact ⟨[⟨c :: content, []⟩], .unended (hline hcontent) (by simp), rfl⟩
    | @ended content ending pieces hcontent hending hfollow h =>
      exact ⟨⟨c :: content, ending⟩ :: pieces, .ended (hline hcontent) hending hfollow h, rfl⟩

end LinePiece

/-- What a text has at the lines of an index: the content of each, and what stands between it and
the next line or the end of the text. -/
def LineIndex.pieces? (t : Text) : LineIndex → Option (List LinePiece)
  | [] => some []
  | l :: index => do
    let content ← l.content? t
    let ending ← t.slice? l.stop (index.head?.elim t.size (·.start))
    let pieces ← pieces? t index
    some (⟨content, ending⟩ :: pieces)

namespace LinePiece
open Text

theorem pieces?_layout (a : Text) (pieces : List LinePiece) :
    (layout a.size pieces).pieces? (a ++ join pieces) = some pieces := by
  induction pieces generalizing a with
  | nil => rfl
  | cons p pieces ih =>
    have hnext : (layout (a.size + p.text.size) pieces).head?.elim (size (a ++ join (p :: pieces)))
        (·.start) = size (a ++ p.content ++ p.ending) := by
      cases pieces <;> simp [layout, text, Nat.add_assoc]
    have hcontent : (⟨a.size, a.size + p.content.size⟩ : Line).content? (a ++ join (p :: pieces)) =
        some p.content :=
      slice?_eq_some_iff.2 ⟨a, p.ending ++ join pieces, by simp [text], rfl, size_append _ _⟩
    have hending : (a ++ join (p :: pieces)).slice? (a.size + p.content.size)
        (size (a ++ p.content ++ p.ending)) = some p.ending :=
      slice?_eq_some_iff.2 ⟨a ++ p.content, join pieces, by simp [text], size_append _ _, rfl⟩
    have hrest := ih (a ++ p.text)
    rw [List.append_assoc, size_append, ← join_cons] at hrest
    rw [layout, LineIndex.pieces?, hcontent, hnext]
    simp only [Option.bind_eq_bind, Option.bind_some, hending, hrest]

theorem WellSplit.ofText_join {pieces : List LinePiece} (h : WellSplit pieces) :
    LineIndex.ofText (join pieces) = layout 0 pieces ∧
      (LineIndex.ofText (join pieces)).pieces? (join pieces) = some pieces := by
  have hindex : LineIndex.ofText (join pieces) = layout 0 pieces := h.scan_join 0
  refine ⟨hindex, ?_⟩
  rw [hindex]
  exact pieces?_layout [] pieces

end LinePiece

open LinePiece

/-- Lines are split without loss and exactly. The index of a text begins at zero and goes on, and
what the text has at its lines and in the gaps between them are lines and their terminators, which
give the text when put together. And of such lines put together, the index is that of these lines,
where they are laid out. -/
theorem LineIndex.ofText_lossless_exact :
    (∀ t : Text, ∃ pieces, (ofText t).pieces? t = some pieces ∧ WellSplit pieces ∧
      join pieces = t ∧ (ofText t).Pairwise (fun l k => l.start < k.start) ∧
      ∀ l ∈ (ofText t).head?, l.start = 0) ∧
    ∀ pieces, WellSplit pieces → ofText (join pieces) = layout 0 pieces ∧
      (ofText (join pieces)).pieces? (join pieces) = some pieces := by
  refine ⟨fun t => ?_, fun pieces h => h.ofText_join⟩
  obtain ⟨pieces, h, rfl⟩ := exists_wellSplit t
  obtain ⟨hindex, hpieces⟩ := h.ofText_join
  refine ⟨pieces, hpieces, h, rfl, ?_, ?_⟩
  · rw [hindex]
    exact layout_starts_lt (fun p hp => h.text_ne_nil hp) 0
  · rw [hindex]
    intro l hl
    cases pieces with
    | nil => cases hl
    | cons p pieces =>
      obtain rfl := Option.some.inj hl
      rfl

theorem LineIndex.ofText_lossless_exact_mixed :
    ofText (Text.ofString "a\r\n\r\rbé\n\nc") =
      [⟨0, 1⟩, ⟨3, 3⟩, ⟨4, 4⟩, ⟨5, 8⟩, ⟨9, 9⟩, ⟨10, 11⟩] := by
  have hsplit : WellSplit [⟨['a'], ['\r', '\n']⟩, ⟨[], ['\r']⟩, ⟨[], ['\r']⟩, ⟨['b', 'é'], ['\n']⟩,
      ⟨[], ['\n']⟩, ⟨['c'], []⟩] :=
    .ended (by decide) (by decide) (by decide) <| .ended (by decide) (by decide) (by decide) <|
    .ended (by decide) (by decide) (by decide) <| .ended (by decide) (by decide) (by decide) <|
    .ended (by decide) (by decide) (by decide) <| .unended (by decide) (by decide)
  exact (ofText_lossless_exact.2 _ hsplit).1

end SourceWindow
