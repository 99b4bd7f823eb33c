import SourceWindow.Lines

/-!
Texts by their line ends. A text is empty or begins with a line end or with a character of a line,
and each function on lines has one equation for either of these. Lines of two texts put together
are told from those of the texts as long as the seam parts no carriage return from its line feed.
-/

set_option autoImplicit false

namespace SourceWindow

def IsTerminator (c : Char) : Prop := c = '\n' ∨ c = '\r'

instance : DecidablePred IsTerminator := fun _ => inferInstanceAs (Decidable (_ ∨ _))

namespace Text

/-- The first text is a line end when the second comes after it. A carriage return by itself is
none before a line feed. -/
inductive LineEnd : Text → Text → Prop where
  | lineFeed (t : Text) : LineEnd ['\n'] t
  | pair (t : Text) : LineEnd ['\r', '\n'] t
  | carriageReturn {t : Text} : t.head? ≠ some '\n' → LineEnd ['\r'] t

/-- Induction that takes a carriage return and its line feed in one step. -/
@[elab_as_elim] theorem lineInduction {motive : Text → Prop} (nil : motive [])
    (lineEnd : ∀ e t, LineEnd e t → motive t → motive (e ++ t))
    (char : ∀ c t, ¬ IsTerminator c → motive t → motive (c :: t)) (t : Text) : motive t := by
  induction t using lineBreaks.induct with
  | case1 => exact nil
  | case2 t ih => exact lineEnd _ t (.pair t) ih
  | case3 c t hc ih =>
    by_cases hn : c = '\n'
    · subst c
      exact lineEnd _ t (.lineFeed t) ih
    · by_cases hr : c = '\r'
      · subst c
        refine lineEnd _ t (.carriageReturn fun h => ?_) ih
        cases t with
        | nil => simp at h
        | cons d t => exact hc t rfl (by simpa using h)
      · exact char c t (by simp [IsTerminator, hn, hr]) ih

namespace LineEnd

variable {e t : Text}

theorem of_append {b : Text} (h : LineEnd e (t ++ b)) : LineEnd e t := by
  cases h with
  | lineFeed => exact .lineFeed t
  | pair => exact .pair t
  | carriageReturn h =>
    refine .carriageReturn fun ht => h ?_
    rw [List.head?_append, ht]
    rfl

theorem lineBreaks_prefix {a k : Text} {c : Char} (h : LineEnd (a ++ c :: k) t) :
    IsTerminator c ∧ lineBreaks (a ++ [c]) = 1 := by
  generalize he : a ++ c :: k = e at h
  cases h with
  | lineFeed =>
    obtain ⟨rfl, rfl, rfl⟩ : a = [] ∧ c = '\n' ∧ k = [] := by
      simpa [List.append_eq_cons_iff] using he
    exact ⟨.inl rfl, rfl⟩
  | pair =>
    rcases a with _ | ⟨d, a⟩
    · obtain ⟨rfl, -⟩ := List.cons.inj he
      exact ⟨.inr rfl, rfl⟩
    · obtain ⟨rfl, he⟩ := List.cons.inj he
      obtain ⟨rfl, rfl, rfl⟩ : a = [] ∧ c = '\n' ∧ k = [] := by
        simpa [List.append_eq_cons_iff] using he
      exact ⟨.inl rfl, rfl⟩
  | carriageReturn =>
    obtain ⟨rfl, rfl, rfl⟩ : a = [] ∧ c = '\r' ∧ k = [] := by
      simpa [List.append_eq_cons_iff] using he
    exact ⟨.inr rfl, rfl⟩

end LineEnd

/-- Between the two texts no carriage return is parted from its line feed. -/
def CleanCut (a b : Text) : Prop := a.getLast? = some '\r' → b.head? ≠ some '\n'

@[simp] theorem cleanCut_nil_left (b : Text) : CleanCut [] b := by simp [CleanCut]

@[simp] theorem cleanCut_nil_right (a : Text) : CleanCut a [] := by simp [CleanCut]

theorem CleanCut.of_append_left {a k b : Text} (h : CleanCut (a ++ k) b) : CleanCut k b := by
  intro hk
  apply h
  rw [List.getLast?_append, hk]
  rfl

theorem CleanCut.of_cons {c : Char} {a b : Text} (h : CleanCut (c :: a) b) : CleanCut a b :=
  CleanCut.of_append_left (a := [c]) h

theorem CleanCut.lineEnd {e a b : Text} (h : CleanCut (e ++ a) b) (he : LineEnd e a) :
    LineEnd e (a ++ b) := by
  cases he with
  | lineFeed => exact .lineFeed _
  | pair => exact .pair _
  | carriageReturn ha =>
    refine .carriageReturn ?_
    cases a with
    | nil => simpa [CleanCut] using h
    | cons d a => simpa using ha

theorem CleanCut.append_left {k b : Text} (h : CleanCut k b) (hk : k ≠ []) (a : Text) :
    CleanCut (a ++ k) b := by
  intro hl
  apply h
  rw [List.getLast?_append, List.getLast?_eq_some_getLast hk] at hl
  rw [List.getLast?_eq_some_getLast hk]
  exact hl

theorem CleanCut.of_append_right {a k b : Text} (h : CleanCut a (k ++ b)) : CleanCut a k := by
  intro hl hk
  apply h hl
  rw [List.head?_append, hk]
  rfl

theorem CleanCut.append_right {a k : Text} (h : CleanCut a k) (hk : k ≠ []) (b : Text) :
    CleanCut a (k ++ b) := by
  intro hl
  cases k with
  | nil => exact absurd rfl hk
  | cons c k => exact h hl

def Unbroken (t : Text) : Prop := ∀ c ∈ t, ¬ IsTerminator c

instance (t : Text) : Decidable (Unbroken t) := List.decidableBAll (¬ IsTerminator ·) t

@[simp] theorem unbroken_nil : Unbroken [] := by simp [Unbroken]

theorem unbroken_append {a b : Text} : Unbroken (a ++ b) ↔ Unbroken a ∧ Unbroken b := by
  simp [Unbroken, or_imp, forall_and]

theorem Unbroken.cleanCut_left {a : Text} (h : Unbroken a) (b : Text) : CleanCut a b :=
  fun hl => absurd (.inr rfl) (h _ (List.mem_of_getLast? hl))

theorem Unbroken.cleanCut_right {b : Text} (h : Unbroken b) (a : Text) : CleanCut a b :=
  fun _ hb => h _ (List.mem_of_head? hb) (.inl rfl)

theorem unbroken_decimal (n : Nat) : Unbroken (decimal n) := by
  intro c hc hbreak
  have hdigit := Nat.isDigit_of_mem_toDigits (by decide) (by decide) hc
  rcases hbreak with rfl | rfl <;> simp at hdigit

theorem lineBreaks_lineEnd {e t : Text} (h : LineEnd e t) :
    lineBreaks (e ++ t) = lineBreaks t + 1 := by
  cases h with
  | lineFeed => simp [lineBreaks]
  | pair => simp [lineBreaks]
  | carriageReturn h =>
    cases t with
    | nil => rfl
    | cons d t =>
      have hd : d ≠ '\n' := by simpa using h
      simp [lineBreaks, hd]

theorem lineBreaks_char {c : Char} (h : ¬ IsTerminator c) (t : Text) :
    lineBreaks (c :: t) = lineBreaks t := by
  obtain ⟨hn, hr⟩ := not_or.1 h
  simp [lineBreaks, hn, hr]

theorem lineBreaks_singleton (c : Char) : lineBreaks [c] = if IsTerminator c then 1 else 0 := by
  by_cases h : IsTerminator c
  · rw [if_pos h]
    rcases h with rfl | rfl <;> rfl
  · rw [if_neg h, lineBreaks_char h]
    rfl

theorem Unbroken.lineBreaks_eq {t : Text} (h : Unbroken t) : lineBreaks t = 0 := by
  induction t with
  | nil => rfl
  | cons c t ih =>
    rw [lineBreaks_char (h c (by simp)), ih fun d hd => h d (by simp [hd])]

@[simp] theorem lineBreaks_replicate (n : Nat) : lineBreaks (List.replicate n '\n') = n := by
  induction n with
  | zero => rfl
  | succ n ih => exact (lineBreaks_lineEnd (.lineFeed _)).trans (congrArg (· + 1) ih)

end Text

namespace LineIndex
open Text

theorem scan_lineEnd (start here : Nat) {e t : Text} (h : LineEnd e t) :
    scan start here (e ++ t) = ⟨start, here⟩ :: scan (here + e.size) (here + e.size) t := by
  have hn : '\n'.utf8Size = 1 := rfl
  have hr : '\r'.utf8Size = 1 := rfl
  cases h with
  | lineFeed => simp [scan, hn]
  | pair => simp [scan, hn, hr]
  | carriageReturn h =>
    cases t with
    | nil => simp [scan]
    | cons d t =>
      have hd : d ≠ '\n' := by simpa using h
      simp [scan, hd, hr]

theorem scan_char (start here : Nat) {c : Char} (h : ¬ IsTerminator c) (t : Text) :
    scan start here (c :: t) = scan start (here + c.utf8Size) t := by
  obtain ⟨hn, hr⟩ := not_or.1 h
  simp [scan, hr]

theorem scan_unbroken (start here : Nat) {line : Text} (h : Unbroken line) (t : Text) :
    scan start here (line ++ t) = scan start (here + line.size) t := by
  induction line generalizing here with
  | nil => rfl
  | cons c line ih =>
    rw [List.cons_append, scan_char _ _ (h c List.mem_cons_self),
      ih _ fun d hd => h d (List.mem_cons_of_mem c hd), size_cons, Nat.add_assoc]

end LineIndex
end SourceWindow
