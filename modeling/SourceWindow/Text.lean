/-!
Text as a list of characters, measured and cut by byte offsets of its UTF-8 form.
A cut succeeds exactly when its ends lie in the text and on character boundaries.
-/

set_option autoImplicit false

namespace SourceWindow

abbrev Text := List Char

namespace Text

def bytes (t : Text) : List UInt8 := t.flatMap String.utf8EncodeChar

def size : Text → Nat
  | [] => 0
  | c :: t => c.utf8Size + size t

@[simp] theorem size_nil : size [] = 0 := rfl

@[simp] theorem size_cons (c : Char) (t : Text) : size (c :: t) = c.utf8Size + size t := rfl

@[simp] theorem size_append (s t : Text) : size (s ++ t) = size s + size t := by
  induction s with
  | nil => simp
  | cons c s ih => simp [ih, Nat.add_assoc]

theorem length_bytes (t : Text) : t.bytes.length = size t := by
  induction t with
  | nil => rfl
  | cons c t ih =>
    simp only [bytes, List.flatMap_cons, List.length_append, size_cons] at ih ⊢
    rw [ih, String.length_utf8EncodeChar]

/-- The two parts of a text before and after a byte offset, if it is a character boundary. -/
def splitAt? : Text → Nat → Option (Text × Text)
  | t, 0 => some ([], t)
  | [], _ + 1 => none
  | c :: t, n + 1 =>
    if c.utf8Size ≤ n + 1 then
      (splitAt? t (n + 1 - c.utf8Size)).map fun (before, after) => (c :: before, after)
    else none

theorem eq_append_of_splitAt? {t a b : Text} {n : Nat} (h : splitAt? t n = some (a, b)) :
    t = a ++ b ∧ size a = n := by
  induction t generalizing n a b with
  | nil =>
    cases n with
    | zero => simp_all [splitAt?]
    | succ n => simp [splitAt?] at h
  | cons c t ih =>
    cases n with
    | zero => simp [splitAt?] at h; obtain ⟨rfl, rfl⟩ := h; simp
    | succ n =>
      simp only [splitAt?] at h
      split at h
      · rename_i hc
        obtain ⟨⟨a', b'⟩, h', e⟩ := Option.map_eq_some_iff.1 h
        simp only [Prod.mk.injEq] at e
        obtain ⟨rfl, rfl⟩ := e
        obtain ⟨rfl, hs⟩ := ih h'
        exact ⟨rfl, by simp only [size_cons]; omega⟩
      · cases h

theorem splitAt?_append (a b : Text) : splitAt? (a ++ b) (size a) = some (a, b) := by
  induction a with
  | nil => cases b <;> rfl
  | cons c a ih =>
    have hc := c.utf8Size_pos
    obtain ⟨n, hn⟩ : ∃ n, size (c :: a) = n + 1 := ⟨size (c :: a) - 1, by simp; omega⟩
    have hr : n + 1 - c.utf8Size = size a := by simp at hn; omega
    have hle : c.utf8Size ≤ n + 1 := by simp at hn; omega
    rw [hn, List.cons_append, splitAt?, if_pos hle, hr, ih]
    rfl

theorem splitAt?_eq_some_iff {t a b : Text} {n : Nat} :
    splitAt? t n = some (a, b) ↔ t = a ++ b ∧ size a = n :=
  ⟨eq_append_of_splitAt?, fun ⟨ht, hn⟩ => ht ▸ hn ▸ splitAt?_append a b⟩

def isBoundary (t : Text) (n : Nat) : Bool := (t.splitAt? n).isSome

/-- The part between two byte offsets; none if they are reversed, outside or inside a character. -/
def slice? (t : Text) (start stop : Nat) : Option Text :=
  if start ≤ stop then
    (t.splitAt? stop).bind fun (before, _) => (before.splitAt? start).map (·.2)
  else none

def replace? (t : Text) (start stop : Nat) (replacement : Text) : Option Text :=
  if start ≤ stop then
    (t.splitAt? stop).bind fun (before, after) =>
      (before.splitAt? start).map fun (kept, _) => kept ++ replacement ++ after
  else none

def decimal (n : Nat) : Text := Nat.toDigits 10 n

def ofString (s : String) : Text := s.toList

def join (separator : Text) (parts : List Text) : Text := separator.intercalate parts

/-- Row and column of a byte offset, from zero. Rows end at line feeds only, columns count bytes. -/
def place (t : Text) (offset : Nat) : Nat × Nat := go 0 0 offset t
where
  go (row column : Nat) : Nat → Text → Nat × Nat
    | 0, _ | _, [] => (row, column)
    | n + 1, c :: t =>
      if c = '\n' then go (row + 1) 0 n t
      else go row (column + c.utf8Size) (n + 1 - c.utf8Size) t

end Text
end SourceWindow
