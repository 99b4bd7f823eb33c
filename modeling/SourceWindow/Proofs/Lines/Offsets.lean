import SourceWindow.Proofs.Lines.Contents

set_option autoImplicit false

namespace SourceWindow.LineIndex
open Text

def begun (index : LineIndex) (offset : Nat) : LineIndex := index.takeWhile (·.start ≤ offset)

theorem begun_cons {l : Line} {offset : Nat} (h : l.start ≤ offset) (index : LineIndex) :
    begun (l :: index) offset = l :: index.begun offset := by
  simp [begun, h]

theorem begun_cons_of_lt {l : Line} {offset : Nat} (h : offset < l.start) (index : LineIndex) :
    begun (l :: index) offset = [] := by
  simp [begun, h]

theorem begun_scan_of_lt {start offset : Nat} (h : offset < start) (here : Nat) (t : Text) :
    (scan start here t).begun offset = [] := by
  induction t using lineInduction generalizing here with
  | nil =>
    by_cases hs : start < here
    · rw [scan, if_pos hs, begun_cons_of_lt h]
    · rw [scan, if_neg hs]
      rfl
  | lineEnd e t he ih => rw [scan_lineEnd _ _ he, begun_cons_of_lt h]
  | char c t hc ih => rw [scan_char _ _ hc, ih]

theorem length_begun_scan_of_lt {start offset here : Nat} (hs : start ≤ offset)
    (hh : offset < here) (t : Text) : ((scan start here t).begun offset).length = 1 := by
  have hnext (n : Nat) (u : Text) : (scan (here + n) (here + n) u).begun offset = [] :=
    begun_scan_of_lt (by omega) _ _
  induction t using lineInduction generalizing here with
  | nil => rw [scan, if_pos (by omega), begun_cons hs]; rfl
  | lineEnd e t he ih => rw [scan_lineEnd _ _ he, begun_cons hs, hnext]; rfl
  | char c t hc ih =>
    rw [scan_char _ _ hc]
    exact ih (by omega) fun n u => begun_scan_of_lt (by omega) _ _

/-- The character at the offset ends the text read so far: a line feed at it belongs to the line it
ends, and so does one whose carriage return stands before it. -/
theorem length_begun_scan {t a b : Text} {c : Char} {offset : Nat} (start here : Nat)
    (ht : t = a ++ c :: b) (hs : start ≤ here) (hle : here + a.size ≤ offset)
    (hlt : offset < here + a.size + c.utf8Size) :
    ((scan start here t).begun offset).length + (if IsTerminator c then 1 else 0) =
      lineBreaks (a ++ [c]) + 1 := by
  have hso : start ≤ offset := by omega
  induction t using lineInduction generalizing a start here with
  | nil => simp at ht
  | lineEnd e t he ih =>
    rw [scan_lineEnd _ _ he, begun_cons hso, List.length_cons]
    rcases size_le_or_of_append_eq ht.symm with hsize | hsize
    · obtain ⟨k, rfl, rfl⟩ := exists_append_of_size_le ht hsize
      rw [size_append] at hle hlt
      have h := ih (here + e.size) (here + e.size) rfl (by omega) (by omega) (by omega) (by omega)
      have hend : LineEnd e (k ++ [c]) := LineEnd.of_append (b := b) (by simpa using he)
      rw [List.append_assoc, lineBreaks_lineEnd hend]
      omega
    · -- The character is part of the line end, and no later line begins at it or before.
      obtain ⟨k, rfl⟩ : ∃ k, e = a ++ c :: k := by
        have hcut : a ++ [c] ++ b = e ++ t := by simp [ht]
        obtain ⟨k, hk, -⟩ := exists_append_of_size_le hcut (by simpa using hsize)
        exact ⟨k, by simp [hk]⟩
      obtain ⟨hc, hbreaks⟩ := he.lineBreaks_prefix
      rw [begun_scan_of_lt (by omega), if_pos hc, hbreaks]
      rfl
  | char d t hd ih =>
    rw [scan_char _ _ hd]
    cases a with
    | nil =>
      obtain ⟨rfl, rfl⟩ := List.cons.inj ht
      rw [size_nil, Nat.add_zero] at hlt
      rw [length_begun_scan_of_lt hso hlt, List.nil_append, lineBreaks_char hd, if_neg hd]
      rfl
    | cons e a =>
      obtain ⟨rfl, ht'⟩ := List.cons.inj ht
      rw [size_cons] at hle hlt
      have h := ih start (here + d.utf8Size) ht' (by omega) (by omega) (by omega) hso
      rw [List.cons_append, lineBreaks_char hd]
      exact h

theorem scan_eq_cons {start here : Nat} (hs : start ≤ here) {t : Text} (ht : t ≠ []) :
    ∃ stop index, scan start here t = ⟨start, stop⟩ :: index := by
  induction t using lineInduction generalizing here with
  | nil => exact absurd rfl ht
  | lineEnd e t he ih => exact ⟨_, _, scan_lineEnd start here he⟩
  | char c t hc ih =>
    have hpos := c.utf8Size_pos
    rw [scan_char _ _ hc]
    by_cases h : t = []
    · exact ⟨here + c.utf8Size, [], by rw [h, scan, if_pos (by omega)]⟩
    · exact ih (by omega) h

theorem lineAt?_eq_some_iff {t : Text} (ht : t ≠ []) {offset n : Nat} :
    (ofText t).lineAt? offset = some n ↔ ((ofText t).begun offset).length = n + 1 := by
  obtain ⟨stop, index, hi⟩ := scan_eq_cons (Nat.le_refl 0) ht
  unfold lineAt? ofText
  rw [hi, ← begun, begun_cons (Nat.zero_le _), List.length_cons]
  simp

theorem lineAt?_ofText {a b : Text} {c : Char} {offset : Nat} (hle : a.size ≤ offset)
    (hlt : offset < a.size + c.utf8Size) :
    ∃ n, (ofText (a ++ c :: b)).lineAt? offset = some n ∧
      n + (if IsTerminator c then 1 else 0) = lineBreaks (a ++ [c]) := by
  have h := length_begun_scan 0 0 (rfl : a ++ c :: b = a ++ c :: b) (Nat.le_refl 0)
    (show 0 + a.size ≤ offset by omega) (by omega)
  obtain ⟨stop, index, hi⟩ := scan_eq_cons (Nat.le_refl 0) (show a ++ c :: b ≠ [] by simp)
  refine ⟨((ofText (a ++ c :: b)).begun offset).length - 1, ?_, ?_⟩
  · rw [lineAt?_eq_some_iff (by simp), ofText, hi, begun_cons (Nat.zero_le _), List.length_cons,
      Nat.add_sub_cancel]
  · unfold ofText
    rw [hi, begun_cons (Nat.zero_le _), List.length_cons] at h ⊢
    omega

theorem lineAt?_eq_of_lineBreaks_eq {a b a' b' : Text} {c : Char} {i : Nat}
    (hi : i < c.utf8Size) (h : lineBreaks (a' ++ [c]) = lineBreaks (a ++ [c])) :
    (ofText (a' ++ c :: b')).lineAt? (a'.size + i) =
      (ofText (a ++ c :: b)).lineAt? (a.size + i) := by
  obtain ⟨m, hm, hbreaks⟩ := lineAt?_ofText (a := a') (b := b') (c := c)
    (Nat.le_add_right a'.size i) (by omega)
  obtain ⟨n, hn, hbreaks'⟩ := lineAt?_ofText (a := a) (b := b) (c := c)
    (Nat.le_add_right a.size i) (by omega)
  have hmn : m = n := by omega
  rw [hm, hn, hmn]

/-- A text that begins behind a clean cut begins on the line whose number is the number of line
breaks before it. -/
theorem lineAt?_of_cleanCut {a t b : Text} (ht : t ≠ []) (h : CleanCut a t) :
    (ofText (a ++ t ++ b)).lineAt? a.size = some (lineBreaks a) := by
  obtain ⟨c, t, rfl⟩ := List.exists_cons_of_ne_nil ht
  have hpos := c.utf8Size_pos
  have hc : CleanCut a [c] := CleanCut.of_append_right (k := [c]) (b := t) h
  obtain ⟨n, hn, hbreaks⟩ := lineAt?_ofText (a := a) (b := t ++ b) (c := c) (Nat.le_refl a.size)
    (by omega)
  have hna : n = lineBreaks a := by
    rw [lineBreaks_append hc, lineBreaks_singleton] at hbreaks
    omega
  rw [List.append_assoc, List.cons_append, hn, hna]

end SourceWindow.LineIndex
