import SourceWindow.Text

set_option autoImplicit false

namespace SourceWindow.Text

theorem size_eq_zero {t : Text} : size t = 0 ↔ t = [] := by
  cases t with
  | nil => simp
  | cons c t =>
    have hc := c.utf8Size_pos
    simp only [size_cons, reduceCtorEq, iff_false]
    omega

theorem size_pos {t : Text} (h : t ≠ []) : 0 < size t :=
  Nat.pos_of_ne_zero fun h' => h (size_eq_zero.1 h')

theorem exists_eq_concat {t : Text} (h : t ≠ []) : ∃ a c, t = a ++ [c] :=
  ⟨t.dropLast, t.getLast h, (List.dropLast_concat_getLast h).symm⟩

/-- Of two cuts of one text the later begins with the earlier. -/
theorem exists_append_of_size_le {a b a' b' : Text} (h : a ++ b = a' ++ b')
    (hs : size a ≤ size a') : ∃ k, a' = a ++ k ∧ b = k ++ b' := by
  rcases List.append_eq_append_iff.1 h with ⟨k, ha, hb⟩ | ⟨k, ha, hb⟩
  · exact ⟨k, ha, hb⟩
  · have hk : size k = 0 := by
      rw [ha, size_append] at hs
      omega
    rw [size_eq_zero.1 hk] at ha hb
    exact ⟨[], by simp_all, by simp_all⟩

theorem append_inj_of_size {a b a' b' : Text} (h : a ++ b = a' ++ b') (hs : size a = size a') :
    a = a' ∧ b = b' := by
  obtain ⟨k, rfl, rfl⟩ := exists_append_of_size_le h (Nat.le_of_eq hs)
  have hk : size k = 0 := by
    rw [size_append] at hs
    omega
  obtain rfl := size_eq_zero.1 hk
  simp

theorem size_le_or_of_append_eq {a b x y : Text} {c : Char} (h : a ++ c :: b = x ++ y) :
    x.size ≤ a.size ∨ a.size + c.utf8Size ≤ x.size := by
  by_cases hle : x.size ≤ a.size
  · exact .inl hle
  · obtain ⟨k, rfl, hk⟩ := exists_append_of_size_le h (by omega)
    cases k with
    | nil => simp at hle
    | cons d k =>
      obtain ⟨rfl, -⟩ := List.cons.inj hk
      right
      rw [size_append, size_cons]
      omega

theorem slice?_eq_some_iff {t m : Text} {i j : Nat} :
    t.slice? i j = some m ↔ ∃ a b, t = a ++ m ++ b ∧ size a = i ∧ size (a ++ m) = j := by
  unfold slice?
  constructor
  · intro h
    split at h
    · obtain ⟨⟨am, b⟩, hj, h⟩ := Option.bind_eq_some_iff.1 h
      obtain ⟨⟨a, m'⟩, hi, rfl⟩ := Option.map_eq_some_iff.1 h
      obtain ⟨rfl, hsj⟩ := splitAt?_eq_some_iff.1 hj
      obtain ⟨rfl, hsi⟩ := splitAt?_eq_some_iff.1 hi
      exact ⟨a, b, rfl, hsi, hsj⟩
    · cases h
  · rintro ⟨a, b, rfl, rfl, rfl⟩
    have hle : size a ≤ size (a ++ m) := by simp
    rw [if_pos hle, splitAt?_append]
    simp [splitAt?_append]

theorem slice?_append (a m b : Text) : (a ++ m ++ b).slice? (size a) (size (a ++ m)) = some m :=
  slice?_eq_some_iff.2 ⟨a, b, rfl, rfl, rfl⟩

theorem replace?_append (a m b r : Text) :
    (a ++ m ++ b).replace? (size a) (size (a ++ m)) r = some (a ++ r ++ b) := by
  have hle : size a ≤ size (a ++ m) := by simp
  unfold replace?
  rw [if_pos hle, splitAt?_append]
  simp [splitAt?_append]

theorem isBoundary_iff {t : Text} {n : Nat} :
    t.isBoundary n = true ↔ ∃ a b, t = a ++ b ∧ size a = n := by
  unfold isBoundary
  rw [Option.isSome_iff_exists]
  constructor
  · rintro ⟨⟨a, b⟩, h⟩
    exact ⟨a, b, splitAt?_eq_some_iff.1 h⟩
  · rintro ⟨a, b, h⟩
    exact ⟨(a, b), splitAt?_eq_some_iff.2 h⟩

theorem exists_char_at {t : Text} {p : Nat} (h : p < size t) :
    ∃ a c b, t = a ++ c :: b ∧ size a ≤ p ∧ p < size a + c.utf8Size := by
  induction t generalizing p with
  | nil => simp at h
  | cons c t ih =>
    by_cases hp : p < c.utf8Size
    · exact ⟨[], c, t, rfl, by simp, by simpa using hp⟩
    · rw [size_cons] at h
      obtain ⟨a, d, b, rfl, hle, hlt⟩ := @ih (p - c.utf8Size) (by omega)
      refine ⟨c :: a, d, b, rfl, ?_, ?_⟩ <;> rw [size_cons] <;> omega

theorem bytes_append (a b : Text) : (a ++ b).bytes = a.bytes ++ b.bytes := by
  simp [bytes]

theorem bytes_getElem?_left {a : Text} {i : Nat} (h : i < size a) (b : Text) :
    (a ++ b).bytes[i]? = a.bytes[i]? := by
  rw [bytes_append, List.getElem?_append_left (by rwa [length_bytes])]

theorem bytes_getElem?_right (a b : Text) (i : Nat) :
    (a ++ b).bytes[size a + i]? = b.bytes[i]? := by
  rw [bytes_append, List.getElem?_append_right (by simp [length_bytes]), length_bytes,
    Nat.add_sub_cancel_left]

theorem bytes_getElem?_char {a b : Text} {c : Char} {i : Nat} (h : i < c.utf8Size) :
    (a ++ c :: b).bytes[size a + i]? = (String.utf8EncodeChar c)[i]? := by
  have hc : i < (String.utf8EncodeChar c).length := by simpa using h
  have hb : bytes (c :: b) = String.utf8EncodeChar c ++ bytes b := by simp [bytes]
  rw [bytes_getElem?_right, hb, List.getElem?_append_left hc]

theorem bytes_injective {s t : Text} (h : s.bytes = t.bytes) : s = t := by
  have hencode : List.utf8Encode s = List.utf8Encode t := congrArg List.toByteArray h
  have hdecode := List.utf8Decode?_utf8Encode (l := s)
  rw [hencode, List.utf8Decode?_utf8Encode, Option.some.injEq] at hdecode
  exact (List.toArray_inj hdecode).symm

/-- Texts cut at the same two offsets that have the same bytes before the first and from the second
on are the same there. -/
theorem eq_outside_of_bytes {a m b a' m' b' : Text} (hstart : size a' = size a)
    (hstop : size (a' ++ m') = size (a ++ m))
    (h : ∀ i, i < size a ∨ size (a ++ m) ≤ i →
      (a' ++ m' ++ b').bytes[i]? = (a ++ m ++ b).bytes[i]?) : a' = a ∧ b' = b := by
  constructor
  · refine bytes_injective (List.ext_getElem? fun i => ?_)
    by_cases hi : i < size a
    · have hbyte := h i (.inl hi)
      rwa [List.append_assoc, List.append_assoc, bytes_getElem?_left hi,
        bytes_getElem?_left (hstart ▸ hi)] at hbyte
    · rw [List.getElem?_eq_none (by rw [length_bytes]; omega),
        List.getElem?_eq_none (by rw [length_bytes]; omega)]
  · refine bytes_injective (List.ext_getElem? fun i => ?_)
    have hbyte := h (size (a ++ m) + i) (.inr (Nat.le_add_right _ _))
    rwa [bytes_getElem?_right, ← hstop, bytes_getElem?_right] at hbyte

end SourceWindow.Text
