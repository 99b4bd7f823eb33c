import SourceWindow.Proofs.Truncation.Shortening

/-!
Where positions of a text are found again once its literals are shortened. A shortening comes apart
at every place that no edit has within its range, and what holds of a whole text then holds of the
part before that place.
-/

set_option autoImplicit false

namespace SourceWindow

/-- How far the edits that end at or before an offset move what stands there. -/
def EditSet.shift (edits : EditSet) (offset : Nat) : Int :=
  EditSet.growth (edits.filter (·.stop ≤ offset))

theorem EditSet.shift_append {es₁ es₂ : EditSet} {offset : Nat}
    (hleft : ∀ e ∈ es₁, e.stop ≤ offset) (hright : ∀ e ∈ es₂, offset < e.stop) :
    EditSet.shift (es₁ ++ es₂) offset = EditSet.growth es₁ := by
  have h₁ : es₁.filter (·.stop ≤ offset) = es₁ :=
    List.filter_eq_self.2 fun e he => by simpa using hleft e he
  have h₂ : es₂.filter (·.stop ≤ offset) = [] :=
    List.filter_eq_nil_iff.2 fun e he => by simpa using hright e he
  rw [shift, List.filter_append, h₁, h₂, List.append_nil]

namespace Shortening
open Text

variable {before source result : Text} {edits : List Edit}

theorem split_edit {es₁ es₂ : List Edit} {e : Edit}
    (h : Shortening before source (es₁ ++ e :: es₂) result) :
    ∃ a literal b a' b', source = a ++ literal ++ b ∧ result = a' ++ literal.truncated ++ b' ∧
      literal ≠ [] ∧ CleanCut (before ++ a) literal ∧ CleanCut literal b ∧
      e = ⟨size (before ++ a), size (before ++ a ++ literal), literal.truncated⟩ ∧
      Shortening before a es₁ a' ∧ Shortening (before ++ a ++ literal) b es₂ b' := by
  induction es₁ generalizing before source result with
  | nil =>
    cases h with
    | literal kept literal hne hstart hstop h =>
      exact ⟨kept, literal, _, kept, _, rfl, rfl, hne, hstart, hstop, rfl, .kept before kept, h⟩
  | cons d es₁ ih =>
    cases h with
    | @literal _ source result _ kept first hne hstart hstop h =>
      obtain ⟨a, literal, b, a', b', rfl, rfl, hne', hstart', hstop', he, ha, hb⟩ := ih h
      have hassoc : before ++ (kept ++ first ++ a) = before ++ kept ++ first ++ a := by simp
      rw [List.append_assoc a] at hstop
      refine ⟨kept ++ first ++ a, literal, b, kept ++ first.truncated ++ a', b', by simp, by simp,
        hne', ?_, hstop', ?_, ?_, ?_⟩
      · rwa [hassoc]
      · rw [hassoc, he]
      · exact .literal kept first hne hstart hstop.of_append_right ha
      · rwa [hassoc]

theorem result_unique {before' result' : Text} (h : Shortening before source edits result)
    (h' : Shortening before' source edits result') (hsize : before'.size = before.size) :
    result' = result := by
  induction edits generalizing before before' source result result' with
  | nil =>
    cases h
    cases h'
    rfl
  | cons e edits ih =>
    rw [← List.nil_append (e :: edits)] at h h'
    obtain ⟨a, literal, b, x, y, rfl, rfl, -, -, -, rfl, ha, hb⟩ := h.split_edit
    obtain ⟨a', literal', b', x', y', hcut, rfl, -, -, -, hedit, ha', hb'⟩ := h'.split_edit
    obtain ⟨hstart, hstop, htruncated⟩ := Edit.mk.inj hedit
    simp only [size_append] at hstart hstop
    have hsizes : size (a ++ literal) = size (a' ++ literal') := by
      simp only [size_append]
      omega
    obtain ⟨hfront, rfl⟩ := append_inj_of_size hcut hsizes
    obtain ⟨rfl, rfl⟩ := append_inj_of_size hfront (by omega)
    cases ha
    cases ha'
    rw [ih hb hb' (by simp only [size_append]; omega)]

/-- A shortening comes apart at each place that lies within no edit's range. -/
theorem split {a b : Text} (h : Shortening before (a ++ b) edits result)
    (hout : ∀ e ∈ edits, size (before ++ a) ≤ e.start ∨ e.stop ≤ size (before ++ a)) :
    ∃ es₁ es₂ a' b', edits = es₁ ++ es₂ ∧ result = a' ++ b' ∧
      Shortening before a es₁ a' ∧ Shortening (before ++ a) b es₂ b' := by
  generalize hsource : a ++ b = source at h
  induction h generalizing a with
  | kept before rest =>
    subst hsource
    exact ⟨[], [], a, b, rfl, rfl, .kept before a, .kept _ b⟩
  | @literal before source result edits kept literal hne hstart hstop h ih =>
    rcases hout _ List.mem_cons_self with hle | hle
    · obtain ⟨k, rfl, rfl⟩ : ∃ k, kept = a ++ k ∧ b = k ++ (literal ++ source) := by
        refine exists_append_of_size_le (by rw [hsource, List.append_assoc]) ?_
        simp only [size_append] at hle
        omega
      have hassoc : before ++ (a ++ k) = before ++ a ++ k := by simp
      rw [hassoc] at hstart h ⊢
      refine ⟨[], _, a, k ++ literal.truncated ++ result, rfl, by simp, .kept before a, ?_⟩
      rw [← List.append_assoc k]
      exact .literal k literal hne hstart hstop h
    · obtain ⟨r, rfl, hr⟩ : ∃ r, a = kept ++ literal ++ r ∧ source = r ++ b := by
        refine exists_append_of_size_le hsource.symm ?_
        simp only [size_append] at hle ⊢
        omega
      have hassoc : before ++ (kept ++ literal ++ r) = before ++ kept ++ literal ++ r := by simp
      rw [hassoc] at hout ⊢
      obtain ⟨es₁, es₂, a', b', rfl, rfl, ha, hb⟩ := ih
        (fun e he => hout e (List.mem_cons_of_mem _ he)) hr.symm
      refine ⟨_ :: es₁, es₂, kept ++ literal.truncated ++ a', b', rfl, by simp, ?_, hb⟩
      rw [hr] at hstop
      exact .literal kept literal hne hstart hstop.of_append_right ha

theorem eq_of_forall_not_mem (h : Shortening before source edits result)
    (hno : ∀ e, e ∉ edits) : edits = [] ∧ result = source := by
  cases h with
  | kept => exact ⟨rfl, rfl⟩
  | literal => exact absurd List.mem_cons_self (hno _)

theorem ends_of_mem (h : Shortening before source edits result) {e : Edit} (he : e ∈ edits) :
    ∃ a m b, before ++ source = a ++ m ++ b ∧ a.size = e.start ∧ size (a ++ m) = e.stop := by
  obtain ⟨es₁, es₂, rfl⟩ := List.append_of_mem he
  obtain ⟨a, literal, b, a', b', rfl, -, -, -, -, rfl, -, -⟩ := h.split_edit
  exact ⟨before ++ a, literal, b, by simp, rfl, rfl⟩

/-- A character with a byte outside all edits is kept. It is moved by what the edits before it add,
and as many lines are broken up to it. -/
theorem char_kept {a b : Text} {c : Char} {offset : Nat}
    (h : Shortening [] (a ++ c :: b) edits result) (hle : a.size ≤ offset)
    (hlt : offset < a.size + c.utf8Size)
    (hout : ∀ e ∈ edits, offset < e.start ∨ e.stop ≤ offset) :
    ∃ a' b', result = a' ++ c :: b' ∧ (a'.size : Int) = a.size + EditSet.shift edits offset ∧
      lineBreaks (a' ++ [c]) = lineBreaks (a ++ [c]) := by
  have hapart : ∀ e ∈ edits, e.stop ≤ a.size ∨ a.size + c.utf8Size ≤ e.start := by
    intro e he
    obtain ⟨x, m, y, hcut, hx, hm⟩ := h.ends_of_mem he
    rw [List.nil_append] at hcut
    have hstart := size_le_or_of_append_eq (hcut.trans (List.append_assoc x m y))
    have hstop := size_le_or_of_append_eq hcut
    have hside := hout e he
    omega
  -- The source is cut on both sides of the character, between which no edit is left.
  have hsplit : a ++ c :: b = a ++ [c] ++ b := by simp
  rw [hsplit] at h
  obtain ⟨es, es₂, ac', b', rfl, rfl, hac, hb⟩ := h.split fun e he => by
    have hside := hapart e he
    simp only [List.nil_append, size_append, size_cons, size_nil]
    omega
  obtain ⟨es₁, es₀, a', c', rfl, rfl, ha, hc⟩ := hac.split fun e he => by
    have hside := hapart e (List.mem_append_left _ he)
    have hpos := c.utf8Size_pos
    simp only [List.nil_append]
    omega
  have hno : ∀ e, e ∉ es₀ := by
    intro e he
    obtain ⟨hlo, hpos, hhi⟩ := hc.bounds he
    have hside := hapart e (by simp [he])
    simp only [List.nil_append, size_append, size_cons, size_nil] at hlo hhi
    omega
  obtain ⟨rfl, rfl⟩ := hc.eq_of_forall_not_mem hno
  refine ⟨a', b', by simp, ?_, hac.lineBreaks_eq⟩
  rw [List.append_nil, EditSet.shift_append, ha.size_eq]
  · intro e he
    have hhi := (ha.bounds he).2.2
    simp only [List.nil_append] at hhi
    omega
  · intro e he
    obtain ⟨hlo, hpos, -⟩ := hb.bounds he
    simp only [List.nil_append, size_append, size_cons, size_nil] at hlo
    omega

theorem literal_replaced (h : Shortening [] source edits result) {e : Edit} (he : e ∈ edits) :
    ∃ a literal b a' b', source = a ++ literal ++ b ∧ result = a' ++ literal.truncated ++ b' ∧
      literal ≠ [] ∧ CleanCut a literal ∧
      e = ⟨a.size, size (a ++ literal), literal.truncated⟩ ∧
      (a'.size : Int) = a.size + EditSet.shift edits e.start ∧ lineBreaks a' = lineBreaks a := by
  obtain ⟨es₁, es₂, rfl⟩ := List.append_of_mem he
  obtain ⟨a, literal, b, a', b', rfl, rfl, hne, hstart, -, rfl, ha, hb⟩ := h.split_edit
  refine ⟨a, literal, b, a', b', rfl, rfl, hne, hstart, rfl, ?_, ha.lineBreaks_eq⟩
  have hpos := size_pos hne
  rw [EditSet.shift_append, ha.size_eq]
  · exact fun d hd => (ha.bounds hd).2.2
  · intro d hd
    rcases List.mem_cons.1 hd with rfl | hd
    · simp only [size_append]
      omega
    · have hlo := hb.bounds hd
      simp only [size_append] at hlo ⊢
      omega

end Shortening
end SourceWindow
