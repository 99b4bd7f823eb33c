import SourceWindow.Proofs.Edit.Resolution

/-!
Which edits resolution keeps: those that overlap no kept edit that outranks them. Neither the order
in which edits are given nor an edit that is not kept makes a difference, and of ranges that are
nested or disjoint the outermost are kept.
-/

set_option autoImplicit false

namespace SourceWindow

structure ByteRange where
  start : Nat
  stop : Nat
  deriving DecidableEq, Repr

namespace ByteRange

/-- An earlier start outranks a later one, and of two ranges with one start the longer outranks the
shorter. -/
def Outranks (a b : ByteRange) : Prop := a.start < b.start ∨ a.start = b.start ∧ b.stop < a.stop

def Overlaps (a b : ByteRange) : Prop := a.start < b.stop ∧ b.start < a.stop

def Within (a b : ByteRange) : Prop := b.start ≤ a.start ∧ a.stop ≤ b.stop

def NestedOrDisjoint (a b : ByteRange) : Prop := a.Within b ∨ b.Within a ∨ ¬ a.Overlaps b

instance (a b : ByteRange) : Decidable (a.Outranks b) := inferInstanceAs (Decidable (_ ∨ _))
instance (a b : ByteRange) : Decidable (a.Overlaps b) := inferInstanceAs (Decidable (_ ∧ _))
instance (a b : ByteRange) : Decidable (a.Within b) := inferInstanceAs (Decidable (_ ∧ _))
instance (a b : ByteRange) : Decidable (a.NestedOrDisjoint b) := inferInstanceAs (Decidable (_ ∨ _))

variable {a b c : ByteRange}

theorem not_outranks_self (a : ByteRange) : ¬ a.Outranks a := by
  simp [Outranks]

theorem Overlaps.symm (h : a.Overlaps b) : b.Overlaps a := And.symm h

theorem Within.trans (hab : a.Within b) (hbc : b.Within c) : a.Within c :=
  ⟨Nat.le_trans hbc.1 hab.1, Nat.le_trans hab.2 hbc.2⟩

theorem Within.antisymm (hab : a.Within b) (hba : b.Within a) : a = b := by
  cases a
  cases b
  simp only [Within, mk.injEq] at *
  omega

theorem Within.not_outranks (h : a.Within b) : ¬ a.Outranks b := by
  simp only [Within, Outranks] at *
  omega

theorem Within.overlaps (h : a.Within b) (ha : a.start < a.stop) : a.Overlaps b := by
  simp only [Within, Overlaps] at *
  omega

end ByteRange

namespace Edit

def range (e : Edit) : ByteRange := ⟨e.start, e.stop⟩

variable {a b : Edit}

theorem outranks_of_precedes (h : a.precedes b = true) (hne : a.range ≠ b.range) :
    a.range.Outranks b.range := by
  rw [precedes_iff] at h
  simp only [range, ne_eq, ByteRange.mk.injEq, ByteRange.Outranks] at *
  omega

theorem overlaps_iff_range : a.overlaps b = true ↔ a.range.Overlaps b.range := overlaps_iff

theorem Before.not_overlaps (h : a.Before b) : ¬ a.range.Overlaps b.range := by
  simp only [Before, range, ByteRange.Overlaps] at *
  omega

end Edit

namespace EditSet

theorem Consistent.filter {edits : EditSet} (h : edits.Consistent) (p : Edit → Bool) :
    Consistent (edits.filter p) := fun a ha b hb =>
  h a (List.mem_filter.1 ha).1 b (List.mem_filter.1 hb).1

theorem Consistent.eq_of_range_eq {edits : EditSet} (h : edits.Consistent) {a b : Edit}
    (ha : a ∈ edits) (hb : b ∈ edits) (hrange : a.range = b.range) : a = b :=
  h a ha b hb (congrArg ByteRange.start hrange) (congrArg ByteRange.stop hrange)

/-- In order of precedence an edit that is dropped overlaps one kept before it. -/
theorem keepApart_covers (last : Option Edit) {es : List Edit} {e : Edit}
    (hsorted : es.Pairwise fun a b => a.precedes b = true)
    (hlast : ∀ l ∈ last, ∀ d ∈ es, l.precedes d = true) (he : e ∈ es) :
    e ∈ keepApart last es ∨
      ∃ k, (k ∈ last ∨ k ∈ keepApart last es) ∧ k.precedes e = true ∧ e.overlaps k = true := by
  induction es generalizing last with
  | nil => cases he
  | cons d es ih =>
    obtain ⟨hd, hsorted⟩ := List.pairwise_cons.1 hsorted
    by_cases hover : last.any d.overlaps = true
    · rw [keepApart, if_pos hover]
      rcases List.mem_cons.1 he with rfl | he
      · obtain ⟨l, hl, hover⟩ := (Option.any_eq_true _ _).1 hover
        exact .inr ⟨l, .inl hl, hlast l hl e List.mem_cons_self, hover⟩
      · exact ih last hsorted (fun l hl d hd => hlast l hl d (List.mem_cons_of_mem _ hd)) he
    · rw [keepApart, if_neg hover]
      rcases List.mem_cons.1 he with rfl | he
      · exact .inl List.mem_cons_self
      · rcases ih (some d) hsorted (by simpa using hd) he with hkept | ⟨k, hk, hcover⟩
        · exact .inl (List.mem_cons_of_mem _ hkept)
        · refine .inr ⟨k, .inr ?_, hcover⟩
          rcases hk with hk | hk
          · obtain rfl : d = k := Option.some.inj hk
            exact List.mem_cons_self
          · exact List.mem_cons_of_mem _ hk

theorem keepApart_filter {last : Option Edit} {es : List Edit} {p : Edit → Bool}
    (h : ∀ e ∈ keepApart last es, p e = true) :
    keepApart last (es.filter p) = keepApart last es := by
  induction es generalizing last with
  | nil => rfl
  | cons e es ih =>
    by_cases hover : last.any e.overlaps = true
    · rw [keepApart, if_pos hover] at h ⊢
      by_cases hp : p e = true
      · rw [List.filter_cons_of_pos hp, keepApart, if_pos hover, ih h]
      · rw [List.filter_cons_of_neg hp, ih h]
    · rw [keepApart, if_neg hover] at h ⊢
      have hp := h e List.mem_cons_self
      rw [List.filter_cons_of_pos hp, keepApart, if_neg hover,
        ih fun d hd => h d (List.mem_cons_of_mem _ hd)]

section
variable {edits : EditSet} (hcons : edits.Consistent)
include hcons

theorem resolved_eq_of_perm {edits' : EditSet} (hperm : edits'.Perm edits) :
    edits'.resolved = edits.resolved := by
  have hsorted := mergeSort_precedes edits'
  rw [resolved, resolved, eq_mergeSort_of_perm hcons hsorted ((List.mergeSort_perm _ _).trans hperm)]

theorem resolved_filter {p : Edit → Bool} (h : ∀ e ∈ edits.resolved, p e = true) :
    resolved (edits.filter p) = edits.resolved := by
  have hsorted := mergeSort_precedes edits
  rw [resolved, ← eq_mergeSort_of_perm (hcons.filter p) (hsorted.filter p)
    ((List.mergeSort_perm _ _).filter p), keepApart_filter h]
  rfl

theorem mem_resolved_or {e : Edit} (he : e ∈ edits) :
    e ∈ edits.resolved ∨
      ∃ k ∈ edits.resolved, k.range.Outranks e.range ∧ k.range.Overlaps e.range := by
  have hsorted := mergeSort_precedes edits
  rcases keepApart_covers none hsorted (by simp) (List.mem_mergeSort.2 he) with h | ⟨k, hk, h⟩
  · exact .inl h
  · obtain ⟨hprecedes, hoverlaps⟩ := h
    have hk : k ∈ edits.resolved := hk.resolve_left (by simp)
    -- Edits of one range are the same, so that `k` is `e` or strictly in front of it.
    by_cases hrange : k.range = e.range
    · exact .inl (hcons.eq_of_range_eq (mem_of_mem_resolved hk) he hrange ▸ hk)
    · exact .inr ⟨k, hk, Edit.outranks_of_precedes hprecedes hrange,
        (Edit.overlaps_iff_range.1 hoverlaps).symm⟩

variable (hbytes : ∀ e ∈ edits, e.start < e.stop)
include hbytes

omit hcons in
theorem eq_of_overlaps {a b : Edit} (ha : a ∈ edits.resolved) (hb : b ∈ edits.resolved)
    (h : a.range.Overlaps b.range) : a = b := by
  rcases eq_or_before_of_mem (resolved_before hbytes) ha hb with hab | hab | hab
  · exact hab
  · exact absurd h hab.not_overlaps
  · exact absurd h.symm hab.not_overlaps

theorem mem_resolved_iff {e : Edit} (he : e ∈ edits) :
    e ∈ edits.resolved ↔
      ∀ k ∈ edits.resolved, k.range.Outranks e.range → ¬ k.range.Overlaps e.range := by
  constructor
  · intro hkept k hk hrank hover
    obtain rfl := eq_of_overlaps hbytes hk hkept hover
    exact k.range.not_outranks_self hrank
  · intro h
    rcases mem_resolved_or hcons he with hkept | ⟨k, hk, hrank, hover⟩
    · exact hkept
    · exact absurd hover (h k hk hrank)

theorem mem_resolved_iff_outermost
    (hnested : ∀ a ∈ edits, ∀ b ∈ edits, a.range.NestedOrDisjoint b.range) {e : Edit}
    (he : e ∈ edits) :
    e ∈ edits.resolved ↔ ∀ k ∈ edits, e.range.Within k.range → k.range = e.range := by
  constructor
  · intro hkept k hk hwithin
    rcases mem_resolved_or hcons hk with hk' | ⟨j, hj, hrank, hover⟩
    · rw [eq_of_overlaps hbytes hkept hk' (hwithin.overlaps (hbytes e he))]
    · rcases hnested j (mem_of_mem_resolved hj) k hk with hside | hside | hside
      · exact absurd hrank hside.not_outranks
      · -- What keeps `k` out contains it, and with it `e`.
        have hover' := (hwithin.trans hside).overlaps (hbytes e he)
        rw [← eq_of_overlaps hbytes hkept hj hover'] at hside
        exact hside.antisymm hwithin
      · exact absurd hover hside
  · intro houter
    rcases mem_resolved_or hcons he with hkept | ⟨k, hk, hrank, hover⟩
    · exact hkept
    · rcases hnested k (mem_of_mem_resolved hk) e he with hside | hside | hside
      · exact absurd hrank hside.not_outranks
      · rw [houter k (mem_of_mem_resolved hk) hside] at hrank
        exact absurd hrank e.range.not_outranks_self
      · exact absurd hover hside

theorem mem_resolved_filter_iff
    (hnested : ∀ a ∈ edits, ∀ b ∈ edits, a.range.NestedOrDisjoint b.range) {p : Edit → Bool}
    (hp : ∀ a ∈ edits, ∀ b ∈ edits, a.range.Within b.range → p a = true → p b = true) {e : Edit} :
    e ∈ resolved (edits.filter p) ↔ e ∈ edits.resolved ∧ p e = true := by
  have hall {e : Edit} (he : e ∈ edits.filter p) : e ∈ edits := (List.mem_filter.1 he).1
  have houtermost {e : Edit} (he : e ∈ edits) :=
    mem_resolved_iff_outermost hcons hbytes hnested he
  have houtermost' {e : Edit} (he : e ∈ edits.filter p) :=
    mem_resolved_iff_outermost (hcons.filter p) (fun d hd => hbytes d (hall hd))
      (fun a ha b hb => hnested a (hall ha) b (hall hb)) he
  constructor
  · intro he
    have hmem := mem_of_mem_resolved he
    have hpe := (List.mem_filter.1 hmem).2
    refine ⟨(houtermost (hall hmem)).2 fun k hk hwithin => ?_, hpe⟩
    have hpk := hp e (hall hmem) k hk hwithin hpe
    exact (houtermost' hmem).1 he k (List.mem_filter.2 ⟨hk, hpk⟩) hwithin
  · intro h
    obtain ⟨he, hpe⟩ := h
    have hmem := mem_of_mem_resolved he
    refine (houtermost' (List.mem_filter.2 ⟨hmem, hpe⟩)).2 fun k hk => ?_
    exact (houtermost hmem).1 he k (hall hk)

theorem resolved_filter_of_within
    (hnested : ∀ a ∈ edits, ∀ b ∈ edits, a.range.NestedOrDisjoint b.range) {p : Edit → Bool}
    (hp : ∀ a ∈ edits, ∀ b ∈ edits, a.range.Within b.range → p a = true → p b = true) :
    resolved (edits.filter p) = edits.resolved.filter p := by
  have hbytes' : ∀ e ∈ edits.filter p, e.start < e.stop :=
    fun e he => hbytes e (List.mem_filter.1 he).1
  refine eq_of_mem_iff (resolved_before hbytes') ((resolved_before hbytes).filter p)
    (fun e he => hbytes' e (mem_of_mem_resolved he)) fun e => ?_
  rw [List.mem_filter]
  exact mem_resolved_filter_iff hcons hbytes hnested hp

end
end EditSet
end SourceWindow
