import SourceWindow.Edit

/-!
Resolution of overlapping edits. Edits that each take up a byte are resolved to edits one behind the
other, and to resolve these again changes nothing.
-/

set_option autoImplicit false

section
variable {α : Type} {le : α → α → Bool}
  (trans : ∀ a b c, le a b = true → le b c = true → le a c = true)
  (total : ∀ a b, (le a b || le b a) = true)
include trans total

theorem List.mergeSort_cons_eq (a : α) (l : List α) :
    let before := (l.mergeSort le).filter fun b => !le a b
    let behind := (l.mergeSort le).filter (le a)
    (a :: l).mergeSort le = before ++ a :: behind ∧ l.mergeSort le = before ++ behind := by
  obtain ⟨l₁, l₂, hsort, hl, hbefore⟩ := List.mergeSort_cons trans total a l
  have hsorted := List.pairwise_mergeSort trans total (a :: l)
  rw [hsort] at hsorted
  have hbehind := (List.pairwise_cons.1 (List.pairwise_append.1 hsorted).2.1).1
  have h₁ : (l₁ ++ l₂).filter (fun b => !le a b) = l₁ := by
    rw [List.filter_append, List.filter_eq_self.2 hbefore, List.filter_eq_nil_iff.2,
      List.append_nil]
    exact fun b hb => by simp [hbehind b hb]
  have h₂ : (l₁ ++ l₂).filter (le a) = l₂ := by
    rw [List.filter_append, List.filter_eq_self.2 hbehind, List.filter_eq_nil_iff.2,
      List.nil_append]
    exact fun b hb => by simpa using hbefore b hb
  rw [hl, h₁, h₂]
  exact ⟨hsort, rfl⟩

theorem List.mergeSort_filter (p : α → Bool) (l : List α) :
    (l.filter p).mergeSort le = (l.mergeSort le).filter p := by
  induction l with
  | nil => simp
  | cons a l ih =>
    obtain ⟨hcons, hl⟩ := mergeSort_cons_eq trans total a l
    by_cases ha : p a = true
    · rw [List.filter_cons_of_pos ha, (mergeSort_cons_eq trans total a _).1, ih, hcons,
        List.filter_append, List.filter_cons_of_pos ha]
      simp only [List.filter_filter, Bool.and_comm]
    · rw [List.filter_cons_of_neg ha, ih, hcons, List.filter_append, List.filter_cons_of_neg ha,
        ← List.filter_append, ← hl]

end

namespace SourceWindow

namespace Edit

def Before (a b : Edit) : Prop := a.stop ≤ b.start

theorem precedes_iff {a b : Edit} :
    a.precedes b = true ↔ a.start < b.start ∨ a.start = b.start ∧ b.stop ≤ a.stop := by
  simp [precedes]

theorem precedes_trans (a b c : Edit) (hab : a.precedes b = true) (hbc : b.precedes c = true) :
    a.precedes c = true := by
  rw [precedes_iff] at *
  omega

theorem precedes_total (a b : Edit) : (a.precedes b || b.precedes a) = true := by
  rw [Bool.or_eq_true, precedes_iff, precedes_iff]
  omega

theorem overlaps_iff {a b : Edit} :
    a.overlaps b = true ↔ a.start < b.stop ∧ b.start < a.stop := by
  simp [overlaps]

theorem Before.precedes {a b : Edit} (h : a.Before b) (ha : a.start < a.stop) :
    a.precedes b = true := by
  unfold Before at h
  rw [precedes_iff]
  omega

end Edit

namespace EditSet

theorem keepApart_sublist (last : Option Edit) (es : List Edit) :
    (keepApart last es).Sublist es := by
  induction es generalizing last with
  | nil => exact .slnil
  | cons e es ih =>
    unfold keepApart
    split
    · exact (ih last).cons e
    · exact (ih (some e)).cons_cons e

/-- In order of their starts, an edit that does not overlap the one kept last lies behind it, and so
do all that are kept later: the last one kept reaches furthest. -/
theorem keepApart_before (last : Option Edit) {es : List Edit}
    (hsorted : es.Pairwise fun a b => a.start ≤ b.start) (hbytes : ∀ e ∈ es, e.start < e.stop)
    (hlast : ∀ l ∈ last, l.start < l.stop ∧ ∀ e ∈ es, l.start ≤ e.start) :
    (keepApart last es).Pairwise Edit.Before ∧
      ∀ l ∈ last, ∀ e ∈ keepApart last es, l.Before e := by
  induction es generalizing last with
  | nil => simp [keepApart]
  | cons e es ih =>
    obtain ⟨he, hsorted⟩ := List.pairwise_cons.1 hsorted
    have hpos := hbytes e (by simp)
    have hbytes' : ∀ d ∈ es, d.start < d.stop := fun d hd => hbytes d (by simp [hd])
    unfold keepApart
    split
    · exact ih last hsorted hbytes' fun l hl =>
        ⟨(hlast l hl).1, fun d hd => (hlast l hl).2 d (by simp [hd])⟩
    · rename_i hapart
      obtain ⟨hkept, hbehind⟩ := ih (some e) hsorted hbytes' (by simpa using ⟨hpos, he⟩)
      have hbehind := hbehind e rfl
      refine ⟨List.pairwise_cons.2 ⟨hbehind, hkept⟩, fun l hl d hd => ?_⟩
      have hle : l.Before e := by
        have hno : ¬ e.overlaps l = true := by
          rw [Option.mem_def.1 hl] at hapart
          exact hapart
        have hstart := (hlast l hl).2 e (by simp)
        rw [Edit.overlaps_iff] at hno
        unfold Edit.Before
        omega
      rcases List.mem_cons.1 hd with rfl | hd
      · exact hle
      · have h := hbehind d hd
        unfold Edit.Before at *
        omega

theorem keepApart_cons_of_before {last : Option Edit} {e : Edit} (h : ∀ l ∈ last, l.Before e)
    (es : List Edit) : keepApart last (e :: es) = e :: keepApart (some e) es := by
  have hapart : ¬ last.any e.overlaps = true := by
    cases last with
    | none => simp
    | some l =>
      have hle := h l rfl
      unfold Edit.Before at hle
      rw [Option.any_some, Edit.overlaps_iff]
      omega
  rw [keepApart, if_neg hapart]

theorem keepApart_eq_self {last : Option Edit} {es : List Edit} (h : es.Pairwise Edit.Before)
    (hlast : ∀ l ∈ last, ∀ e ∈ es, l.Before e) : keepApart last es = es := by
  induction es generalizing last with
  | nil => rfl
  | cons e es ih =>
    obtain ⟨he, h⟩ := List.pairwise_cons.1 h
    rw [keepApart_cons_of_before fun l hl => hlast l hl e List.mem_cons_self,
      ih h (by simpa using he)]

theorem mem_of_mem_resolved {edits : EditSet} {e : Edit} (h : e ∈ edits.resolved) : e ∈ edits :=
  List.mem_mergeSort.1 ((keepApart_sublist _ _).subset h)

theorem mergeSort_precedes (edits : EditSet) :
    (edits.mergeSort Edit.precedes).Pairwise fun a b => a.precedes b = true :=
  List.pairwise_mergeSort Edit.precedes_trans Edit.precedes_total edits

theorem mergeSort_starts_le (edits : EditSet) :
    (edits.mergeSort Edit.precedes).Pairwise fun a b => a.start ≤ b.start :=
  (mergeSort_precedes edits).imp fun {a b} hab => by
    rw [Edit.precedes_iff] at hab
    omega

theorem resolved_of_precedes {edits : EditSet}
    (h : edits.Pairwise fun a b => a.precedes b = true) : edits.resolved = keepApart none edits := by
  rw [resolved, List.mergeSort_of_pairwise h]

theorem resolved_before {edits : EditSet} (h : ∀ e ∈ edits, e.start < e.stop) :
    edits.resolved.Pairwise Edit.Before := by
  have hbytes : ∀ e ∈ edits.mergeSort Edit.precedes, e.start < e.stop :=
    fun e he => h e (List.mem_mergeSort.1 he)
  exact (keepApart_before none (mergeSort_starts_le edits) hbytes (by simp)).1

theorem eq_or_before_of_mem {es : List Edit} (h : es.Pairwise Edit.Before) {a b : Edit}
    (ha : a ∈ es) (hb : b ∈ es) : a = b ∨ a.Before b ∨ b.Before a :=
  List.Pairwise.forall_of_forall_of_flip (R := fun a b => a = b ∨ a.Before b ∨ b.Before a)
    (fun _ _ => .inl rfl) (h.imp fun hab => .inr (.inl hab)) (h.imp fun hab => .inr (.inr hab))
    ha hb

theorem nodup_of_before {es : List Edit} (h : es.Pairwise Edit.Before)
    (hbytes : ∀ e ∈ es, e.start < e.stop) : es.Nodup := by
  refine List.Pairwise.imp_of_mem (fun {a b} ha _ hab heq => ?_) h
  have hpos := hbytes a ha
  subst heq
  unfold Edit.Before at hab
  omega

theorem eq_of_mem_iff {es ds : List Edit} (hes : es.Pairwise Edit.Before)
    (hds : ds.Pairwise Edit.Before) (hbytes : ∀ e ∈ es, e.start < e.stop)
    (h : ∀ e, e ∈ es ↔ e ∈ ds) : es = ds := by
  have hbytes' : ∀ e ∈ ds, e.start < e.stop := fun e he => hbytes e ((h e).2 he)
  have hperm := (List.perm_ext_iff_of_nodup (nodup_of_before hes hbytes)
    (nodup_of_before hds hbytes')).2 h
  refine List.Perm.eq_of_pairwise (fun a b ha hb hab hba => ?_) hes hds hperm
  have ha := hbytes a ha
  have hb := hbytes' b hb
  unfold Edit.Before at hab hba
  omega

/-- Edits of one range put the same text in its place. -/
def Consistent (edits : EditSet) : Prop :=
  ∀ a ∈ edits, ∀ b ∈ edits, a.start = b.start → a.stop = b.stop → a = b

theorem consistent_of_before {es : List Edit} (h : es.Pairwise Edit.Before)
    (hbytes : ∀ e ∈ es, e.start < e.stop) : Consistent es := by
  intro a ha b hb hstart hstop
  have hpos := hbytes a ha
  rcases eq_or_before_of_mem h ha hb with hab | hab | hab
  · exact hab
  · unfold Edit.Before at hab
    omega
  · unfold Edit.Before at hab
    omega

theorem eq_mergeSort_of_perm {edits : EditSet} {es : List Edit} (hcons : Consistent edits)
    (hsorted : es.Pairwise fun a b => a.precedes b = true) (hperm : es.Perm edits) :
    es = edits.mergeSort Edit.precedes := by
  refine List.Perm.eq_of_pairwise (fun a b ha hb hab hba => ?_) hsorted (mergeSort_precedes edits)
    (hperm.trans (List.mergeSort_perm _ _).symm)
  rw [Edit.precedes_iff] at hab hba
  exact hcons a (hperm.subset ha) b (List.mem_mergeSort.1 hb) (by omega) (by omega)

theorem resolved_of_perm {edits : EditSet} {es : List Edit} (hperm : edits.Perm es)
    (h : es.Pairwise Edit.Before) (hbytes : ∀ e ∈ es, e.start < e.stop) :
    edits.resolved = es := by
  have hsorted : es.Pairwise fun a b => a.precedes b = true :=
    List.Pairwise.imp_of_mem (fun ha _ hab => hab.precedes (hbytes _ ha)) h
  have hcons : Consistent edits := fun a ha b hb =>
    consistent_of_before h hbytes a (hperm.subset ha) b (hperm.subset hb)
  rw [resolved, ← eq_mergeSort_of_perm hcons hsorted hperm.symm, keepApart_eq_self h (by simp)]

end EditSet
end SourceWindow
