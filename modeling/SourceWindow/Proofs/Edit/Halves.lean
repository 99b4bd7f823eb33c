import SourceWindow.Proofs.Edit.Resolution

set_option autoImplicit false

namespace SourceWindow

def Edit.movedBy (bytes : Nat) (e : Edit) : Edit :=
  ⟨bytes + e.start, bytes + e.stop, e.replacement⟩

namespace EditSet

theorem keepApart_append {last : Option Edit} {es ds : List Edit}
    (hlast : ∀ l ∈ last, ∀ d ∈ ds, l.Before d) (h : ∀ e ∈ es, ∀ d ∈ ds, e.Before d) :
    keepApart last (es ++ ds) = keepApart last es ++ keepApart none ds := by
  induction es generalizing last with
  | nil =>
    cases ds with
    | nil => rfl
    | cons d ds =>
      rw [List.nil_append, keepApart_cons_of_before fun l hl => hlast l hl d List.mem_cons_self]
      rfl
  | cons e es ih =>
    have hes : ∀ c ∈ es, ∀ d ∈ ds, c.Before d := fun c hc => h c (List.mem_cons_of_mem e hc)
    have he : ∀ l ∈ some e, ∀ d ∈ ds, l.Before d := by
      simpa using h e List.mem_cons_self
    by_cases hover : last.any e.overlaps = true
    · simp [keepApart, hover, ih hlast hes]
    · simp [keepApart, hover, ih he hes]

theorem resolved_append {es ds : EditSet} (hcons : Consistent (es ++ ds))
    (hbytes : ∀ e ∈ es, e.start < e.stop) (h : ∀ e ∈ es, ∀ d ∈ ds, e.Before d) :
    resolved (es ++ ds) = es.resolved ++ ds.resolved := by
  have hsorted : (es.mergeSort Edit.precedes ++ ds.mergeSort Edit.precedes).Pairwise
      fun a b => a.precedes b = true := by
    refine List.pairwise_append.2 ⟨mergeSort_precedes es, mergeSort_precedes ds,
      fun e he d hd => ?_⟩
    rw [List.mem_mergeSort] at he hd
    exact (h e he d hd).precedes (hbytes e he)
  have hperm := (List.mergeSort_perm es Edit.precedes).append (List.mergeSort_perm ds Edit.precedes)
  rw [resolved, ← eq_mergeSort_of_perm hcons hsorted hperm]
  refine keepApart_append (by simp) fun e he d hd => ?_
  rw [List.mem_mergeSort] at he hd
  exact h e he d hd

theorem keepApart_movedBy (bytes : Nat) (last : Option Edit) (es : List Edit) :
    keepApart (last.map (·.movedBy bytes)) (es.map (·.movedBy bytes)) =
      (keepApart last es).map (·.movedBy bytes) := by
  have hoverlaps (a b : Edit) :
      (a.movedBy bytes).overlaps (b.movedBy bytes) = a.overlaps b := by
    simp [Edit.overlaps, Edit.movedBy]
  induction es generalizing last with
  | nil => rfl
  | cons e es ih =>
    have hany : (last.map (·.movedBy bytes)).any (e.movedBy bytes).overlaps =
        last.any e.overlaps := by
      cases last <;> simp [hoverlaps]
    have hnext := ih (some e)
    rw [Option.map_some] at hnext
    rw [List.map_cons, keepApart, keepApart, hany]
    split
    · exact ih last
    · rw [hnext, List.map_cons]

theorem resolved_movedBy (bytes : Nat) (edits : EditSet) :
    resolved (edits.map (·.movedBy bytes)) = edits.resolved.map (·.movedBy bytes) := by
  have hprecedes (a b : Edit) :
      a.precedes b = (a.movedBy bytes).precedes (b.movedBy bytes) := by
    rw [Bool.eq_iff_iff, Edit.precedes_iff, Edit.precedes_iff]
    simp only [Edit.movedBy]
    omega
  have hsort : (edits.mergeSort Edit.precedes).map (·.movedBy bytes) =
      (edits.map (·.movedBy bytes)).mergeSort Edit.precedes :=
    List.map_mergeSort fun a _ b _ => hprecedes a b
  rw [resolved, ← hsort]
  exact keepApart_movedBy bytes none _

end EditSet
end SourceWindow
