import Mathlib.Logic.Function.Iterate
import SourceWindow.Scanner

/-!
The search for the first fault of a tree. What it finds in the end is the first fault among the
nodes ahead of it in document order: no step changes that, and the number of steps is bounded by
the number of nodes. So a strict scan fails just on trees with a fault, at the place of the first.
-/

set_option autoImplicit false

namespace SourceWindow
namespace SyntaxTree

mutual

theorem hasFault_eq_any : (t : SyntaxTree) → t.hasFault = t.preorder.any Node.isFault
  | .node n ts => by rw [hasFault, preorder, List.any_cons, anyFault_eq_any ts]

theorem anyFault_eq_any : (ts : List SyntaxTree) → anyFault ts = (preorderAll ts).any Node.isFault
  | [] => rfl
  | t :: ts => by
    rw [anyFault, preorderAll, List.any_append, hasFault_eq_any t, anyFault_eq_any ts]

end

theorem hasFault_iff {t : SyntaxTree} :
    t.hasFault = true ↔ ∃ n ∈ t.preorder, n.isFault = true := by
  rw [hasFault_eq_any, List.any_eq_true]

theorem find?_preorder_eq_none_iff {t : SyntaxTree} :
    t.preorder.find? Node.isFault = none ↔ t.hasFault = false := by
  rw [hasFault_eq_any, List.find?_eq_none, List.any_eq_false]

theorem Cursor.behind_of_isStart {c : Cursor} (h : c.isStart = true) : c.behind = [] := by
  rw [behind, List.isEmpty_iff.1 h, List.flatMap_nil]

namespace Walk

def outcome : Walk → Option Node
  | .entering c => c.ahead.find? Node.isFault
  | .leaving c => c.behind.find? Node.isFault
  | .ended found => found

theorem Move.outcome_eq {v w : Walk} (h : Move v w) : w.outcome = v.outcome := by
  cases h with
  | @find c hroot => rw [outcome, outcome, c.ahead_eq, List.find?_cons_of_pos hroot]
  | descend hroot hchild =>
    rw [outcome, outcome, (Cursor.firstChild?_spec hchild).1,
      List.find?_cons_of_neg (Bool.eq_false_iff.1 hroot)]
  | skip hroot hclean =>
    rw [outcome, outcome]
    rcases hclean with hsound | hleaf
    · rw [Cursor.ahead, List.find?_append, find?_preorder_eq_none_iff.2 hsound, Option.none_or]
    · rw [Cursor.ahead_of_no_child hleaf, List.find?_cons_of_neg (Bool.eq_false_iff.1 hroot)]
  | finish hstart => rw [outcome, outcome, Cursor.behind_of_isStart hstart, List.find?_nil]
  | advance hsibling => rw [outcome, outcome, (Cursor.nextSibling?_spec hsibling).1]
  | climb hlast hparent => rw [outcome, outcome, (Cursor.parent?_spec hlast hparent).1]

theorem Move.exists_iterate_step {w : Walk} (h : Move w w.step)
    (hrest : ∃ n ≤ w.step.cost, step^[n] w.step = .ended w.step.outcome) :
    ∃ n ≤ w.cost, step^[n] w = .ended w.outcome := by
  obtain ⟨n, hn, hrun⟩ := hrest
  refine ⟨n + 1, Nat.lt_of_le_of_lt hn h.cost_lt, ?_⟩
  rw [Function.iterate_succ_apply, hrun, h.outcome_eq]

/-- The search is over after no more steps than its cost, and what it has found by then is the
first fault that was ahead. -/
theorem exists_iterate_step (w : Walk) : ∃ n ≤ w.cost, step^[n] w = .ended w.outcome := by
  -- Along the search itself, which has one case for each place with a step to take.
  induction w using result.induct with
  | case1 c ih => exact (move_entering c).exists_iterate_step ih
  | case2 c ih => exact (move_leaving c).exists_iterate_step ih
  | case3 found => exact ⟨0, Nat.le_refl _, rfl⟩

theorem result_eq_outcome (w : Walk) : w.result = w.outcome := by
  induction w using result.induct with
  | case1 c ih => rw [result, ih, (move_entering c).outcome_eq]
  | case2 c ih => rw [result, ih, (move_leaving c).outcome_eq]
  | case3 found => rw [result, outcome]

theorem outcome_ofTree (t : SyntaxTree) :
    outcome (.entering (.ofTree t)) = t.preorder.find? Node.isFault := by
  rw [outcome, Cursor.ahead, Cursor.behind_of_isStart rfl, List.append_nil]
  rfl

theorem cost_ofTree (t : SyntaxTree) : cost (.entering (.ofTree t)) = 2 * t.preorder.length := by
  rw [cost, Cursor.ahead, Cursor.behind_of_isStart rfl, List.append_nil]
  rfl

end Walk

theorem firstFault?_eq_find? (t : SyntaxTree) : t.firstFault? = t.preorder.find? Node.isFault := by
  rw [firstFault?, Walk.result_eq_outcome, Walk.outcome_ofTree]

theorem firstFault?_eq_none_iff {t : SyntaxTree} : t.firstFault? = none ↔ t.hasFault = false := by
  rw [firstFault?_eq_find?, find?_preorder_eq_none_iff]

theorem isFault_of_firstFault? {t : SyntaxTree} {n : Node} (h : t.firstFault? = some n) :
    n ∈ t.preorder ∧ n.isFault = true := by
  rw [firstFault?_eq_find?] at h
  have hfault := List.find?_some h
  exact ⟨List.mem_of_find?_eq_some h, hfault⟩

end SyntaxTree

namespace Scanner
variable (config : LanguageConfig) (place : Node → Nat × Nat)
  (captures : Query → SyntaxTree → List LiteralSpan) (tree : SyntaxTree)

theorem scanTree_reject : (Scanner.mk config .reject).scanTree place captures tree =
    match tree.firstFault? with
    | none => .ok (captures config.query tree)
    | some n => .error (.fault config.label ((place n).1 + 1) ((place n).2 + 1)) := by
  cases h : tree.firstFault? with
  | none =>
    rw [scanTree, SyntaxTree.firstFault?_eq_none_iff.1 h]
    rfl
  | some n =>
    rw [scanTree, SyntaxTree.hasFault_iff.2 ⟨n, SyntaxTree.isFault_of_firstFault? h⟩, h]
    rfl

theorem scanTree_reject_isError_iff :
    (∃ e, (Scanner.mk config .reject).scanTree place captures tree = .error e) ↔
      ∃ n ∈ tree.preorder, n.isFault = true := by
  rw [scanTree_reject]
  cases h : tree.firstFault? with
  | none =>
    have hsound := SyntaxTree.firstFault?_eq_none_iff.1 h
    rw [← SyntaxTree.hasFault_iff, hsound]
    simp
  | some n => exact ⟨fun _ => ⟨n, SyntaxTree.isFault_of_firstFault? h⟩, fun _ => ⟨_, rfl⟩⟩

end Scanner

/-- The search for the first fault is over within two steps for each node of the tree, at the
first fault in document order, or with none just if no node is a fault. So a strict scan fails
just on trees with a fault, and its error names the place of the first, from one, however places
are told and literals are taken. -/
theorem SyntaxTree.firstFault?_in_document_order (tree : SyntaxTree) :
    (∃ n ≤ 2 * tree.preorder.length,
      Walk.step^[n] (.entering (.ofTree tree)) = .ended (tree.preorder.find? Node.isFault)) ∧
    tree.firstFault? = tree.preorder.find? Node.isFault ∧
    (tree.firstFault? = none ↔ ∀ n ∈ tree.preorder, n.isFault = false) ∧
    ∀ (config : LanguageConfig) (place : Node → Nat × Nat)
      (captures : Query → SyntaxTree → List LiteralSpan),
      ((∃ e, (Scanner.mk config .reject).scanTree place captures tree = .error e) ↔
        ∃ n ∈ tree.preorder, n.isFault = true) ∧
      ∀ n, tree.firstFault? = some n →
        (Scanner.mk config .reject).scanTree place captures tree =
          .error (.fault config.label ((place n).1 + 1) ((place n).2 + 1)) := by
  refine ⟨?_, tree.firstFault?_eq_find?, ?_, fun config place captures => ⟨?_, ?_⟩⟩
  · rw [← Walk.cost_ofTree, ← Walk.outcome_ofTree]
    exact Walk.exists_iterate_step _
  · simp only [firstFault?_eq_find?, List.find?_eq_none, Bool.not_eq_true]
  · exact Scanner.scanTree_reject_isError_iff config place captures tree
  · intro n hn
    rw [Scanner.scanTree_reject, hn]

theorem SyntaxTree.firstFault?_in_document_order_missing :
    (Scanner.mk (.ofGrammar .javascript) .reject).scanTree
      (fun n => (Text.ofString "a=\x27x\x27;\nb = ;\n)").place n.start) Query.literals
      (.node ⟨.document, .sound, 0, 14⟩
        [.node ⟨.other, .sound, 0, 6⟩ [.node ⟨.string, .sound, 2, 5⟩ []],
          .node ⟨.other, .sound, 7, 12⟩
            [.node ⟨.other, .sound, 7, 8⟩ [], .node ⟨.other, .missing, 11, 11⟩ []],
          .node ⟨.other, .error, 13, 14⟩ []]) =
      .error (.fault .javascript 2 5) :=
  ((firstFault?_in_document_order _).2.2.2 _ _ _).2 ⟨.other, .missing, 11, 11⟩
    ((firstFault?_in_document_order _).2.1.trans rfl)

end SourceWindow
