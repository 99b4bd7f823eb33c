/-!
Syntax trees whose nodes may be marked as faults, and a cursor that moves over them. The cursor
looks for the first fault in document order and enters only trees that hold one.
-/

set_option autoImplicit false

namespace SourceWindow

/-- What a node stands for. Names that no literal bears are kept for nesting only. -/
inductive NodeName where
  | document
  | string
  | templateString
  | templateType
  | element
  | stringLiteral
  | rawStringLiteral
  | interpretedStringLiteral
  | rawString
  | other
  deriving DecidableEq, Repr

inductive Mark where
  | sound
  | error
  | missing
  deriving DecidableEq, Repr

structure Node where
  name : NodeName
  mark : Mark
  start : Nat
  stop : Nat
  deriving DecidableEq, Repr

def Node.isFault (n : Node) : Bool := n.mark != .sound

inductive SyntaxTree where
  | node (root : Node) (children : List SyntaxTree)

namespace SyntaxTree

def root : SyntaxTree → Node
  | .node n _ => n

def children : SyntaxTree → List SyntaxTree
  | .node _ ts => ts

mutual

def hasFault : SyntaxTree → Bool
  | .node n ts => n.isFault || anyFault ts

def anyFault : List SyntaxTree → Bool
  | [] => false
  | t :: ts => t.hasFault || anyFault ts

end

mutual

def preorder : SyntaxTree → List Node
  | .node n ts => n :: preorderAll ts

def preorderAll : List SyntaxTree → List Node
  | [] => []
  | t :: ts => t.preorder ++ preorderAll ts

end

theorem preorder_eq (t : SyntaxTree) : t.preorder = t.root :: preorderAll t.children := by
  cases t
  rw [preorder, root, children]

structure Level where
  later : List SyntaxTree
  parent : SyntaxTree

/-- A place in a tree: the tree below it and the levels above it, the nearest first. The tree it
was started on has no level above, so that no move leaves it. -/
structure Cursor where
  tree : SyntaxTree
  above : List Level

namespace Cursor

def ofTree (t : SyntaxTree) : Cursor := ⟨t, []⟩

def isStart (c : Cursor) : Bool := c.above.isEmpty

def firstChild? (c : Cursor) : Option Cursor :=
  match c.tree.children with
  | [] => none
  | t :: ts => some ⟨t, ⟨ts, c.tree⟩ :: c.above⟩

def nextSibling? (c : Cursor) : Option Cursor :=
  match c.above with
  | ⟨t :: ts, p⟩ :: above => some ⟨t, ⟨ts, p⟩ :: above⟩
  | _ => none

def parent? (c : Cursor) : Option Cursor :=
  match c.above with
  | ⟨_, p⟩ :: above => some ⟨p, above⟩
  | [] => none

def behind (c : Cursor) : List Node := c.above.flatMap fun l => preorderAll l.later

def ahead (c : Cursor) : List Node := c.tree.preorder ++ c.behind

variable {c d p : Cursor}

theorem ahead_eq (c : Cursor) :
    c.ahead = c.tree.root :: (preorderAll c.tree.children ++ c.behind) := by
  rw [ahead, preorder_eq, List.cons_append]

theorem length_behind_lt (c : Cursor) : c.behind.length < c.ahead.length := by
  rw [ahead_eq, List.length_cons, List.length_append]
  omega

theorem firstChild?_spec (h : c.firstChild? = some d) :
    c.ahead = c.tree.root :: d.ahead ∧ d.above.length = c.above.length + 1 := by
  unfold firstChild? at h
  split at h
  · cases h
  · rename_i t ts hchildren
    cases h
    rw [ahead_eq, hchildren, preorderAll, List.append_assoc]
    exact ⟨rfl, rfl⟩

theorem ahead_of_no_child (h : c.firstChild? = none) : c.ahead = c.tree.root :: c.behind := by
  unfold firstChild? at h
  split at h
  · rename_i hchildren
    rw [ahead_eq, hchildren]
    rfl
  · cases h

theorem nextSibling?_spec (h : c.nextSibling? = some d) :
    c.behind = d.ahead ∧ d.above.length = c.above.length := by
  obtain ⟨u, above⟩ := c
  unfold nextSibling? at h
  split at h
  · rename_i t ts parent above habove
    cases h
    cases habove
    refine ⟨?_, rfl⟩
    rw [behind, List.flatMap_cons, preorderAll, List.append_assoc]
    rfl
  · cases h

theorem parent?_spec (hlast : c.nextSibling? = none) (h : c.parent? = some p) :
    c.behind = p.behind ∧ c.above.length = p.above.length + 1 := by
  obtain ⟨t, above⟩ := c
  match above with
  | [] => cases h
  | ⟨[], parent⟩ :: above => cases h; exact ⟨rfl, rfl⟩
  | ⟨_ :: _, _⟩ :: _ => cases hlast

theorem isStart_of_no_parent (h : c.parent? = none) : c.isStart = true := by
  unfold parent? at h
  split at h
  · cases h
  · rename_i habove
    rw [isStart, habove, List.isEmpty_nil]

end Cursor

/-- A search for the first fault by moves of a cursor: it comes to a node, it is done with all at
and below a node, or it is over. -/
inductive Walk where
  | entering (c : Cursor)
  | leaving (c : Cursor)
  | ended (found : Option Node)

namespace Walk

/-- Enters only trees that hold a fault, and climbs to the nearest ancestor with a later sibling. -/
def step : Walk → Walk
  | .entering c =>
    if c.tree.root.isFault then .ended (some c.tree.root)
    else match if c.tree.hasFault then c.firstChild? else none with
      | some d => .entering d
      | none => .leaving c
  | .leaving c =>
    if c.isStart then .ended none
    else match c.nextSibling? with
      | some d => .entering d
      | none =>
        match c.parent? with
        | some p => .leaving p
        | none => .ended none
  | .ended found => .ended found

inductive Move : Walk → Walk → Prop where
  | find {c : Cursor} : c.tree.root.isFault = true →
      Move (.entering c) (.ended (some c.tree.root))
  | descend {c d : Cursor} : c.tree.root.isFault = false → c.firstChild? = some d →
      Move (.entering c) (.entering d)
  | skip {c : Cursor} : c.tree.root.isFault = false →
      c.tree.hasFault = false ∨ c.firstChild? = none → Move (.entering c) (.leaving c)
  | finish {c : Cursor} : c.isStart = true → Move (.leaving c) (.ended none)
  | advance {c d : Cursor} : c.nextSibling? = some d → Move (.leaving c) (.entering d)
  | climb {c p : Cursor} : c.nextSibling? = none → c.parent? = some p →
      Move (.leaving c) (.leaving p)

theorem move_entering (c : Cursor) : Move (.entering c) (step (.entering c)) := by
  simp only [step]
  split
  · rename_i hroot
    exact .find hroot
  · rename_i hroot
    have hsound := Bool.eq_false_iff.2 hroot
    by_cases hfault : c.tree.hasFault = true
    · rw [if_pos hfault]
      split
      · rename_i d hchild
        exact .descend hsound hchild
      · rename_i hnone
        exact .skip hsound (.inr hnone)
    · rw [if_neg hfault]
      exact .skip hsound (.inl (Bool.eq_false_iff.2 hfault))

theorem move_leaving (c : Cursor) : Move (.leaving c) (step (.leaving c)) := by
  simp only [step]
  split
  · rename_i hstart
    exact .finish hstart
  · rename_i hstart
    split
    · rename_i d hsibling
      exact .advance hsibling
    · rename_i hlast
      split
      · rename_i p hparent
        exact .climb hlast hparent
      · rename_i hnone
        exact absurd (Cursor.isStart_of_no_parent hnone) hstart

/-- Steps that are left at most. -/
def cost : Walk → Nat
  | .entering c => 2 * c.ahead.length + c.above.length
  | .leaving c => 2 * c.behind.length + c.above.length + 1
  | .ended _ => 0

theorem Move.cost_lt {v w : Walk} (h : Move v w) : w.cost < v.cost := by
  cases h with
  | @find c _ | @skip c _ _ =>
    have hbehind := c.length_behind_lt
    simp only [cost]
    omega
  | descend _ hchild =>
    obtain ⟨hahead, hdepth⟩ := Cursor.firstChild?_spec hchild
    simp only [cost, hahead, hdepth, List.length_cons]
    omega
  | finish _ => exact Nat.succ_pos _
  | advance hsibling =>
    obtain ⟨hbehind, hdepth⟩ := Cursor.nextSibling?_spec hsibling
    simp only [cost, hbehind, hdepth]
    omega
  | climb hlast hparent =>
    obtain ⟨hbehind, hdepth⟩ := Cursor.parent?_spec hlast hparent
    simp only [cost, hbehind, hdepth]
    omega

def result : Walk → Option Node
  | .entering c => (step (.entering c)).result
  | .leaving c => (step (.leaving c)).result
  | .ended found => found
termination_by w => w.cost
decreasing_by
  · exact (move_entering c).cost_lt
  · exact (move_leaving c).cost_lt

end Walk

def firstFault? (t : SyntaxTree) : Option Node := (Walk.entering (.ofTree t)).result

end SyntaxTree
end SourceWindow
