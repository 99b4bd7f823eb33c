import SourceWindow.Syntax.Outline

/-!
Where a source departs from its language. At a token that may not follow, either a token is
supplied, or text is discarded, what was read last and what comes next, until a token fits. Such
readings go on side by side, and the cheapest one that reaches the end tells the first fault.
-/

set_option autoImplicit false

namespace SourceWindow

structure Item (σ : Type) where
  before : σ
  start : Nat
  stop : Nat
  weight : Nat
  cost : Nat := 0
  fault : Option Fault := none
  stray : Bool := false

namespace Item

variable {σ : Type}

def supplyCost : Nat := 610

def discardCost (weight extent inner : Nat) : Nat := 500 + 100 * weight + extent + inner

/-- A literal without closing mark counts for its mark and its content. -/
def ofToken (before : σ) (t : Token) : Item σ :=
  let weight := match t.shape with
    | .unclosed _ => if t.start + 1 < t.stop then 2 else 1
    | _ => 1
  { before, start := t.start, stop := t.stop, weight }

def missing (before : σ) (start stop : Nat) : Item σ :=
  { before, start, stop, weight := 1, cost := supplyCost, fault := some ⟨.missing, stop, stop⟩ }

def totalCost : List (Item σ) → Nat
  | [] => 0
  | i :: is => i.cost + totalCost is

def totalWeight : List (Item σ) → Nat
  | [] => 0
  | i :: is => i.weight + totalWeight is

def stopOf (first : Item σ) (later : List (Item σ)) : Nat := ((later.getLast?).getD first).stop

def join (first : Item σ) (later : List (Item σ)) : Item σ where
  before := first.before
  start := first.start
  stop := stopOf first later
  weight := 1
  cost := totalCost (first :: later)
  fault := (first :: later).findSome? (·.fault)

def discard (first : Item σ) (later : List (Item σ)) : Item σ :=
  let stop := stopOf first later
  let weight := totalWeight (first :: later)
  { before := first.before
    start := first.start
    stop
    weight
    cost := discardCost weight (stop - first.start) (totalCost (first :: later))
    fault := some ⟨.error, first.start, stop⟩
    stray := true }

def discardMore (e first : Item σ) (later : List (Item σ)) : Item σ :=
  let stop := stopOf first later
  let weight := totalWeight (first :: later)
  { e with
    stop
    weight := e.weight + weight
    cost := e.cost + 100 * weight + (stop - e.stop) + totalCost (first :: later)
    fault := e.fault.map fun f => { f with stop } }

end Item

/-- A way to read the tokens so far. -/
structure Reading (σ : Type) where
  items : List (Item σ) := []
  state : σ
  /-- What was left out since a token that may not follow, the last first. -/
  left : Option (List (Item σ)) := none

namespace Reading

variable {σ : Type}

def isLost (r : Reading σ) : Bool := r.left.isSome

def leftCost : List (Item σ) → Nat
  | [] => Item.discardCost 0 0 0
  | last :: earlier =>
    let first := (earlier.getLast?).getD last
    Item.discardCost (Item.totalWeight (last :: earlier)) (last.stop - first.start) 0

def cost (r : Reading σ) : Nat := Item.totalCost r.items + (r.left.map leftCost).getD 0

def firstFault? (r : Reading σ) : Option Fault := r.items.reverse.findSome? (·.fault)

def stop (r : Reading σ) : Nat := (r.items.head?.map (·.stop)).getD 0

/-- Adds an item after which the state is `next`; a bracket that it closes becomes one item. -/
def push (o : Outline σ) (r : Reading σ) (i : Item σ) (next : σ) : Reading σ :=
  let depth := o.depth next
  let inside := r.items.takeWhile fun j => depth < o.depth j.before
  match r.items.drop inside.length with
  | first :: earlier =>
    if depth < o.depth i.before then ⟨first.join (inside.reverse ++ [i]) :: earlier, next, none⟩
    else ⟨i :: r.items, next, none⟩
  | [] => ⟨i :: r.items, next, none⟩

def settle (o : Outline σ) (r : Reading σ) : Reading σ :=
  let inside := r.items.takeWhile fun j => o.depth r.state ≤ o.depth j.before
  match inside.reverse with
  | [] => r
  | first :: later => { r with items := first.join later :: r.items.drop inside.length }

def step? (o : Outline σ) (r : Reading σ) (t : Token) : Option (Reading σ) :=
  (o.step r.state t).map fun next =>
    let r := if o.begins r.state t then r.settle o else r
    r.push o (.ofToken r.state t) next

def supplied? (o : Outline σ) (r : Reading σ) (t : Token) : Option (Reading σ) :=
  (o.supplies r.state (some t.shape)).findSome? fun shape => do
    let next ← o.step r.state ⟨shape, r.stop, r.stop⟩
    (r.push o (.missing r.state r.stop r.stop) next).step? o t

def completed? (o : Outline σ) (r : Reading σ) (t : Token) (rest : List Token) :
    Option (Reading σ) :=
  match t.shape with
  | .unclosed name => do
    let next ← o.step r.state ⟨.literal name, t.start, t.stop⟩
    let follows := match rest.find? fun u => u.shape != .line && u.shape != .blank with
      | some u => (o.step next u).isSome
      | none => o.completes name && o.ends next
    if follows then some (r.push o (.missing r.state t.start t.stop) next) else none
  | _ => none

def finished? (o : Outline σ) (r : Reading σ) : Option (Reading σ) :=
  (o.supplies r.state none).findSome? fun shape => do
    let next ← o.step r.state ⟨shape, r.stop, r.stop⟩
    if o.ends next then some (r.push o (.missing r.state r.stop r.stop) next) else none

def back? (accepts : σ → Bool) (first : Item σ) (later : List (Item σ)) :
    List (Item σ) → Option (Item σ × List (Item σ) × List (Item σ))
  | [] => if accepts first.before then some (first, later, []) else none
  | i :: earlier =>
    if accepts first.before then some (first, later, i :: earlier)
    else back? accepts i (first :: later) earlier

def recovered? (r : Reading σ) (accepts : σ → Bool) : Option (Reading σ) := do
  let (first, later, earlier) ←
    match (r.left.getD []).reverse, r.items with
    | first :: later, items => back? accepts first later items
    | [], i :: items => back? accepts i [] items
    | [], [] => none
  match earlier with
  | [] => some ⟨[first.discard later], first.before, none⟩
  | e :: rest =>
    if e.stray then some ⟨e.discardMore first later :: rest, first.before, none⟩
    else some ⟨first.discard later :: e :: rest, first.before, none⟩

def leaveOut (r : Reading σ) (t : Token) : Reading σ :=
  { r with left := some (.ofToken r.state t :: r.left.getD []) }

def cheapest? : List (Reading σ) → Option (Reading σ)
  | [] => none
  | r :: rs =>
    match cheapest? rs with
    | some s => some (if s.cost < r.cost then s else r)
    | none => some r

/-- Leaves a token out, or goes back to where it may stand, unless another reading has come to that
state. -/
def recover [DecidableEq σ] (o : Outline σ) (t : Token) (others : List (Reading σ))
    (r : Reading σ) : List (Reading σ) :=
  let accepts := fun s => (o.step s t).isSome && others.all (·.state != s)
  r.leaveOut t :: ((r.recovered? accepts).bind (·.step? o t)).toList

/-- Readings that still look for a place to go on are given up when one that goes on is cheaper. -/
def prune (rs : List (Reading σ)) : List (Reading σ) :=
  match cheapest? (rs.filter (!·.isLost)) with
  | some best => rs.filter fun r => !r.isLost || r.cost ≤ best.cost
  | none => rs

/-- The readings after a token. Where it fits none, the cheapest one is mended. -/
def advance [DecidableEq σ] (o : Outline σ) (t : Token) (rest : List Token)
    (rs : List (Reading σ)) : List (Reading σ) :=
  let (lost, firm) := rs.partition (·.isLost)
  let moved := firm.filterMap (·.step? o t)
  if moved.isEmpty && lost.isEmpty then
    match cheapest? rs with
    | some r =>
      let mended := (r.completed? o t rest <|> r.supplied? o t).toList
      prune (mended ++ recover o t [] { r with left := some [] })
    | none => []
  else prune (moved ++ lost.flatMap (recover o t firm))

def endLine (o : Outline σ) (t : Token) (r : Reading σ) : Reading σ :=
  if r.isLost then r else { r with state := (o.step r.state t).getD r.state }

/-- The fault of the cheapest reading of the whole source, of equals the last. -/
def conclude (o : Outline σ) (rs : List (Reading σ)) : Option Fault :=
  let ended := rs.filter fun r => !r.isLost && o.ends r.state
  let recovered := (rs.filter (·.isLost)).filterMap (·.recovered? o.rests)
  let mended := match cheapest? rs with
    | some r =>
      (r.finished? o).toList ++ (Reading.recovered? { r with left := some [] } o.rests).toList
    | none => []
  let found := ended ++ recovered
  match cheapest? (if found.isEmpty then mended else found).reverse with
  | some r => r.firstFault?
  | none => some ⟨.error, 0, (cheapest? rs).elim 0 stop⟩

def faultFrom [DecidableEq σ] (o : Outline σ) (rs : List (Reading σ)) :
    List Token → Option Fault
  | [] => conclude o rs
  | t :: ts =>
    match t.shape with
    | .blank => faultFrom o rs ts
    | .line => faultFrom o (rs.map (endLine o t)) ts
    | _ => faultFrom o (advance o t ts rs) ts

end Reading

def Outline.fault? {σ : Type} [DecidableEq σ] (o : Outline σ) (ts : List Token) : Option Fault :=
  Reading.faultFrom o [{ state := o.initial }] ts

end SourceWindow
