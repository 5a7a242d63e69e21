import Mp2mp.Kit.Exec
import Mp2mp.Lib.Prefix

/-!
# The route table

`lib/table.c`: a path-compressed trie of nodes that refer to each other by address.  A node is
freed when its last lock is dropped, unless it holds two subtrees together, and whoever follows
the address of a freed node has made a mistake that the model reports as a fault.

The lock of a node is a natural number here, so `2 ^ 32` locks that are held at once on one node
are not wrapped to none.  Addresses of freed nodes are not given out again.

* `TableEvent`, `tableStep`: what the users of a table do with it.
* `Kit.BitTrie.Trie` is what is left of a table when locks and contents are forgotten (`view`).
-/

namespace Mp2mp.Lib

open Kit Kit.BitTrie

/-- Where the code stops: at a freed node, at an `assert`, or in a loop that does not end. -/
inductive Fault
  | freed
  | assertion
  | fuel
deriving DecidableEq, Repr

/-- `struct route_node`; `info` is what the user of the table keeps there. -/
structure RouteNode (α : Type) where
  p : Prefix
  parent : Option Nat := none
  left : Option Nat := none
  right : Option Nat := none
  lock : Nat := 0
  info : Option α := none
deriving DecidableEq, Repr

variable {α : Type}

namespace RouteNode

/-- `link[2]` -/
def link (n : RouteNode α) : Bool → Option Nat
  | false => n.left
  | true => n.right

def setLink (n : RouteNode α) (b : Bool) (c : Option Nat) : RouteNode α :=
  if b then { n with right := c } else { n with left := c }

end RouteNode

/-- `struct route_table` with the nodes that are allocated; `fresh` is the next address. -/
structure RouteTable (α : Type) where
  node : Nat → Option (RouteNode α) := fun _ => none
  top : Option Nat := none
  count : Nat := 0
  fresh : Nat := 0

namespace RouteTable

/-- Write to the node at an address. -/
def adjust (s : RouteTable α) (id : Nat) (f : RouteNode α → RouteNode α) : RouteTable α :=
  { s with node := Function.update s.node id ((s.node id).map f) }

def alloc (s : RouteTable α) (n : RouteNode α) : RouteTable α :=
  { s with node := Function.update s.node s.fresh (some n), fresh := s.fresh + 1 }

def free (s : RouteTable α) (id : Nat) : RouteTable α :=
  { s with node := Function.update s.node id none }

end RouteTable

abbrev Op (α : Type) := EStateM Fault (RouteTable α)

def deref (id : Nat) : Op α (RouteNode α) := do
  match (← get).node id with
  | some n => pure n
  | none => throw .freed

def modifyNode (id : Nat) (f : RouteNode α → RouteNode α) : Op α Unit := do
  let _ ← deref id
  modify (·.adjust id f)

/-- What a loop that only reads the nodes comes to.  One that comes to nothing met a freed node or
did not end. -/
def loop {β : Type} (f : RouteTable α → Option β) : Op α β := do
  match f (← get) with
  | some b => pure b
  | none => throw .fuel

/-! ## Locks and deletion -/

def setLink (node new : Nat) : Op α Unit := do
  let n ← deref node
  let c ← deref new
  modifyNode node (·.setLink (prefixBit c.p n.p.prefixlen) (some new))
  modifyNode new ({ · with parent := some node })

def routeLockNode (id : Nat) : Op α Unit :=
  modifyNode id fun n => { n with lock := n.lock + 1 }

/-- The child of a deleted node gets its parent. -/
def reparent (child parent : Option Nat) : Op α Unit :=
  match child with
  | some c => modifyNode c ({ · with parent := parent })
  | none => pure ()

/-- The child of a deleted node gets its place. -/
def relink (parent : Option Nat) (id : Nat) (child : Option Nat) : Op α Unit :=
  match parent with
  | some q => modifyNode q fun n =>
    if n.left = some id then { n with left := child } else { n with right := child }
  | none => modify ({ · with top := child })

/-- The part of `route_node_delete` that takes the node out and frees it. -/
def unlink (id : Nat) (node : RouteNode α) : Op α Unit := do
  let child := node.left.or node.right
  reparent child node.parent
  relink node.parent id child
  modify fun s => { s.free id with count := s.count - 1 }

def routeNodeDelete : Nat → Nat → Op α Unit
  | 0, _ => throw .fuel
  | fuel + 1, id => do
    let node ← deref id
    if node.lock ≠ 0 ∨ node.info.isSome then throw .assertion
    else if node.left.isSome ∧ node.right.isSome then pure ()
    else do
      unlink id node
      match node.parent with
      | none => pure ()
      | some q => do
        let parent ← deref q
        -- the parent may have been kept for its two subtrees only
        if parent.lock = 0 then routeNodeDelete fuel q else pure ()

def routeUnlockNode (id : Nat) : Op α Unit := do
  let node ← deref id
  if node.lock = 0 then throw .assertion
  else do
    modifyNode id fun n => { n with lock := n.lock - 1 }
    if node.lock = 1 then routeNodeDelete (node.p.prefixlen + 1) id else pure ()

/-! ## Search -/

/-- The condition of the loops that walk down: the node contains `p`. -/
def covers (n : RouteNode α) (p : Prefix) : Bool :=
  n.p.prefixlen ≤ p.prefixlen && prefixMatch n.p p

/-- The loop of `route_node_match`. -/
def matchLoop (s : RouteTable α) (p : Prefix) : Nat → Option Nat → Option Nat → Option (Option Nat)
  | 0, _, _ => none
  | _ + 1, matched, none => some matched
  | fuel + 1, matched, some id => do
    let node ← s.node id
    if covers node p then
      let matched := if node.info.isSome then some id else matched
      if node.p.prefixlen = p.prefixlen then some matched
      else matchLoop s p fuel matched (node.link (prefixBit p node.p.prefixlen))
    else some matched

def routeNodeMatch (p : Prefix) : Op α (Option Nat) := do
  match ← loop fun s => matchLoop s p (p.prefixlen + 2) none s.top with
  | some id => do routeLockNode id; pure (some id)
  | none => pure none

/-- The loop of `route_node_lookup`. -/
def lookupLoop (s : RouteTable α) (p : Prefix) : Nat → Option Nat → Option (Option Nat)
  | 0, _ => none
  | _ + 1, none => some none
  | fuel + 1, some id => do
    let node ← s.node id
    if covers node p then
      if node.p.prefixlen = p.prefixlen then some (if node.info.isSome then some id else none)
      else lookupLoop s p fuel (node.link (prefixBit p node.p.prefixlen))
    else some none

def routeNodeLookup (p : Prefix) : Op α (Option Nat) := do
  match ← loop fun s => lookupLoop s p (p.prefixlen + 2) s.top with
  | some id => do routeLockNode id; pure (some id)
  | none => pure none

/-- Where the loop of `route_node_get` ends: at the node it looks for, or at `match` and `node`. -/
inductive Walk
  | found (id : Nat)
  | stop (lastMatch node : Option Nat)
deriving DecidableEq, Repr

/-- The loop of `route_node_get`. -/
def getLoop (s : RouteTable α) (p : Prefix) : Nat → Option Nat → Option Nat → Option Walk
  | 0, _, _ => none
  | _ + 1, lastMatch, none => some (.stop lastMatch none)
  | fuel + 1, lastMatch, some id => do
    let node ← s.node id
    if covers node p then
      if node.p.prefixlen = p.prefixlen then some (.found id)
      else getLoop s p fuel (some id) (node.link (prefixBit p node.p.prefixlen))
    else some (.stop lastMatch (some id))

def routeNodeSet (p : Prefix) : Op α Nat := do
  let new := (← get).fresh
  modify (·.alloc { p })
  pure new

/-- Hang a new node below the last match, or at the top. -/
def attach (lastMatch : Option Nat) (new : Nat) : Op α Unit :=
  match lastMatch with
  | some m => setLink m new
  | none => modify ({ · with top := some new })

def addCount : Op α Unit := modify fun s => { s with count := s.count + 1 }

/-- The new node of `route_node_get` where nothing hangs. -/
def getLeaf (lastMatch : Option Nat) (p : Prefix) : Op α Nat := do
  let new ← routeNodeSet p
  attach lastMatch new
  pure new

/-- The new node of `route_node_get` above `node`, or beside it below a node for what the two
have in common. -/
def getSplit (lastMatch : Option Nat) (node : Nat) (p : Prefix) : Op α Nat := do
  let n ← deref node
  let common := routeCommon n.p p
  let new ← routeNodeSet common
  setLink new node
  attach lastMatch new
  if common.prefixlen ≠ p.prefixlen then do
    let leaf ← getLeaf (some new) p
    addCount
    pure leaf
  else pure new

def routeNodeGet (p : Prefix) : Op α Nat := do
  match ← loop fun s => getLoop s p (p.prefixlen + 2) none s.top with
  | .found id => do routeLockNode id; pure id
  | .stop lastMatch node => do
    let new ← match node with
      | none => getLeaf lastMatch p
      | some node => getSplit lastMatch node p
    addCount
    routeLockNode new
    pure new

/-! ## Iteration -/

def routeTop : Op α (Option Nat) := do
  match (← get).top with
  | none => pure none
  | some id => do routeLockNode id; pure (some id)

/-- The loop up of `route_next`, `route_next_until` and `route_get_subtree_next`: the node to the
right of the first ancestor that is to the left of something, up to `limit` if any. -/
def upLoop (s : RouteTable α) (limit : Option Nat) : Nat → Nat → Option (Option Nat)
  | 0, _ => none
  | fuel + 1, id => do
    let node ← s.node id
    match node.parent with
    | none => some none
    | some q =>
      if limit = some id then some none
      else do
        let parent ← s.node q
        if parent.left = some id ∧ parent.right.isSome then some parent.right
        else upLoop s limit fuel q

/-- Lock the next node, then unlock the node the iteration comes from. -/
def moveTo (id : Nat) (next : Option Nat) : Op α (Option Nat) := do
  match next with
  | some next => do routeLockNode next; routeUnlockNode id; pure (some next)
  | none => do routeUnlockNode id; pure none

def routeNextUntil (id : Nat) (limit : Option Nat) : Op α (Option Nat) := do
  let node ← deref id
  if node.left.isSome then moveTo id node.left
  else if node.right.isSome then moveTo id node.right
  else do
    let next ← loop fun s => upLoop s limit (node.p.prefixlen + 1) id
    moveTo id next

/-- `route_next`, which differs from `route_next_until` only in that there is no limit. -/
def routeNext (id : Nat) : Op α (Option Nat) := routeNextUntil id none

/-! ## Users of the table -/

/-- The operations on a table; `setInfo` is the assignment `rn->info = v`. -/
inductive TableEvent (α : Type)
  | get (p : Prefix)
  | lookup (p : Prefix)
  | longest (p : Prefix)
  | lock (id : Nat)
  | unlock (id : Nat)
  | setInfo (id : Nat) (v : Option α)
  | top
  | next (id : Nat)
  | nextUntil (id : Nat) (limit : Option Nat)
deriving DecidableEq, Repr

def tableStep : TableEvent α → Op α Unit
  | .get p => do let _ ← routeNodeGet p
  | .lookup p => do let _ ← routeNodeLookup p
  | .longest p => do let _ ← routeNodeMatch p
  | .lock id => routeLockNode id
  | .unlock id => routeUnlockNode id
  | .setInfo id v => modifyNode id ({ · with info := v })
  | .top => do let _ ← routeTop
  | .next id => do let _ ← routeNext id
  | .nextUntil id limit => do let _ ← routeNextUntil id limit

/-- The address is that of a node whose lock may be dropped: contents are cleared before the last
lock goes. -/
def mayUnlock (s : RouteTable α) (id : Nat) : Bool :=
  match s.node id with
  | some n => 0 < n.lock && (n.lock != 1 || n.info.isNone)
  | none => false

/-- The rules the users of a table keep: they follow addresses of nodes only, drop locks there
are, and put contents into nodes that are locked. -/
def keepsRules (s : RouteTable α) : TableEvent α → Bool
  | .lock id => (s.node id).isSome
  | .unlock id => mayUnlock s id
  | .setInfo id v =>
    match s.node id with
    | some n => v.isNone || 0 < n.lock
    | none => false
  | .next id => mayUnlock s id
  | .nextUntil id _ => mayUnlock s id
  | .get _ | .lookup _ | .longest _ | .top => true

/-- The rules are kept, and one more lock fits into the `unsigned int` of every node. -/
def mayDo (s : RouteTable α) (e : TableEvent α) : Bool :=
  keepsRules s e && (List.range s.fresh).all fun id => (s.node id).all (·.lock + 1 < 2 ^ 32)

end Mp2mp.Lib
