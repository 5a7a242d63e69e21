import Mathlib

/-!
# Intrusive red-black trees

The red-black trees of the BSD `tree.h` macros.  The parent pointers are a zipper:
a place in the tree is the subtree there and the `Trail` of nodes above it.  The two
mirrored halves of each macro are one definition with the side as a parameter.

The comparison is only ever asked about the nodes a search passes, so the tree is
defined for any comparison.  What it then holds does not depend on the comparison
(`toList_remove`, `insert_split`); that a search finds what is there does.

* `toList_insertColor`, `toList_removeColor`: recolouring and rotations leave the
  in-order walk alone.
* `insert_split`, `toList_remove`: an insertion adds one element to the walk and a
  removal takes one out.
* `find_eq_some`: in a tree whose walk is cut by the comparison a search is exact.
-/

namespace Mp2mp.Kit.RbTree

open List hiding after

inductive Color
  | black
  | red
deriving DecidableEq, Repr

inductive Side
  | left
  | right
deriving DecidableEq, Repr

open Side

inductive Rb (α : Type)
  | nil
  | node (color : Color) (left : Rb α) (elem : α) (right : Rb α)
deriving DecidableEq, Repr

open Rb

variable {α : Type} {x : α} {t : Rb α} {c : Color} {d : Side}

namespace Rb

/-- The in-order walk, `RB_FOREACH`. -/
def toList : Rb α → List α
  | nil => []
  | node _ l x r => l.toList ++ x :: r.toList

/-- `RB_COLOR(t) == RB_RED`, and false of no node. -/
def isRed : Rb α → Bool
  | node .red _ _ _ => true
  | _ => false

/-- `RB_COLOR(t) = c`, if there is a node. -/
def paint (c : Color) : Rb α → Rb α
  | nil => nil
  | node _ l x r => node c l x r

@[simp] theorem toList_paint (c : Color) (t : Rb α) : (t.paint c).toList = t.toList := by
  cases t <;> rfl

end Rb

namespace Side

/-- A node with the child on this side first. -/
def node (d : Side) (c : Color) (near : Rb α) (x : α) (far : Rb α) : Rb α :=
  match d with
  | .left => .node c near x far
  | .right => .node c far x near

/-- The walks of two children and the element between them, that on this side first. -/
def walk (d : Side) (near : List α) (x : α) (far : List α) : List α :=
  match d with
  | .left => near ++ x :: far
  | .right => far ++ x :: near

/-- The children of a node, that on this side first. -/
def view (d : Side) : Rb α → Option (Rb α × α × Rb α)
  | .nil => none
  | .node _ l x r =>
    match d with
    | .left => some (l, x, r)
    | .right => some (r, x, l)

@[simp] theorem toList_node {near far : Rb α} (x : α) :
    (d.node c near x far).toList = d.walk near.toList x far.toList := by
  cases d <;> rfl

theorem toList_of_view {near far : Rb α}
    (h : d.view t = some (near, x, far)) : t.toList = d.walk near.toList x far.toList := by
  cases t with
  | nil => cases h
  | node c l y r => cases d <;> cases h <;> rfl

/-- A rotation. -/
theorem walk_rotate {a b c : List α} (x y : α) :
    d.walk a x (d.walk b y c) = d.walk (d.walk a x b) y c := by
  cases d <;> simp [walk]

theorem walk_rotate_inner {d' : Side} (h : d ≠ d') (a b c s : List α) (x p g : α) :
    d'.walk (d.walk (d'.walk a x b) p s) g c = d'.walk (d'.walk s p a) x (d'.walk b g c) := by
  cases d <;> cases d' <;> simp_all [walk]

end Side

/-- A node above a place, with the side the place is on and the subtree on the other one. -/
structure Frame (α : Type) where
  side : Side
  color : Color
  elem : α
  other : Rb α
deriving DecidableEq, Repr

/-- The nodes above a place, the parent first. -/
abbrev Trail (α : Type) := List (Frame α)

namespace Trail

def plug : Rb α → Trail α → Rb α
  | t, [] => t
  | t, f :: p => plug (f.side.node f.color t f.elem f.other) p

/-- What the walk passes before it comes to the place. -/
def before : Trail α → List α
  | [] => []
  | f :: p =>
    match f.side with
    | .left => before p
    | .right => before p ++ (f.other.toList ++ [f.elem])

/-- What the walk passes after the place. -/
def after : Trail α → List α
  | [] => []
  | f :: p =>
    match f.side with
    | .left => f.elem :: f.other.toList ++ after p
    | .right => after p

theorem toList_plug {p : Trail α} : (plug t p).toList = before p ++ t.toList ++ after p := by
  induction p generalizing t with
  | nil => simp [plug, before, after]
  | cons f p ih =>
    obtain ⟨d, c, x, o⟩ := f
    rw [plug, ih, toList_node]
    cases d <;> simp [walk, before, after]

/-- Only the walk of a subtree matters to the walk of the tree. -/
theorem toList_plug_congr {t' : Rb α} (h : t.toList = t'.toList) (p : Trail α) :
    (plug t p).toList = (plug t' p).toList := by
  rw [toList_plug, toList_plug, h]

end Trail

open Trail

variable {cmp : α → Ordering}

/-! ## Insertion -/

/-- `RB_INSERT_COLOR`: the red node `t` may have a red parent.  The root is black, so
that a red parent has a parent itself. -/
def insertColor : Rb α → Trail α → Rb α
  | t, ⟨d, .red, p, s⟩ :: ⟨d', cg, g, u⟩ :: path =>
    if u.isRed then
      insertColor (d'.node .red (d.node .black t p s) g (u.paint .black)) path
    else if d = d' then
      -- the grandparent is rotated below the parent
      (plug (d'.node .black t p (d'.node .red s g u)) path).paint .black
    else
      match d'.view t with
      | some (near, x, far) =>
        -- first the parent, then the grandparent is rotated below the node
        (plug (d'.node .black (d'.node .red s p near) x (d'.node .red far g u)) path).paint .black
      | none => plug t (⟨d, .red, p, s⟩ :: ⟨d', cg, g, u⟩ :: path)
  | t, path => (plug t path).paint .black

theorem toList_insertColor {path : Trail α} :
    (insertColor t path).toList = (plug t path).toList := by
  fun_induction insertColor t path with
  | case1 t d p s d' cg g u path hred ih =>
    rw [ih]
    exact toList_plug_congr (by simp) path
  | case2 t p s d' cg g u path hred =>
    rw [toList_paint]
    refine toList_plug_congr ?_ path
    simp only [toList_node, walk_rotate]
  | case3 t d p s d' cg g u path hred hside near x far hview =>
    rw [toList_paint]
    refine toList_plug_congr ?_ path
    simp only [toList_node, toList_of_view hview, walk_rotate_inner hside]
  | case4 => rfl
  | case5 => rw [toList_paint]

/-- The search of `RB_INSERT`: the place of no node it ends at, or the node that
compares equal.  `cmp x` is the new element compared with `x`. -/
def descend (cmp : α → Ordering) : Rb α → Trail α → Except α (Trail α)
  | .nil, path => .ok path
  | .node c l x r, path =>
    match cmp x with
    | .lt => descend cmp l (⟨.left, c, x, r⟩ :: path)
    | .gt => descend cmp r (⟨.right, c, x, l⟩ :: path)
    | .eq => .error x

/-- `RB_INSERT`: the tree, or the node that is in the way. -/
def insert (cmp : α → Ordering) (a : α) (t : Rb α) : Except α (Rb α) :=
  (descend cmp t []).map (insertColor (.node .red .nil a .nil))

/-- The walk falls in two: what is below the sought element and what is above it. -/
def Cut (cmp : α → Ordering) (l : List α) : Prop :=
  l.Pairwise fun x y => (cmp x = .lt → cmp y = .lt) ∧ (cmp y = .gt → cmp x = .gt)

theorem descend_split {path path' : Trail α} (h : descend cmp t path = .ok path') :
    ∃ l r, t.toList = l ++ r ∧ before path' = before path ++ l ∧ after path' = r ++ after path ∧
      (Cut cmp t.toList → (∀ x ∈ l, cmp x = .gt) ∧ ∀ x ∈ r, cmp x = .lt) := by
  induction t generalizing path with
  | nil =>
    cases h
    exact ⟨[], [], rfl, by simp, by simp, fun _ => ⟨nofun, nofun⟩⟩
  | node c tl x tr ihl ihr =>
    rw [descend] at h
    cases hx : cmp x with
    | lt =>
      rw [hx] at h
      obtain ⟨l, r, hlist, hbefore, hafter, hcut⟩ := ihl h
      refine ⟨l, r ++ x :: tr.toList, by simp [toList, hlist], hbefore,
        by simp [hafter, after], fun hwalk => ?_⟩
      obtain ⟨hleft, hright, -⟩ := List.pairwise_append.mp hwalk
      obtain ⟨hbelow, habove⟩ := hcut hleft
      refine ⟨hbelow, fun y hy => ?_⟩
      rcases List.mem_append.mp hy with hy | hy
      · exact habove y hy
      rcases List.mem_cons.mp hy with rfl | hy
      · exact hx
      · exact ((List.pairwise_cons.mp hright).1 y hy).1 hx
    | gt =>
      rw [hx] at h
      obtain ⟨l, r, hlist, hbefore, hafter, hcut⟩ := ihr h
      refine ⟨tl.toList ++ x :: l, r, by simp [toList, hlist],
        by simp [hbefore, before], hafter, fun hwalk => ?_⟩
      obtain ⟨-, hright, hacross⟩ := List.pairwise_append.mp hwalk
      obtain ⟨hbelow, habove⟩ := hcut (List.pairwise_cons.mp hright).2
      refine ⟨fun y hy => ?_, habove⟩
      rcases List.mem_append.mp hy with hy | hy
      · exact (hacross y hy x mem_cons_self).2 hx
      rcases List.mem_cons.mp hy with rfl | hy
      · exact hx
      · exact hbelow y hy
    | eq =>
      rw [hx] at h
      cases h

variable {a : α}

/-- An insertion puts the element somewhere into the walk, and at its place if the
comparison cuts the walk. -/
theorem insert_split {t' : Rb α} (h : insert cmp a t = .ok t') :
    ∃ l r, t.toList = l ++ r ∧ t'.toList = l ++ a :: r ∧
      (Cut cmp t.toList → (∀ x ∈ l, cmp x = .gt) ∧ ∀ x ∈ r, cmp x = .lt) := by
  unfold insert at h
  cases hd : descend cmp t [] with
  | error x =>
    rw [hd] at h
    cases h
  | ok path =>
    rw [hd] at h
    cases h
    obtain ⟨l, r, hlist, hbefore, hafter, hcut⟩ := descend_split hd
    refine ⟨l, r, hlist, ?_, hcut⟩
    rw [toList_insertColor, toList_plug, hbefore, hafter]
    simp [before, after, toList]

theorem insert_error (h : insert cmp a t = .error x) : x ∈ t.toList ∧ cmp x = .eq := by
  have hdescend (path : Trail α) (hd : descend cmp t path = .error x) :
      x ∈ t.toList ∧ cmp x = .eq := by
    clear h
    induction t generalizing path with
    | nil => cases hd
    | node c l y r ihl ihr =>
      rw [descend] at hd
      cases hy : cmp y with
      | lt =>
        rw [hy] at hd
        obtain ⟨hmem, heq⟩ := ihl _ hd
        exact ⟨mem_append_left _ hmem, heq⟩
      | gt =>
        rw [hy] at hd
        obtain ⟨hmem, heq⟩ := ihr _ hd
        exact ⟨mem_append_right _ (mem_cons_of_mem _ hmem), heq⟩
      | eq =>
        rw [hy] at hd
        cases hd
        exact ⟨mem_append_right _ mem_cons_self, hy⟩
  unfold insert at h
  cases hd : descend cmp t [] with
  | error y =>
    rw [hd] at h
    cases h
    exact hdescend [] hd
  | ok path =>
    rw [hd] at h
    cases h

/-! ## Search -/

/-- `RB_FIND` -/
def find (cmp : α → Ordering) : Rb α → Option α
  | .nil => none
  | .node _ l x r =>
    match cmp x with
    | .lt => find cmp l
    | .gt => find cmp r
    | .eq => some x

theorem mem_of_find (h : find cmp t = some x) : x ∈ t.toList ∧ cmp x = .eq := by
  induction t with
  | nil => cases h
  | node c l y r ihl ihr =>
    rw [find] at h
    cases hy : cmp y with
    | lt =>
      rw [hy] at h
      exact ⟨mem_append_left _ (ihl h).1, (ihl h).2⟩
    | gt =>
      rw [hy] at h
      exact ⟨mem_append_right _ (mem_cons_of_mem _ (ihr h).1), (ihr h).2⟩
    | eq =>
      rw [hy] at h
      cases h
      exact ⟨mem_append_right _ mem_cons_self, hy⟩

/-- In a walk that the comparison cuts, a search finds what is there. -/
theorem find_isSome (hcut : Cut cmp t.toList)
    (hx : x ∈ t.toList) (heq : cmp x = .eq) : (find cmp t).isSome := by
  induction t with
  | nil => cases hx
  | node c l y r ihl ihr =>
    obtain ⟨hleft, hright, hacross⟩ := List.pairwise_append.mp hcut
    obtain ⟨hbehind, hright⟩ := List.pairwise_cons.mp hright
    rw [find]
    cases hy : cmp y with
    | lt =>
      refine ihl hleft ?_
      rcases List.mem_append.mp hx with hx | hx
      · exact hx
      rcases List.mem_cons.mp hx with rfl | hx
      · cases heq.symm.trans hy
      · cases heq.symm.trans ((hbehind x hx).1 hy)
    | gt =>
      refine ihr hright ?_
      rcases List.mem_append.mp hx with hx | hx
      · cases heq.symm.trans ((hacross x hx y mem_cons_self).2 hy)
      rcases List.mem_cons.mp hx with rfl | hx
      · cases heq.symm.trans hy
      · exact hx
    | eq => rfl

/-- A search is exact if the walk is cut and no two elements compare equal to the key. -/
theorem find_eq_some (hcut : x ∈ t.toList → cmp x = .eq → Cut cmp t.toList)
    (hunique : ∀ y ∈ t.toList, ∀ z ∈ t.toList, cmp y = .eq → cmp z = .eq → y = z) :
    find cmp t = some x ↔ x ∈ t.toList ∧ cmp x = .eq := by
  refine ⟨mem_of_find, fun ⟨hx, heq⟩ => ?_⟩
  obtain ⟨y, hy⟩ := Option.isSome_iff_exists.mp (find_isSome (hcut hx heq) hx heq)
  obtain ⟨hmem, heq'⟩ := mem_of_find hy
  rw [hy, hunique y hmem x hx heq' heq]

/-! ## Removal -/

/-- One turn of the loop of `RB_REMOVE_COLOR` with a black sibling `s` of `t`: the
subtree of the parent, which is settled (`inl`) or still a black node short (`inr`). -/
def borrow (d : Side) (c : Color) (t : Rb α) (p : α) (s : Rb α) : Rb α ⊕ Rb α :=
  match d.view s with
  | none => .inl (d.node c t p s)
  | some (near, x, far) =>
    if !near.isRed && !far.isRed then .inr (d.node c t p (s.paint .red))
    else if !far.isRed then
      match d.view near with
      | none => .inl (d.node c t p s)
      | some (a, y, b) =>
        -- the sibling is rotated below its red child first
        .inl (d.node c (d.node .black t p a) y (d.node .black b x far))
    else .inl (d.node c (d.node .black t p near) x (far.paint .black))

/-- `RB_REMOVE_COLOR`: the subtree `t` is a black node short, and so has a sibling. -/
def removeColor : Rb α → Trail α → Rb α
  | t, [] => t.paint .black
  | t, ⟨d, c, p, s⟩ :: path =>
    if t.isRed then plug (t.paint .black) (⟨d, c, p, s⟩ :: path)
    else if s.isRed then
      match d.view s with
      | none => plug t (⟨d, c, p, s⟩ :: path)
      | some (near, x, far) =>
        -- the parent is rotated below the red sibling and is red itself then
        match borrow d .red t p near with
        | .inl t' => (plug (d.node .black t' x far) path).paint .black
        | .inr t' => plug (d.node .black (t'.paint .black) x far) path
    else
      match borrow d c t p s with
      | .inl t' => (plug t' path).paint .black
      | .inr t' => removeColor t' path

theorem toList_borrow (d : Side) (c : Color) (t s : Rb α) (p : α) :
    (Sum.elim id id (borrow d c t p s)).toList = (d.node c t p s).toList := by
  unfold borrow
  split
  · rfl
  · rename_i near x far hs
    split
    · simp
    split
    · split
      · rfl
      · rename_i a y b hnear
        simp [toList_of_view hs, toList_of_view hnear, walk_rotate]
    · simp [toList_of_view hs, walk_rotate]

theorem toList_removeColor {path : Trail α} :
    (removeColor t path).toList = (plug t path).toList := by
  fun_induction removeColor t path with
  | case1 t => simp [plug]
  | case2 t d c p s path hred => exact toList_plug_congr (toList_paint _ _) _
  | case3 => rfl
  | case4 t d c p s path hblack hred near x far hs t' ht' =>
    have hwalk := toList_borrow d .red t near p
    rw [ht'] at hwalk
    rw [toList_paint]
    refine toList_plug_congr ?_ path
    simp only [toList_node, Sum.elim_inl, id] at hwalk ⊢
    rw [hwalk, toList_of_view hs, walk_rotate]
  | case5 t d c p s path hblack hred near x far hs t' ht' =>
    have hwalk := toList_borrow d .red t near p
    rw [ht'] at hwalk
    refine toList_plug_congr ?_ path
    simp only [toList_node, Sum.elim_inr, id, toList_paint] at hwalk ⊢
    rw [hwalk, toList_of_view hs, walk_rotate]
  | case6 t d c p s path hblack hblack' t' ht' =>
    have hwalk := toList_borrow d c t s p
    rw [ht'] at hwalk
    rw [toList_paint]
    exact toList_plug_congr hwalk path
  | case7 t d c p s path hblack hblack' t' ht' ih =>
    have hwalk := toList_borrow d c t s p
    rw [ht'] at hwalk
    rw [ih]
    exact toList_plug_congr hwalk path

/-- The end of `RB_REMOVE`: a node of colour `c` was taken out at the place of `child`. -/
def unlink (c : Color) (child : Rb α) (path : Trail α) : Rb α :=
  match c with
  | .black => removeColor child path
  | .red => plug child path

theorem toList_unlink {child : Rb α} {path : Trail α} :
    (unlink c child path).toList = (plug child path).toList := by
  cases c with
  | black => exact toList_removeColor
  | red => rfl

/-- The first node of the walk of `node c l x r`: its colour, its element, its right
child and the nodes above it. -/
def first (c : Color) (x : α) (r : Rb α) : Rb α → Trail α → Color × α × Rb α × Trail α
  | .nil, path => (c, x, r, path)
  | .node c' l' x' r', path => first c' x' r' l' (⟨.left, c, x, r⟩ :: path)

/-- `RB_REMOVE` of the node at a place. -/
def removeAt (c : Color) (l r : Rb α) (path : Trail α) : Rb α :=
  match l, r with
  | .nil, r => unlink c r path
  | l, .nil => unlink c l path
  | l, .node cr rl x rr =>
    -- the next node of the walk takes the place, with the colour that was there
    let (c', x', child, above) := first cr x rr rl []
    unlink c' child (above ++ ⟨.right, c, x', l⟩ :: path)

theorem first_walk (c : Color) (x : α) (r l : Rb α) (path : Trail α) :
    let (_, x', child, above) := first c x r l path
    before above = before path ∧
      x' :: (child.toList ++ after above) = l.toList ++ x :: r.toList ++ after path := by
  induction l generalizing c x r path with
  | nil => exact ⟨rfl, by simp [toList]⟩
  | node c' l' x' r' ih _ =>
    obtain ⟨hbefore, hafter⟩ := ih c' x' r' (⟨.left, c, x, r⟩ :: path)
    exact ⟨hbefore, hafter.trans (by simp [toList, after])⟩

theorem before_append {p q : Trail α} : before (p ++ q) = before q ++ before p := by
  induction p with
  | nil => simp [before]
  | cons f p ih =>
    obtain ⟨d, c, x, o⟩ := f
    cases d <;> simp [before, ih]

theorem after_append {p q : Trail α} : after (p ++ q) = after p ++ after q := by
  induction p with
  | nil => simp [after]
  | cons f p ih =>
    obtain ⟨d, c, x, o⟩ := f
    cases d <;> simp [after, ih]

theorem toList_removeAt {l r : Rb α} {path : Trail α} :
    (removeAt c l r path).toList = before path ++ (l.toList ++ r.toList) ++ after path := by
  unfold removeAt
  split
  · rw [toList_unlink, toList_plug]
    simp [toList]
  · rw [toList_unlink, toList_plug]
    simp [toList]
  · rename_i cr rl x rr _
    obtain ⟨hbefore, hafter⟩ := first_walk cr x rr rl []
    rw [toList_unlink, toList_plug, before_append, after_append, hbefore]
    simp only [before, after, append_nil] at hafter ⊢
    simp only [toList, ← hafter, append_assoc, cons_append, nil_append]

/-- The place of an element, which `RB_REMOVE` has the address of. -/
def locate [DecidableEq α] (a : α) : Rb α → Trail α → Option (Color × Rb α × Rb α × Trail α)
  | .nil, _ => none
  | .node c l x r, path =>
    if x = a then some (c, l, r, path)
    else (locate a l (⟨.left, c, x, r⟩ :: path)).or (locate a r (⟨.right, c, x, l⟩ :: path))

/-- `RB_REMOVE` -/
def remove [DecidableEq α] (a : α) (t : Rb α) : Rb α :=
  match locate a t [] with
  | none => t
  | some (c, l, r, path) => removeAt c l r path

variable [DecidableEq α]

theorem locate_walk {l r : Rb α} {path path' : Trail α}
    (h : locate a t path = some (c, l, r, path')) :
    before path ++ t.toList ++ after path =
      before path' ++ (l.toList ++ a :: r.toList) ++ after path' := by
  induction t generalizing path with
  | nil => cases h
  | node c' l' x r' ihl ihr =>
    rw [locate] at h
    split at h
    · rename_i hx
      cases h
      rw [← hx]
      rfl
    · rcases Option.or_eq_some_iff.mp h with h | ⟨-, h⟩
      · rw [← ihl h]
        simp [toList, before, after]
      · rw [← ihr h]
        simp [toList, before, after]

theorem locate_eq_none {path : Trail α} (h : locate a t path = none) : a ∉ t.toList := by
  induction t generalizing path with
  | nil => exact not_mem_nil
  | node c l x r ihl ihr =>
    rw [locate] at h
    split at h
    · cases h
    · rename_i hx
      obtain ⟨hl, hr⟩ := Option.or_eq_none_iff.mp h
      simp only [toList, mem_append, mem_cons, not_or]
      exact ⟨ihl hl, fun heq => hx heq.symm, ihr hr⟩

/-- A removal takes the one element out of the walk. -/
theorem toList_remove (h : t.toList.Nodup) : (remove a t).toList = t.toList.erase a := by
  unfold remove
  split
  · rename_i hnone
    rw [erase_of_not_mem (locate_eq_none hnone)]
  · rename_i c l r path hsome
    have hwalk := locate_walk hsome
    simp only [before, after, nil_append, append_nil] at hwalk
    rw [toList_removeAt, hwalk]
    rw [hwalk] at h
    -- the walk has no second `a`, so the first one is the one at the place
    have hfront : a ∉ before path ++ l.toList := by
      intro hmem
      have hnodup : ((before path ++ l.toList) ++ a :: (r.toList ++ after path)).Nodup := by
        simpa [append_assoc] using h
      exact (List.nodup_append.mp hnodup).2.2 a hmem a mem_cons_self rfl
    have hassoc : before path ++ (l.toList ++ a :: r.toList) ++ after path =
        (before path ++ l.toList) ++ a :: (r.toList ++ after path) := by
      simp [append_assoc]
    rw [hassoc, erase_append_right _ hfront, erase_cons_head]
    simp [append_assoc]

end Mp2mp.Kit.RbTree
