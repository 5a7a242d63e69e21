import Mp2mp.Bgpd.Route

/-!
# Route processing

`bgp_best_selection` and `bgp_process_main` of `bgp_route.c` on the paths of one node.

With `bgp deterministic-med` a first pass marks the best path of each group of paths from
one neighbouring AS; the second pass compares the marked paths, clears the marks and reaps
paths that have been removed, but for the one that is still selected.  What is announced to
peers and to zebra has no effect on the node and is left out, and so are the lists of
multipaths, which touch the `MULTIPATH` flags only.

* `dmedPass_frame`: the first pass changes no flag but its own.
* `selectPass_passed`: what the second pass leaves of the node.
* `bgpProcessMain_clean`: what a node is like after it has been processed.
-/

namespace Mp2mp.Bgpd

open List Flags

variable {flags flags' : Nat → Flags} {paths : List Info} {sel : Selection} {bgp : Bgp}

/-! ## Flags -/

/-- Change the flags of one path. -/
def setFlags (flags : Nat → Flags) (uid : Nat) (f : Flags → Flags) : Nat → Flags :=
  Function.update flags uid (f (flags uid))

def Flags.setDmedCheck (b : Bool) (flags : Flags) : Flags := { flags with dmedCheck := b }

def Flags.setDmedSelected (b : Bool) (flags : Flags) : Flags := { flags with dmedSelected := b }

def Flags.setSelected (b : Bool) (flags : Flags) : Flags := { flags with selected := b }

def Flags.setAttrChanged (b : Bool) (flags : Flags) : Flags := { flags with attrChanged := b }

/-- The flags without the marks of the first pass. -/
def Flags.unmarked (flags : Flags) : Flags :=
  { flags with dmedCheck := false, dmedSelected := false }

theorem setFlags_apply (flags : Nat → Flags) (uid u : Nat) (f : Flags → Flags) :
    setFlags flags uid f u = if u = uid then f (flags u) else flags u := by
  rw [setFlags, Function.update_apply]
  split
  · next same => rw [same]
  · rfl

/-! ## Best path selection -/

/-- Whether a path's peer lets the first loop take it up. -/
def Info.leads (ri : Info) : Bool := ri.peer.isSelf || ri.peer.established

/-- Whether a path's peer lets the other loops consider it. -/
def Info.counts (ri : Info) : Bool := ri.peer.isSelf || ri.peer.nsfWait || ri.peer.established

/-- The loop over the paths after `ri1`: the best of its group so far, and the flags. -/
def dmedGroup (bgp : Bgp) (ri1 : Info) : List Info → Info → (Nat → Flags) → Info × (Nat → Flags)
  | [], newSelect, flags => (newSelect, flags)
  | ri2 :: rest, newSelect, flags =>
    if (flags ri2.uid).dmedCheck || (flags ri2.uid).holddown || !ri2.counts then
      dmedGroup bgp ri1 rest newSelect flags
    else if aspathCmpLeft ri1.attr.aspath ri2.attr.aspath ||
        aspathCmpLeftConfed ri1.attr.aspath ri2.attr.aspath then
      if bgpInfoCmp bgp flags ri2 newSelect = .lt then
        let flags := setFlags flags newSelect.uid (.setDmedSelected false)
        dmedGroup bgp ri1 rest ri2 (setFlags flags ri2.uid (.setDmedCheck true))
      else dmedGroup bgp ri1 rest newSelect (setFlags flags ri2.uid (.setDmedCheck true))
    else dmedGroup bgp ri1 rest newSelect flags

/-- The first pass, with `bgp deterministic-med`. -/
def dmedPass (bgp : Bgp) : List Info → (Nat → Flags) → Nat → Flags
  | [], flags => flags
  | ri1 :: rest, flags =>
    if (flags ri1.uid).dmedCheck || (flags ri1.uid).holddown || !ri1.leads then
      dmedPass bgp rest flags
    else
      let (newSelect, flags) := dmedGroup bgp ri1 rest ri1 flags
      let flags := setFlags flags newSelect.uid (.setDmedCheck true)
      dmedPass bgp rest (setFlags flags newSelect.uid (.setDmedSelected true))

/-- What selection leaves: the paths still on the node, the flags, and the pair returned. -/
structure Selection where
  paths : List Info
  flags : Nat → Flags
  old : Option Info
  new : Option Info

def selectPass (bgp : Bgp) : List Info → Option Info → Option Info → (Nat → Flags) → Selection
  | [], old, new, flags => ⟨[], flags, old, new⟩
  | ri :: rest, old, new, flags =>
    let old := if (flags ri.uid).selected then some ri else old
    if (flags ri.uid).holddown then
      let left := selectPass bgp rest old new flags
      -- the selected path must stay for a while longer
      if (flags ri.uid).removed ∧ some ri ≠ old then left
      else { left with paths := ri :: left.paths }
    else if !ri.counts then
      let left := selectPass bgp rest old new flags
      { left with paths := ri :: left.paths }
    else if bgp.deterministicMed && !(flags ri.uid).dmedSelected then
      let left := selectPass bgp rest old new (setFlags flags ri.uid (.setDmedCheck false))
      { left with paths := ri :: left.paths }
    else
      let flags := setFlags flags ri.uid (.setDmedCheck false)
      let flags := setFlags flags ri.uid (.setDmedSelected false)
      let new :=
        match new with
        | none => some ri
        | some exist => if bgpInfoCmp bgp flags ri exist = .lt then some ri else some exist
      let left := selectPass bgp rest old new flags
      { left with paths := ri :: left.paths }

def bgpBestSelection (bgp : Bgp) (paths : List Info) (flags : Nat → Flags) : Selection :=
  selectPass bgp paths none none (if bgp.deterministicMed then dmedPass bgp paths flags else flags)

/-- `bgp_info_mpath_aggregate_update`, when it finds that the aggregate has changed. -/
def mpathAggregateUpdate (mpathChanged : Bool) (new : Option Info) (flags : Nat → Flags) :
    Nat → Flags :=
  match new with
  | some new => if mpathChanged then setFlags flags new.uid (.setAttrChanged true) else flags
  | none => flags

def unselectOld (old : Option Info) (flags : Nat → Flags) : Nat → Flags :=
  match old with
  | some old => setFlags flags old.uid (.setSelected false)
  | none => flags

def selectNew (new : Option Info) (flags : Nat → Flags) : Nat → Flags :=
  match new with
  | some new =>
    setFlags (setFlags flags new.uid (.setSelected true)) new.uid (.setAttrChanged false)
  | none => flags

/-- Reap the old path, if it has been removed. -/
def reapOld (old : Option Info) (flags : Nat → Flags) (paths : List Info) : List Info :=
  match old with
  | some old => if (flags old.uid).removed then paths.filter (· ≠ old) else paths
  | none => paths

def bgpProcessMain (bgp : Bgp) (paths : List Info) (flags : Nat → Flags) (mpathChanged : Bool) :
    Selection :=
  let sel := bgpBestSelection bgp paths flags
  let flags := mpathAggregateUpdate mpathChanged sel.new sel.flags
  -- nothing to do
  if sel.old.isSome ∧ sel.old = sel.new ∧
      sel.old.all (fun old => !(flags old.uid).attrChanged) then { sel with flags }
  else
    let flags := selectNew sel.new (unselectOld sel.old flags)
    ⟨reapOld sel.old flags sel.paths, flags, sel.old, sel.new⟩

/-! ## What the passes change -/

section

section

variable (flags : Nat → Flags) (uid : Nat) (b : Bool)

/-- Flags that agree but for the marks. -/
def SameMarked (flags flags' : Nat → Flags) : Prop := ∀ u, (flags' u).unmarked = (flags u).unmarked

theorem SameMarked.refl : SameMarked flags flags := fun _ => rfl

theorem SameMarked.trans {flags₁ flags₂ flags₃ : Nat → Flags} (first : SameMarked flags₁ flags₂)
    (second : SameMarked flags₂ flags₃) : SameMarked flags₁ flags₃ :=
  fun u => (second u).trans (first u)

theorem SameMarked.check : SameMarked flags (setFlags flags uid (.setDmedCheck b)) := by
  intro u
  rw [setFlags_apply]
  split <;> rfl

theorem SameMarked.select : SameMarked flags (setFlags flags uid (.setDmedSelected b)) := by
  intro u
  rw [setFlags_apply]
  split <;> rfl

end

theorem SameMarked.holddown (h : SameMarked flags flags') (u : Nat) :
    (flags' u).holddown = (flags u).holddown := by
  have same := congrArg Flags.holddown (h u)
  exact same

theorem SameMarked.selected (h : SameMarked flags flags') (u : Nat) :
    (flags' u).selected = (flags u).selected := by
  have same := congrArg Flags.selected (h u)
  exact same

theorem SameMarked.removed (h : SameMarked flags flags') (u : Nat) :
    (flags' u).removed = (flags u).removed := by
  have same := congrArg Flags.removed (h u)
  exact same

theorem dmedGroup_frame (ri1 : Info) (rest : List Info) (newSelect : Info) (flags : Nat → Flags) :
    SameMarked flags (dmedGroup bgp ri1 rest newSelect flags).2 := by
  induction rest generalizing newSelect flags with
  | nil => exact .refl flags
  | cons ri2 rest ih =>
    rw [dmedGroup]
    split
    · exact ih _ _
    · split
      · split
        · exact ((SameMarked.select _ _ _).trans (SameMarked.check _ _ _)).trans (ih _ _)
        · exact (SameMarked.check _ _ _).trans (ih _ _)
      · exact ih _ _

/-- The first pass changes no flag but its marks. -/
theorem dmedPass_frame (paths : List Info) (flags : Nat → Flags) :
    SameMarked flags (dmedPass bgp paths flags) := by
  induction paths generalizing flags with
  | nil => exact .refl flags
  | cons ri1 rest ih =>
    rw [dmedPass]
    split
    · exact ih _
    · exact (dmedGroup_frame ri1 rest ri1 flags).trans <|
        (SameMarked.check _ _ _).trans <| (SameMarked.select _ _ _).trans (ih _)

end

/-! ## What the second pass leaves -/

/-- A path that takes part in selection. -/
def Eligible (flags : Nat → Flags) (ri : Info) : Prop :=
  (flags ri.uid).holddown = false ∧ ri.counts = true

/-- The second pass over `todo`, between what it was given and what it leaves. -/
structure Passed (todo : List Info) (old new : Option Info) (flags : Nat → Flags)
    (sel : Selection) : Prop where
  marks : SameMarked flags sel.flags
  frame : ∀ u, u ∉ todo.map Info.uid → sel.flags u = flags u
  sub : sel.paths.Sublist todo
  unmarked : ∀ ri ∈ todo, Eligible flags ri →
    (sel.flags ri.uid).dmedCheck = false ∧ (sel.flags ri.uid).dmedSelected = false
  /-- Of the removed paths the selected ones are left. -/
  removed : ∀ ri ∈ sel.paths, (flags ri.uid).removed = true → (flags ri.uid).selected = true
  selected : ∀ ri ∈ todo, (flags ri.uid).selected = true → ri ∈ sel.paths
  old_none : (∀ ri ∈ todo, (flags ri.uid).selected = false) → sel.old = old
  old_some : ∀ ri ∈ todo, (flags ri.uid).selected = true →
    (∀ ri' ∈ todo, (flags ri'.uid).selected = true → ri' = ri) → sel.old = some ri
  new_mem : ∀ ri ∈ sel.new, new = some ri ∨ (ri ∈ sel.paths ∧ Eligible flags ri)

theorem Flags.holddown_of_removed {flags : Flags} (h : flags.removed = true) :
    flags.holddown = true := by
  simp [holddown, unuseable, h]

section

variable {ri : Info} {rest : List Info} {old new new' : Option Info}

/-- A path that stays on the node, with its marks changed or not. -/
theorem Passed.keep (fresh : ri.uid ∉ rest.map Info.uid)
    (passed : Passed rest (if (flags ri.uid).selected then some ri else old) new' flags' sel)
    (marks : SameMarked flags flags') (frame : ∀ u, u ≠ ri.uid → flags' u = flags u)
    (clear : Eligible flags ri →
      (flags' ri.uid).dmedCheck = false ∧ (flags' ri.uid).dmedSelected = false)
    (stays : (flags ri.uid).removed = true → (flags ri.uid).selected = true)
    (chosen : ∀ x ∈ new', new = some x ∨ (x = ri ∧ Eligible flags ri)) :
    Passed (ri :: rest) old new flags { sel with paths := ri :: sel.paths } := by
  have here : sel.flags ri.uid = flags' ri.uid := passed.frame _ fresh
  have eligible : ∀ x, Eligible flags' x ↔ Eligible flags x := by
    intro x
    rw [Eligible, Eligible, marks.holddown]
  refine ⟨marks.trans passed.marks, fun u hu => ?_, passed.sub.cons_cons ri, ?_, ?_, ?_, ?_, ?_, ?_⟩
  · rw [map_cons, mem_cons, not_or] at hu
    exact (passed.frame u hu.2).trans (frame u hu.1)
  · refine forall_mem_cons.mpr ⟨fun h => ?_, fun x hx h => ?_⟩
    · rw [here]
      exact clear h
    · exact passed.unmarked x hx ((eligible x).mpr h)
  · refine forall_mem_cons.mpr ⟨stays, fun x hx h => ?_⟩
    rw [← marks.selected]
    exact passed.removed x hx (by rwa [marks.removed])
  · refine forall_mem_cons.mpr ⟨fun _ => mem_cons_self, fun x hx h => ?_⟩
    exact mem_cons_of_mem _ (passed.selected x hx (by rwa [marks.selected]))
  · intro none
    have first := none ri (by simp)
    have others := passed.old_none fun x hx => by
      rw [marks.selected]
      exact none x (by simp [hx])
    simpa [first] using others
  · refine forall_mem_cons.mpr ⟨fun h only => ?_, fun x hx h only => ?_⟩
    · have others : ∀ x ∈ rest, (flags' x.uid).selected = false := by
        intro x hx
        rw [marks.selected, ← Bool.not_eq_true]
        intro also
        apply fresh
        rw [← only x (by simp [hx]) also]
        exact mem_map_of_mem hx
      simpa [h] using passed.old_none others
    · exact passed.old_some x hx (by rwa [marks.selected]) fun y hy hsel =>
        only y (by simp [hy]) (by rwa [← marks.selected])
  · intro x hx
    rcases passed.new_mem x hx with given | ⟨mem, h⟩
    · rcases chosen x given with given | ⟨rfl, h⟩
      · exact .inl given
      · exact .inr ⟨mem_cons_self, h⟩
    · exact .inr ⟨mem_cons_of_mem _ mem, (eligible x).mp h⟩

theorem Passed.reap
    (passed : Passed rest (if (flags ri.uid).selected then some ri else old) new flags sel)
    (unselected : (flags ri.uid).selected = false) (holddown : (flags ri.uid).holddown = true) :
    Passed (ri :: rest) old new flags sel := by
  rw [if_neg (by simp [unselected])] at passed
  refine ⟨passed.marks, fun u hu => ?_, passed.sub.cons ri, ?_, passed.removed, ?_, fun none => ?_,
    ?_, passed.new_mem⟩
  · rw [map_cons, mem_cons, not_or] at hu
    exact passed.frame u hu.2
  · refine forall_mem_cons.mpr ⟨fun h => ?_, passed.unmarked⟩
    exact absurd h.1 (by simp [holddown])
  · exact forall_mem_cons.mpr ⟨fun h => absurd h (by simp [unselected]), passed.selected⟩
  · exact passed.old_none fun x hx => none x (by simp [hx])
  · refine forall_mem_cons.mpr ⟨fun h => absurd h (by simp [unselected]), fun x hx h only => ?_⟩
    exact passed.old_some x hx h fun y hy => only y (by simp [hy])

theorem selectPass_passed (nodup : (paths.map Info.uid).Nodup)
    (before : ∀ o ∈ old, o.uid ∉ paths.map Info.uid) :
    Passed paths old new flags (selectPass bgp paths old new flags) := by
  induction paths generalizing old new flags with
  | nil =>
    exact ⟨.refl _, fun _ _ => rfl, .refl _, by simp, by simp [selectPass], by simp,
      fun _ => rfl, by simp, fun ri h => .inl h⟩
  | cons ri rest ih =>
    rw [map_cons, nodup_cons] at nodup
    obtain ⟨fresh, nodup⟩ := nodup
    have after : ∀ o ∈ (if (flags ri.uid).selected then some ri else old),
        o.uid ∉ rest.map Info.uid := by
      intro o ho
      split at ho
      · obtain rfl : ri = o := by simpa using ho
        exact fresh
      · exact fun h => before o ho (by simp [h])
    simp only [selectPass]
    by_cases holddown : (flags ri.uid).holddown = true
    · rw [if_pos holddown]
      by_cases reaped : (flags ri.uid).removed = true ∧
          some ri ≠ (if (flags ri.uid).selected then some ri else old)
      · have unselected : (flags ri.uid).selected = false := by
          rw [← Bool.not_eq_true]
          intro h
          exact reaped.2 (by rw [if_pos h])
        rw [if_pos reaped]
        exact (ih nodup after).reap unselected holddown
      · rw [if_neg reaped]
        apply (ih nodup after).keep fresh (.refl flags) (fun _ _ => rfl)
        · exact fun h => absurd h.1 (by simp [holddown])
        · intro removed
          by_contra unselected
          rw [if_neg unselected] at reaped
          refine reaped ⟨removed, fun same => ?_⟩
          exact before ri same.symm (by simp)
        · exact fun x hx => .inl hx
    · rw [if_neg holddown]
      have stays : (flags ri.uid).removed = true → (flags ri.uid).selected = true :=
        fun removed => absurd (holddown_of_removed removed) holddown
      by_cases away : (!ri.counts) = true
      · rw [if_pos away]
        apply (ih nodup after).keep fresh (.refl flags) (fun _ _ => rfl)
        · exact fun h => absurd h.2 (by simpa using away)
        · exact stays
        · exact fun x hx => .inl hx
      · have eligible : Eligible flags ri := ⟨by simpa using holddown, by simpa using away⟩
        rw [if_neg away]
        by_cases loses : (bgp.deterministicMed && !(flags ri.uid).dmedSelected) = true
        · rw [if_pos loses]
          apply (ih nodup after).keep fresh (.check _ _ _)
          · intro u hu
            rw [setFlags_apply, if_neg hu]
          · intro _
            have unmarked : (flags ri.uid).dmedSelected = false := by
              simpa using (Bool.and_eq_true_iff.mp loses).2
            rw [setFlags_apply, if_pos rfl]
            exact ⟨rfl, unmarked⟩
          · exact stays
          · exact fun x hx => .inl hx
        · rw [if_neg loses]
          apply (ih nodup after).keep fresh
            ((SameMarked.check _ _ _).trans (SameMarked.select _ _ _))
          · intro u hu
            rw [setFlags_apply, if_neg hu, setFlags_apply, if_neg hu]
          · intro _
            rw [setFlags_apply, if_pos rfl, setFlags_apply, if_pos rfl]
            exact ⟨rfl, rfl⟩
          · exact stays
          · intro x hx
            split at hx
            · obtain rfl : ri = x := by simpa using hx
              exact .inr ⟨rfl, eligible⟩
            · split at hx
              · obtain rfl : ri = x := by simpa using hx
                exact .inr ⟨rfl, eligible⟩
              · exact .inl hx

end

/-! ## Processed nodes -/

/-- The paths of a node are distinct objects. -/
structure Node where
  paths : List Info
  flags : Nat → Flags
  nodup : (paths.map Info.uid).Nodup

/-- At most one path of the node is selected. -/
def Node.OneSelected (node : Node) : Prop :=
  ∀ x ∈ node.paths, ∀ y ∈ node.paths,
    (node.flags x.uid).selected = true → (node.flags y.uid).selected = true → x = y

/-- Marks apart the flags are as before, no eligible path is marked, and the pair returned is the
path that was selected and one that may be. -/
structure Selected (node : Node) (sel : Selection) : Prop where
  marks : SameMarked node.flags sel.flags
  sub : ∀ ri ∈ sel.paths, ri ∈ node.paths
  unmarked : ∀ ri ∈ sel.paths, Eligible node.flags ri →
    (sel.flags ri.uid).dmedCheck = false ∧ (sel.flags ri.uid).dmedSelected = false
  removed : ∀ ri ∈ sel.paths, (node.flags ri.uid).removed = true → sel.old = some ri
  old : ∀ ri, sel.old = some ri ↔ ri ∈ node.paths ∧ (node.flags ri.uid).selected = true
  new : ∀ ri ∈ sel.new, ri ∈ sel.paths ∧ Eligible node.flags ri

theorem bgpBestSelection_selected {node : Node} (one : node.OneSelected) :
    Selected node (bgpBestSelection bgp node.paths node.flags) := by
  rw [bgpBestSelection]
  set flags := if bgp.deterministicMed then dmedPass bgp node.paths node.flags else node.flags
    with hflags
  have first : SameMarked node.flags flags := by
    rw [hflags]
    split
    · exact dmedPass_frame _ _
    · exact .refl _
  have passed : Passed node.paths none none flags (selectPass bgp node.paths none none flags) :=
    selectPass_passed node.nodup (by simp)
  have eligible : ∀ ri, Eligible flags ri ↔ Eligible node.flags ri := by
    intro ri
    rw [Eligible, Eligible, first.holddown]
  have old : ∀ ri ∈ node.paths, (node.flags ri.uid).selected = true →
      (selectPass bgp node.paths none none flags).old = some ri := by
    intro ri hri selected
    apply passed.old_some ri hri (by rwa [first.selected])
    intro other hother also
    exact one other hother ri hri (by rwa [first.selected] at also) selected
  refine ⟨first.trans passed.marks, fun ri h => passed.sub.subset h, fun ri h hel => ?_,
    fun ri h hrem => ?_, fun ri => ⟨fun h => ?_, fun h => old ri h.1 h.2⟩, fun ri h => ?_⟩
  · exact passed.unmarked ri (passed.sub.subset h) ((eligible ri).mpr hel)
  · apply old ri (passed.sub.subset h)
    rw [← first.selected]
    exact passed.removed ri h (by rwa [first.removed])
  · by_cases some : ∃ x ∈ node.paths, (node.flags x.uid).selected = true
    · obtain ⟨x, hx, selected⟩ := some
      cases (old x hx selected).symm.trans h
      exact ⟨hx, selected⟩
    · push Not at some
      have none := passed.old_none fun x hx => by
        rw [first.selected, ← Bool.not_eq_true]
        exact some x hx
      exact absurd (none.symm.trans h) (by simp)
  · rcases passed.new_mem ri h with given | ⟨mem, hel⟩
    · exact absurd given (by simp)
    · exact ⟨mem, (eligible ri).mp hel⟩

/-- A node as processing leaves it. -/
structure Clean (out : Selection) : Prop where
  removed : ∀ ri ∈ out.paths, (out.flags ri.uid).removed = false
  unmarked : ∀ ri ∈ out.paths, Eligible out.flags ri →
    (out.flags ri.uid).dmedCheck = false ∧ (out.flags ri.uid).dmedSelected = false
  selected : ∀ ri ∈ out.paths, (out.flags ri.uid).selected = true ↔ out.new = some ri
  new : ∀ ri ∈ out.new, ri ∈ out.paths ∧ (out.flags ri.uid).valid = true ∧
    (out.flags ri.uid).history = false ∧ (out.flags ri.uid).damped = false ∧
    (out.flags ri.uid).removed = false

/-- The flags that processing a selection does not touch. -/
def Flags.settled (flags : Flags) : Flags := { flags with selected := false, attrChanged := false }

theorem Flags.usable_of_not_holddown {flags : Flags} (h : flags.holddown = false) :
    flags.valid = true ∧ flags.history = false ∧ flags.damped = false ∧ flags.removed = false := by
  simp only [holddown, unuseable, Bool.or_eq_false_iff, Bool.not_eq_false'] at h
  exact ⟨h.1, h.2.1.1, h.2.1.2, h.2.2⟩

/-- A selection whose flags are settled is clean, when the new path alone is selected and the old
one is gone if removed. -/
theorem Selected.clean {node : Node} {out : Selection}
    (chosen : Selected node sel) (settled : ∀ u, (out.flags u).settled = (sel.flags u).settled)
    (sub : ∀ ri ∈ out.paths, ri ∈ sel.paths) (same : out.new = sel.new)
    (kept : ∀ ri ∈ sel.new, ri ∈ out.paths)
    (reaped : ∀ ri ∈ out.paths, (node.flags ri.uid).removed = true → sel.old ≠ some ri)
    (selected : ∀ ri ∈ out.paths, (out.flags ri.uid).selected = true ↔ sel.new = some ri) :
    Clean out := by
  have fields : ∀ u, (out.flags u).holddown = (node.flags u).holddown ∧
      (out.flags u).removed = (node.flags u).removed ∧
      (out.flags u).dmedCheck = (sel.flags u).dmedCheck ∧
      (out.flags u).dmedSelected = (sel.flags u).dmedSelected := by
    intro u
    have left := congrArg Flags.holddown (settled u)
    have right := congrArg Flags.removed (settled u)
    have check := congrArg Flags.dmedCheck (settled u)
    have mark := congrArg dmedSelected (settled u)
    exact ⟨left.trans (chosen.marks.holddown u), right.trans (chosen.marks.removed u), check, mark⟩
  refine ⟨fun ri h => ?_, fun ri h hel => ?_, fun ri h => ?_, fun ri h => ?_⟩
  · rw [(fields ri.uid).2.1, ← Bool.not_eq_true]
    intro removed
    exact reaped ri h removed (chosen.removed ri (sub ri h) removed)
  · rw [(fields ri.uid).2.2.1, (fields ri.uid).2.2.2]
    exact chosen.unmarked ri (sub ri h) ⟨(fields ri.uid).1 ▸ hel.1, hel.2⟩
  · rw [same]
    exact selected ri h
  · rw [same] at h
    have hel := (chosen.new ri h).2
    exact ⟨kept ri h, usable_of_not_holddown ((fields ri.uid).1.trans hel.1)⟩

theorem mpathAggregateUpdate_spec (mpathChanged : Bool) (new : Option Info)
    (flags : Nat → Flags) (u : Nat) :
    (mpathAggregateUpdate mpathChanged new flags u).settled = (flags u).settled ∧
      (mpathAggregateUpdate mpathChanged new flags u).selected = (flags u).selected := by
  cases new with
  | none => exact ⟨rfl, rfl⟩
  | some new =>
    rw [mpathAggregateUpdate]
    split
    · rw [setFlags_apply]
      split <;> exact ⟨rfl, rfl⟩
    · exact ⟨rfl, rfl⟩

theorem unselectOld_spec (old : Option Info) (flags : Nat → Flags) (u : Nat) :
    (unselectOld old flags u).settled = (flags u).settled ∧
      (unselectOld old flags u).selected =
        ((flags u).selected && decide (old.map Info.uid ≠ some u)) := by
  cases old with
  | none => simp [unselectOld]
  | some old =>
    rw [unselectOld, setFlags_apply]
    split
    · next same => simp [same, settled, setSelected]
    · next differ => simp [Ne.symm differ]

theorem selectNew_spec (new : Option Info) (flags : Nat → Flags) (u : Nat) :
    (selectNew new flags u).settled = (flags u).settled ∧
      (selectNew new flags u).selected =
        ((flags u).selected || decide (new.map Info.uid = some u)) := by
  cases new with
  | none => simp [selectNew]
  | some new =>
    rw [selectNew, setFlags_apply, setFlags_apply]
    split
    · next same => simp [same, settled, setSelected, setAttrChanged]
    · next differ => simp [Ne.symm differ]

theorem mem_reapOld {old : Option Info} {ri : Info} : ri ∈ reapOld old flags paths ↔
      ri ∈ paths ∧ (old = some ri → (flags ri.uid).removed = false) := by
  cases old with
  | none => simp [reapOld]
  | some old =>
    rw [reapOld]
    split
    · next removed =>
      rw [mem_filter, decide_eq_true_iff, Option.some.injEq]
      refine and_congr_right fun _ => ⟨fun differ same => absurd same.symm differ, ?_⟩
      rintro kept rfl
      exact absurd (kept rfl) (by simp [removed])
    · next stays =>
      refine ⟨fun h => ⟨h, ?_⟩, fun h => h.1⟩
      intro same
      rw [Option.some.injEq] at same
      simpa [same] using stays

/-- A node with at most one selected path has no removed path and no marked one after it was
processed; exactly the path chosen is selected, and that path can be used. -/
theorem bgpProcessMain_clean {bgp : Bgp} {node : Node} {mpathChanged : Bool}
    (one : node.OneSelected) :
    Clean (bgpProcessMain bgp node.paths node.flags mpathChanged) := by
  have chosen : Selected node (bgpBestSelection bgp node.paths node.flags) :=
    bgpBestSelection_selected one
  rw [bgpProcessMain]
  generalize bgpBestSelection bgp node.paths node.flags = sel at chosen ⊢
  have usable : ∀ ri ∈ sel.new, (node.flags ri.uid).removed = false :=
    fun ri h => (usable_of_not_holddown (chosen.new ri h).2.1).2.2.2
  have before : ∀ ri ∈ sel.paths, (sel.flags ri.uid).selected = true ↔ sel.old = some ri := by
    intro ri h
    rw [chosen.old, chosen.marks.selected]
    exact ⟨fun selected => ⟨chosen.sub ri h, selected⟩, fun both => both.2⟩
  have aggregate := mpathAggregateUpdate_spec mpathChanged sel.new sel.flags
  split
  · next idle =>
    have settled := fun u => (aggregate u).1
    refine chosen.clean settled (fun ri h => h) rfl (fun ri h => (chosen.new ri h).1) ?_ ?_
    · intro ri h removed old
      exact absurd (usable ri (idle.2.1 ▸ old)) (by simp [removed])
    · intro ri h
      rw [(aggregate ri.uid).2, before ri h, idle.2.1]
  · next busy =>
    have unselect := unselectOld_spec sel.old (mpathAggregateUpdate mpathChanged sel.new sel.flags)
    have select := selectNew_spec sel.new
      (unselectOld sel.old (mpathAggregateUpdate mpathChanged sel.new sel.flags))
    have settled := fun u => (select u).1.trans ((unselect u).1.trans (aggregate u).1)
    have removed : ∀ u, (selectNew sel.new (unselectOld sel.old
        (mpathAggregateUpdate mpathChanged sel.new sel.flags)) u).removed =
        (node.flags u).removed := by
      intro u
      have same := congrArg removed (settled u)
      exact same.trans (chosen.marks.removed u)
    have same : ∀ x ∈ node.paths, ∀ y ∈ node.paths, x.uid = y.uid → x = y :=
      fun x hx y hy => inj_on_of_nodup_map node.nodup hx hy
    refine chosen.clean settled (fun ri h => (mem_reapOld.mp h).1) rfl ?_ ?_ ?_
    · intro ri h
      refine mem_reapOld.mpr ⟨(chosen.new ri h).1, fun _ => ?_⟩
      rw [removed]
      exact usable ri h
    · intro ri h gone old
      have := (mem_reapOld.mp h).2 old
      rw [removed, gone] at this
      exact absurd this (by decide)
    · intro ri h
      have mem := (mem_reapOld.mp h).1
      rw [(select ri.uid).2, (unselect ri.uid).2, (aggregate ri.uid).2, Bool.or_eq_true,
        Bool.and_eq_true, decide_eq_true_iff, decide_eq_true_iff, before ri mem]
      constructor
      · rintro (⟨old, differ⟩ | new)
        · exact absurd (by rw [old]; rfl) differ
        · obtain ⟨x, hx, uid⟩ := Option.map_eq_some_iff.mp new
          rw [hx, same x (chosen.sub x (chosen.new x hx).1) ri (chosen.sub ri mem) uid]
      · intro new
        right
        rw [new]
        rfl

/-- The settings of a new instance. -/
def bgpCreate : Bgp where
  defaultLocalPref := 100
  alwaysCompareMed := false
  deterministicMed := false
  medMissingAsWorst := false
  medConfed := false
  aspathIgnore := false
  aspathConfed := false
  aspathMultipathRelax := false
  compareRouterId := false
  mpathConfigured := false
  confederation := none
  confedPeers := []

/-- A path learned from a neighbour of its own. -/
def learnedPath (uid : Nat) (aspath : List Segment) (med : Option Nat) : Info where
  uid := uid
  peer :=
    { isSelf := false, established := true, nsfWait := false, localAs := 65000, as := 65001,
      remoteId := uid, suRemote := some ⟨2, uid⟩, self_idle := by simp,
      configured := by intro; decide }
  attr :=
    { aspath, origin := 0, weight := 0, localPref := none, med, originatorId := none,
      clusterLength := none }
  subType := .normal
  igpmetric := 0

/-- The flags of a path that can be used. -/
def Flags.usable : Flags where
  igpChanged := false
  damped := false
  history := false
  selected := false
  valid := true
  attrChanged := false
  dmedCheck := false
  dmedSelected := false
  stale := false
  removed := false
  counted := true

/-- A selected path was withdrawn, and another one is there. -/
def withdrawnBest : Node where
  paths := [learnedPath 1 [] none, learnedPath 2 [] none]
  flags uid :=
    if uid = 1 then { Flags.usable with selected := true, valid := false, removed := true }
    else .usable
  nodup := by decide

theorem withdrawnBest_clean : withdrawnBest.OneSelected ∧
      Clean (bgpProcessMain bgpCreate withdrawnBest.paths withdrawnBest.flags false) := by
  have one : withdrawnBest.OneSelected := by
    simp [Node.OneSelected, withdrawnBest, learnedPath, usable]
  exact ⟨one, bgpProcessMain_clean one⟩

end Mp2mp.Bgpd
