import Mp2mp.Lib.RouteOrder

/-!
# Iteration that can be paused

`table.c`, `table.h`: an iterator over a route table is on a node that it holds a lock of, or is
paused at a prefix.  While it is paused it holds nothing, and goes on with what comes after the
prefix in the order of `route_table_prefix_iter_cmp`.

* `Underway.step`: what one step of an iteration keeps, or of the other users of the table.
* `run_seen`: what is there all the time is not left out.
* `routeTableIter_complete`: the nodes come in order, and each of those once.
-/

namespace Mp2mp.Lib

open Kit Kit.BitTrie RouteTable EStateM Prefix List

variable {α : Type} {k : List Bool} {t : RouteTable α} {e : TableEvent α}

/-! ## The iterator -/

/-- `route_table_iter_state_t` -/
inductive IterState
  | init
  | iterating
  | paused
  | done
deriving DecidableEq, Repr

/-- `route_table_iter_t` -/
structure Iter where
  state : IterState := .init
  current : Option Nat := none
  pausePrefix : Prefix := ⟨0, []⟩
deriving DecidableEq, Repr

/-- A table with an iterator over it, what the iterator has returned so far, and whether it has
found that there is no more. -/
structure IterWorld (α : Type) where
  table : RouteTable α
  iter : Iter := {}
  yielded : List Prefix := []
  ended : Bool := false

open IterWorld

def onTable {β : Type} (x : Op α β) : EStateM Fault (IterWorld α) β := fun w =>
  match x.run w.table with
  | .ok b t => .ok b { w with table := t }
  | .error f t => .error f { w with table := t }

/-- The node becomes the current one. -/
def IterWorld.advanced (w : IterWorld α) (node : Option Nat) : IterWorld α :=
  { w with
    iter := { w.iter with current := node, state := if node.isSome then .iterating else .done }
    yielded := w.yielded ++ ((node.bind w.table.node).map (·.p)).toList
    ended := w.ended || node.isNone }

/-- The end of `route_table_iter_next`. -/
def advance (x : Op α (Option Nat)) : EStateM Fault (IterWorld α) (Option Nat) := do
  let node ← onTable x
  modify (·.advanced node)
  pure node

def routeTableIterNext : EStateM Fault (IterWorld α) (Option Nat) := do
  let iter := (← get).iter
  match iter.state with
  | .init => advance routeTop
  | .iterating =>
    match iter.current with
    | some id => advance (routeNext id)
    | none => throw .freed
  | .paused => advance (routeTableGetNext iter.pausePrefix)
  | .done => pure none

def routeTableIterPause : EStateM Fault (IterWorld α) Unit := do
  let iter := (← get).iter
  match iter.state with
  | .iterating =>
    match iter.current with
    | some id => do
      let node ← onTable (deref id)
      onTable (routeUnlockNode id)
      modify fun w => { w with iter := ⟨.paused, none, node.p⟩ }
    | none => throw .freed
  | .init | .paused | .done => pure ()

def routeTableIterCleanup : EStateM Fault (IterWorld α) Unit := do
  let iter := (← get).iter
  match iter.state with
  | .iterating =>
    match iter.current with
    | some id => do
      onTable (routeUnlockNode id)
      modify fun w => { w with iter := { w.iter with state := .done, current := none } }
    | none => throw .freed
  | .init | .paused | .done =>
    if iter.current.isSome then throw .assertion
    else modify fun w => { w with iter := { w.iter with state := .done } }

/-- What the user of an iterator and the other users of the table do. -/
inductive IterEvent (α : Type)
  | table (e : TableEvent α)
  | next
  | pause
  | cleanup

def iterStep : IterEvent α → EStateM Fault (IterWorld α) Unit
  | .table e => onTable (tableStep e)
  | .next => do let _ ← routeTableIterNext
  | .pause => routeTableIterPause
  | .cleanup => routeTableIterCleanup

/-- The lock of the iterator is not for others to drop. -/
def sparesIter (w : IterWorld α) (e : TableEvent α) : Bool :=
  match w.iter.current with
  | some id =>
    e.drops != some id ||
      match w.table.node id with
      | some n => 1 < n.lock
      | none => false
  | none => true

/-- The rules for the users of the table while an iterator is in use. -/
def mayIterate (w : IterWorld α) : IterEvent α → Bool
  | .table e => mayDo w.table e && sparesIter w e
  | .next | .pause | .cleanup => true

/-! ## Whole iterations -/

section

variable {w w' : IterWorld α} {r : Option Nat} {tr : List (IterEvent α)}

theorem run_onTable {β : Type} {x : Op α β} {b : β} : (onTable x).run w = .ok b w' ↔
      ∃ t, x.run w.table = .ok b t ∧ w' = { w with table := t } := by
  change (match x.run w.table with
    | .ok b t => EStateM.Result.ok b { w with table := t }
    | .error f t => .error f { w with table := t }) = _ ↔ _
  cases x.run w.table with
  | ok c t => simp [eq_comm]
  | error f t => simp

theorem run_advance {x : Op α (Option Nat)} : (advance x).run w = .ok r w' ↔
      ∃ t, x.run w.table = .ok r t ∧ w' = advanced { w with table := t } r := by
  rw [advance, run_bind_ok]
  constructor
  · rintro ⟨a, w₁, hx, hrest⟩
    obtain ⟨t, ht, rfl⟩ := run_onTable.mp hx
    cases hrest
    exact ⟨t, ht, rfl⟩
  · rintro ⟨t, ht, rfl⟩
    exact ⟨r, _, run_onTable.mpr ⟨t, ht, rfl⟩, rfl⟩

/-- Where an iteration is: the current node is locked and the nodes returned so far are up to it,
or up to the prefix it is paused at. -/
structure Underway (w : IterWorld α) : Prop where
  inv : Inv w.table
  sorted : w.yielded.Pairwise fun p q => p.bits < q.bits
  started : w.iter.state = .init → w.yielded = []
  locked : ∀ c, w.iter.current = some c → w.iter.state = .iterating ∧
    ∃ p l v, w.table.tag c = some (p, l, v) ∧ 0 < l ∧ ∀ q ∈ w.yielded, q.bits ≤ p.bits
  current : w.iter.state = .iterating → w.iter.current.isSome
  paused : w.iter.state = .paused → ∀ q ∈ w.yielded, q.bits ≤ w.iter.pausePrefix.bits

/-- The key that an iteration has come to. -/
def Position (w : IterWorld α) (k : List Bool) : Prop :=
  (∃ c p l v, w.iter.current = some c ∧ w.table.tag c = some (p, l, v) ∧ p.bits = k) ∨
    (w.iter.state = .paused ∧ w.iter.pausePrefix.bits = k)

/-- A key that is there all the time has been returned once the iteration is past it. -/
structure Seen (k : List Bool) (w : IterWorld α) : Prop where
  passed : ∀ q, Position w q → k ≤ q → k ∈ w.yielded.map Prefix.bits
  ended : w.ended = true → k ∈ w.yielded.map Prefix.bits

def Present (k : List Bool) (t : RouteTable α) : Prop := ∃ id n, t.node id = some n ∧ n.p.bits = k

/-- The node that the iterator goes on to is the first one beyond the position. -/
structure Follows (w : IterWorld α) (r : Option Nat) (t : RouteTable α) : Prop where
  inv : Inv t
  first : ∀ m, r = some m → ∃ p l v, t.tag m = some (p, l, v) ∧ 0 < l ∧
    (∀ q ∈ w.yielded, q.bits < p.bits) ∧
    ∀ k, Present k w.table → (∀ q, Position w q → q < k) → p.bits ≤ k
  last : r = none → ∀ k, Present k w.table → ¬∀ q, Position w q → q < k

theorem Underway.advance (h : Underway w)
    (hf : Follows w r t) : Underway (advanced { w with table := t } r) := by
  cases r with
  | none =>
    refine ⟨hf.inv, ?_, nofun, nofun, nofun, nofun⟩
    simpa [advanced] using h.sorted
  | some m =>
    obtain ⟨p, l, v, htag, hl, hbeyond, -⟩ := hf.first m rfl
    obtain ⟨n, hn, heq⟩ := node_of_tag htag
    have hyield : (advanced { w with table := t } (some m)).yielded = w.yielded ++ [p] := by
      simp [advanced, hn, heq.1]
    refine ⟨hf.inv, ?_, nofun, fun c hc => ⟨rfl, ?_⟩, fun _ => rfl, nofun⟩
    · rw [hyield, pairwise_append]
      refine ⟨h.sorted, pairwise_singleton _ _, fun q hq q' hq' => ?_⟩
      rw [mem_singleton.mp hq']
      exact hbeyond q hq
    · cases hc
      refine ⟨p, l, v, htag, hl, fun q hq => ?_⟩
      rw [hyield] at hq
      rcases mem_append.mp hq with hq | hq
      · exact (hbeyond q hq).le
      · rw [mem_singleton.mp hq]

theorem Seen.advance (h : Seen k w) (hk : Present k w.table) (hf : Follows w r t) :
    Seen k (advanced { w with table := t } r) := by
  -- a key that was not returned is beyond the position
  have hbeyond : k ∉ w.yielded.map bits → ∀ q, Position w q → q < k := by
    intro hnot q hq
    by_contra hge
    exact hnot (h.passed q hq (le_of_not_gt hge))
  by_cases hin : k ∈ w.yielded.map bits
  · have hin' : k ∈ (advanced { w with table := t } r).yielded.map bits := by
      simp only [advanced, map_append, mem_append]
      exact .inl hin
    exact ⟨fun _ _ _ => hin', fun _ => hin'⟩
  · cases r with
    | none => exact absurd (hbeyond hin) (hf.last rfl k hk)
    | some m =>
      obtain ⟨p, l, v, htag, -, -, hleast⟩ := hf.first m rfl
      obtain ⟨n, hn, heq⟩ := node_of_tag htag
      have hle := hleast k hk (hbeyond hin)
      refine ⟨fun q hq hkq => ?_, fun hended => ?_⟩
      · rcases hq with ⟨c, p', l', v', hc, htag', rfl⟩ | ⟨hpaused, -⟩
        · cases hc
          cases htag.symm.trans htag'
          rw [le_antisymm hkq hle]
          simp [advanced, hn, heq.1]
        · cases hpaused
      · refine absurd (h.ended ?_) hin
        simpa [advanced] using hended

/-- The search from the position of the iteration. -/
theorem Follows.of_next (hpos : ∀ q, Position w q ↔ q = k) (hy : ∀ q ∈ w.yielded, q.bits ≤ k)
    (hnext : NextIn w.table.view k r) (hinv : Inv t)
    (hlock : ∀ m n, r = some m → w.table.node m = some n →
      ∃ l v, t.tag m = some (n.p, l, v) ∧ 0 < l) : Follows w r t := by
  refine ⟨hinv, fun m hm => ?_, fun hnone k' hk' hall => ?_⟩
  · obtain ⟨km, hkm, hlt, hleast⟩ := hnext.least m hm
    obtain ⟨n, hn, rfl⟩ := node_of_key hkm
    obtain ⟨l, v, htag, hl⟩ := hlock m n hm hn
    refine ⟨n.p, l, v, htag, hl, fun q hq => (hy q hq).trans_lt hlt, fun k' hk' hall => ?_⟩
    obtain ⟨j, n', hn', rfl⟩ := hk'
    exact hleast j _ (key_of_node hn') (hall k ((hpos k).mpr rfl))
  · obtain ⟨j, n', hn', rfl⟩ := hk'
    exact hnext.last hnone j _ (key_of_node hn') (hall k ((hpos k).mpr rfl))

theorem moveTo_ok {s t : RouteTable α} {id : Nat} {r' : Option Nat} (h : Inv s)
    (hne : r ≠ some id) (hrun : (moveTo id r).run s = .ok r' t) :
    r' = r ∧ Inv t ∧
      ∀ m n, r = some m → s.node m = some n → ∃ l v, t.tag m = some (n.p, l, v) ∧ 0 < l := by
  have hkeep : Keep s.held (fun _ => none) s := ⟨h, rfl, nofun⟩
  refine ⟨?_, ((moveTo_keep id r).of_ok hkeep hrun).inv, ?_⟩
  · cases r with
    | none =>
      obtain ⟨u, s₁, -, hpure⟩ := run_bind_ok.mp hrun
      cases hpure
      rfl
    | some m =>
      obtain ⟨u, s₁, -, hrest⟩ := run_bind_ok.mp hrun
      obtain ⟨u', s₂, -, hpure⟩ := run_bind_ok.mp hrest
      cases hpure
      rfl
  · rintro m n rfl hn
    obtain ⟨u, s₁, hlock, hrest⟩ := run_bind_ok.mp hrun
    obtain ⟨u', s₂, hunlock, hpure⟩ := run_bind_ok.mp hrest
    cases hpure
    obtain ⟨s₁', hlock', hinv₁, -, htag⟩ := h.lock_live (by rw [hn]; rfl : (s.node m).isSome)
    cases hlock.symm.trans hlock'
    have hkeep₁ : Keep s₁.held (fun j => if j = m then some (n.p, 0) else none) s₁ := by
      refine ⟨hinv₁, rfl, fun j p k hj => ?_⟩
      split at hj
      · rename_i heq
        cases hj
        rw [htag, if_pos heq, heq, tag_of_node hn]
        exact ⟨_, _, rfl, Nat.succ_pos _⟩
      · cases hj
    have hkeep₂ := (routeUnlockNode_keep id).of_ok hkeep₁ hunlock
    refine hkeep₂.locked m n.p 0 ?_
    rw [lessOne, if_neg fun heq => hne (congrArg some heq), if_pos rfl]

theorem routeTop_ok {s t : RouteTable α} (h : Inv s) (hrun : routeTop.run s = .ok r t) :
    r = s.top ∧ Inv t ∧
      ∀ m n, r = some m → s.node m = some n → ∃ l v, t.tag m = some (n.p, l, v) ∧ 0 < l := by
  cases htop : s.top with
  | none =>
    simp only [routeTop, run_bind, run_get, htop] at hrun
    cases hrun
    exact ⟨rfl, h, by simp⟩
  | some d =>
    obtain ⟨-, k, hk⟩ := h.sound.trie.top htop
    obtain ⟨nd, hnd, -⟩ := node_of_key hk
    obtain ⟨s₁, hlock, hinv, -, htag⟩ := h.lock_live (by rw [hnd]; rfl : (s.node d).isSome)
    simp only [routeTop, run_bind, run_get, htop, hlock, run_pure] at hrun
    cases hrun
    refine ⟨rfl, hinv, fun m n hm hn => ?_⟩
    cases hm
    rw [htag, if_pos rfl, tag_of_node hn]
    exact ⟨_, _, rfl, Nat.succ_pos _⟩

/-- `route_table_iter_next` goes on to the first node beyond the position, if it is not done. -/
theorem routeTableIterNext_ok (h : Underway w) (hrun : routeTableIterNext.run w = .ok r w') :
    w' = w ∨ ∃ t, Follows w r t ∧ w' = advanced { w with table := t } r := by
  have hok := h.inv.sound.trie
  rw [routeTableIterNext, run_bind, run_get] at hrun
  dsimp only at hrun
  cases hstate : w.iter.state with
  | init =>
    rw [hstate] at hrun
    obtain ⟨t, ht, rfl⟩ := run_advance.mp hrun
    obtain ⟨rfl, hinv, hlock⟩ := routeTop_ok h.inv ht
    refine .inr ⟨t, ⟨hinv, fun m hm => ?_, fun hnone k hk _ => ?_⟩, rfl⟩
    · obtain ⟨-, km, hkm⟩ := hok.top hm
      obtain ⟨n, hn, -⟩ := node_of_key hkm
      obtain ⟨l, v, htag, hl⟩ := hlock m n hm hn
      refine ⟨n.p, l, v, htag, hl, by rw [h.started hstate]; exact nofun, fun k hk _ => ?_⟩
      obtain ⟨j, n', hn', rfl⟩ := hk
      obtain ⟨d, kd, hd, hkd, hpre⟩ := hok.least (key_of_node hn')
      cases hd.symm.trans hm
      cases hkd.symm.trans (key_of_node hn)
      exact le_of_start hpre
    · obtain ⟨j, n', hn', rfl⟩ := hk
      obtain ⟨d, kd, hd, -⟩ := hok.least (key_of_node hn')
      cases hd.symm.trans hnone
  | iterating =>
    obtain ⟨c, hc⟩ := Option.isSome_iff_exists.mp (h.current hstate)
    rw [hstate, hc] at hrun
    obtain ⟨t, ht, rfl⟩ := run_advance.mp hrun
    obtain ⟨-, p, l, v, htag, -, hy⟩ := h.locked c hc
    obtain ⟨n, hn, rfl, -⟩ := node_of_tag htag
    obtain ⟨r', hmove, -, hnext⟩ := routeNextUntil_run hok hn none
    obtain ⟨hleast, hlast⟩ := hnext rfl
    have hne : r' ≠ some c := by
      rintro rfl
      obtain ⟨kc, hkc, hlt, -⟩ := hleast c rfl
      cases hkc.symm.trans (key_of_node hn)
      exact lt_irrefl _ hlt
    rw [routeNext, hmove] at ht
    obtain ⟨rfl, hinv, hlock⟩ := moveTo_ok h.inv hne ht
    have hpos : ∀ q, Position w q ↔ q = n.p.bits := by
      intro q
      constructor
      · rintro (⟨c', p', l', v', hc', htag', rfl⟩ | ⟨hpaused, -⟩)
        · cases hc.symm.trans hc'
          cases htag.symm.trans htag'
          rfl
        · cases hstate.symm.trans hpaused
      · rintro rfl
        exact .inl ⟨c, n.p, l, v, hc, htag, rfl⟩
    exact .inr ⟨t, Follows.of_next hpos hy ⟨hleast, hlast⟩ hinv hlock, rfl⟩
  | paused =>
    rw [hstate] at hrun
    obtain ⟨t, ht, rfl⟩ := run_advance.mp hrun
    obtain ⟨r', t', hget, hnext, hinv, hlock⟩ := routeTableGetNext_spec h.inv w.iter.pausePrefix
    cases ht.symm.trans hget
    have hpos : ∀ q, Position w q ↔ q = w.iter.pausePrefix.bits := by
      intro q
      constructor
      · rintro (⟨c, p, l, v, hc, -, -⟩ | ⟨-, hq⟩)
        · cases hstate.symm.trans (h.locked c hc).1
        · exact hq.symm
      · rintro rfl
        exact .inr ⟨hstate, rfl⟩
    exact .inr ⟨t, Follows.of_next hpos (h.paused hstate) hnext hinv hlock, rfl⟩
  | done =>
    rw [hstate] at hrun
    cases hrun
    exact .inl rfl

/-- The other steps return nothing and do not move the iteration. -/
structure Rests (w w' : IterWorld α) : Prop where
  yielded : w'.yielded = w.yielded
  ended : w'.ended = w.ended
  position : ∀ q, Position w' q → Position w q

theorem Seen.rests (h : Seen k w) (hr : Rests w w') : Seen k w' := by
  refine ⟨fun q hq hkq => ?_, fun hended => ?_⟩
  · rw [hr.yielded]
    exact h.passed q (hr.position q hq) hkq
  · rw [hr.yielded]
    exact h.ended (hr.ended ▸ hended)

/-- What other users do leaves the iterator its node and its lock. -/
theorem tableStep_current {c l : Nat} {p : Prefix}
    {v : Option α} (hinv : Inv w.table) (hmay : mayIterate w (.table e) = true)
    (hc : w.iter.current = some c) (htag : w.table.tag c = some (p, l, v)) (hl : 0 < l)
    (hrun : (tableStep e).run w.table = .ok () t) :
    ∃ l' v', t.tag c = some (p, l', v') ∧ 0 < l' := by
  obtain ⟨hdo, hspare⟩ := Bool.and_eq_true_iff.mp hmay
  by_cases he : ∃ id u, e = .setInfo id u
  · obtain ⟨id, u, rfl⟩ := he
    obtain ⟨n, hn, rfl⟩ := setInfo_ok hrun
    rw [(setInfo_spec hinv hn (mayDo_setInfo hdo hn)).2.2, htag]
    split
    · exact ⟨l, u, rfl, hl⟩
    · exact ⟨l, v, rfl, hl⟩
  · push Not at he
    -- a lock that is dropped from the node is not the last
    have hdrop : e.drops = some c → 1 < l := by
      intro hdrop
      obtain ⟨n, hn, heq⟩ := node_of_tag htag
      simp only [sparesIter, hc, hdrop, hn] at hspare
      rw [← heq.2.1]
      simpa using hspare
    have hkeep : Keep w.table.held
        (fun j => if j = c then some (p, if e.drops = some c then 1 else 0) else none) w.table := by
      refine ⟨hinv, rfl, fun j q k hj => ?_⟩
      split at hj
      · rename_i heq
        cases hj
        refine ⟨l, v, heq ▸ htag, ?_⟩
        split
        · rename_i hd
          exact hdrop hd
        · exact hl
      · cases hj
    have hkeep' := (tableStep_keep he).of_ok hkeep hrun
    refine hkeep'.locked c p 0 ?_
    unfold TableEvent.leaves
    cases hd : e.drops with
    | none => simp
    | some id =>
      dsimp only
      rw [lessOne]
      by_cases hid : c = id
      · subst hid
        simp
      · rw [if_neg hid]
        simp [Ne.symm hid]

theorem Underway.table (h : Underway w)
    (hmay : mayIterate w (.table e) = true) (hrun : (tableStep e).run w.table = .ok () t) :
    Underway { w with table := t } ∧ Rests w { w with table := t } := by
  have hdo := (Bool.and_eq_true_iff.mp hmay).1
  refine ⟨⟨tableStep_inv h.inv hdo hrun, h.sorted, h.started, fun c hc => ?_, h.current, h.paused⟩,
    rfl, rfl, fun q hq => ?_⟩
  · obtain ⟨hstate, p, l, v, htag, hl, hy⟩ := h.locked c hc
    obtain ⟨l', v', htag', hl'⟩ := tableStep_current h.inv hmay hc htag hl hrun
    exact ⟨hstate, p, l', v', htag', hl', hy⟩
  · rcases hq with ⟨c, p, l, v, hc, htag, rfl⟩ | hpaused
    · obtain ⟨-, p', l', v', htag', hl', -⟩ := h.locked c hc
      obtain ⟨l₂, v₂, htag₂, -⟩ := tableStep_current h.inv hmay hc htag' hl' hrun
      cases htag.symm.trans htag₂
      exact .inl ⟨c, p, l', v', hc, htag', rfl⟩
    · exact .inr hpaused

theorem unlock_inv {s t : RouteTable α} {id : Nat} (h : Inv s)
    (hrun : (routeUnlockNode id).run s = .ok () t) : Inv t := by
  have hkeep : Keep s.held (fun _ => none) s := ⟨h, rfl, nofun⟩
  exact ((routeUnlockNode_keep id).of_ok hkeep hrun).inv

theorem Underway.pause (h : Underway w) (hrun : routeTableIterPause.run w = .ok () w') :
    Underway w' ∧ Rests w w' := by
  rw [routeTableIterPause, run_bind, run_get] at hrun
  dsimp only at hrun
  cases hstate : w.iter.state with
  | iterating =>
    obtain ⟨c, hc⟩ := Option.isSome_iff_exists.mp (h.current hstate)
    obtain ⟨-, p, l, v, htag, -, hy⟩ := h.locked c hc
    obtain ⟨n, hn, rfl, -⟩ := node_of_tag htag
    rw [hstate, hc] at hrun
    obtain ⟨n', w₁, hderef, hrest⟩ := run_bind_ok.mp hrun
    obtain ⟨t₁, hread, rfl⟩ := run_onTable.mp hderef
    cases (run_deref hn).symm.trans hread
    obtain ⟨u, w₂, hunlock, hrest⟩ := run_bind_ok.mp hrest
    obtain ⟨t, ht, rfl⟩ := run_onTable.mp hunlock
    cases hrest
    refine ⟨⟨unlock_inv h.inv ht, h.sorted, nofun, nofun, nofun, fun _ => hy⟩, rfl, rfl, ?_⟩
    rintro q (⟨c', p', l', v', hc', -, -⟩ | ⟨-, rfl⟩)
    · cases hc'
    · exact .inl ⟨c, n.p, l, v, hc, htag, rfl⟩
  | init =>
    rw [hstate] at hrun
    cases hrun
    exact ⟨h, rfl, rfl, fun _ hq => hq⟩
  | paused =>
    rw [hstate] at hrun
    cases hrun
    exact ⟨h, rfl, rfl, fun _ hq => hq⟩
  | done =>
    rw [hstate] at hrun
    cases hrun
    exact ⟨h, rfl, rfl, fun _ hq => hq⟩

theorem Underway.stop (h : Underway w) (hinv : Inv t) :
    Underway { w with table := t, iter := { w.iter with state := .done, current := none } } ∧
      Rests w { w with table := t, iter := { w.iter with state := .done, current := none } } := by
  refine ⟨⟨hinv, h.sorted, nofun, nofun, nofun, nofun⟩, rfl, rfl, ?_⟩
  rintro q (⟨c, p, l, v, hc, -, -⟩ | ⟨hpaused, -⟩)
  · cases hc
  · cases hpaused

theorem Underway.cleanup (h : Underway w) (hrun : routeTableIterCleanup.run w = .ok () w') :
    Underway w' ∧ Rests w w' := by
  rw [routeTableIterCleanup, run_bind, run_get] at hrun
  dsimp only at hrun
  have hidle : w.iter.current = none → Underway { w with iter := { w.iter with state := .done } } ∧
      Rests w { w with iter := { w.iter with state := .done } } := by
    intro hnone
    have hstop := h.stop h.inv
    rwa [← hnone] at hstop
  have hend : (if w.iter.current.isSome then throw .assertion
      else modify fun w => { w with iter := { w.iter with state := .done } } :
        EStateM Fault (IterWorld α) Unit).run w = .ok () w' → Underway w' ∧ Rests w w' := by
    intro hrun
    split at hrun
    · cases hrun
    · rename_i hnone
      cases hrun
      exact hidle (Option.not_isSome_iff_eq_none.mp hnone)
  cases hstate : w.iter.state with
  | iterating =>
    obtain ⟨c, hc⟩ := Option.isSome_iff_exists.mp (h.current hstate)
    rw [hstate, hc] at hrun
    obtain ⟨u, w₁, hunlock, hrest⟩ := run_bind_ok.mp hrun
    obtain ⟨t, ht, rfl⟩ := run_onTable.mp hunlock
    cases hrest
    exact h.stop (unlock_inv h.inv ht)
  | init =>
    rw [hstate] at hrun
    exact hend hrun
  | paused =>
    rw [hstate] at hrun
    exact hend hrun
  | done =>
    rw [hstate] at hrun
    exact hend hrun

theorem Underway.step {e : IterEvent α} (h : Underway w) (hmay : mayIterate w e = true)
    (hrun : (iterStep e).run w = .ok () w') :
    Underway w' ∧ (Rests w w' ∨ ∃ r t, Follows w r t ∧ w' = advanced { w with table := t } r) := by
  cases e with
  | table e =>
    obtain ⟨t, ht, rfl⟩ := run_onTable.mp hrun
    obtain ⟨hunder, hrests⟩ := h.table hmay ht
    exact ⟨hunder, .inl hrests⟩
  | next =>
    obtain ⟨r, w₁, hnext, hpure⟩ := run_bind_ok.mp hrun
    cases hpure
    rcases routeTableIterNext_ok h hnext with rfl | ⟨t, hf, rfl⟩
    · exact ⟨h, .inl ⟨rfl, rfl, fun _ hq => hq⟩⟩
    · exact ⟨h.advance hf, .inr ⟨r, t, hf, rfl⟩⟩
  | pause =>
    obtain ⟨hunder, hrests⟩ := h.pause hrun
    exact ⟨hunder, .inl hrests⟩
  | cleanup =>
    obtain ⟨hunder, hrests⟩ := h.cleanup hrun
    exact ⟨hunder, .inl hrests⟩

theorem underway_start (h : Inv t) : Underway { table := t } :=
  ⟨h, List.Pairwise.nil, fun _ => rfl, nofun, nofun, nofun⟩

theorem seen_start (k : List Bool) (t : RouteTable α) : Seen k { table := t } := by
  refine ⟨?_, nofun⟩
  rintro q (⟨c, p, l, v, hc, -, -⟩ | ⟨hpaused, -⟩)
  · cases hc
  · cases hpaused

theorem run_underway (ht : Inv t)
    (h : Run iterStep { table := t } (fun w e => mayIterate w e = true) tr w) : Underway w := by
  refine h.invariant (I := Underway) (underway_start ht) ?_
  intro w e w' hw hmay hrun
  exact (hw.step hmay hrun).1

/-- A key that is there before every step has been returned when the iteration has ended. -/
theorem run_seen (ht : Inv t)
    (h : Run iterStep { table := t } (fun w e => mayIterate w e = true ∧ Present k w.table) tr w) :
    Seen k w := by
  have hboth : Underway w ∧ Seen k w := by
    refine h.invariant (I := fun w => Underway w ∧ Seen k w) ⟨underway_start ht, seen_start k t⟩ ?_
    rintro w e w' ⟨hunder, hseen⟩ ⟨hmay, hk⟩ hrun
    obtain ⟨hunder', hrests | ⟨r, t', hf, rfl⟩⟩ := hunder.step hmay hrun
    · exact ⟨hunder', hseen.rests hrests⟩
    · exact ⟨hunder', hseen.advance hk hf⟩
  exact hboth.2

end

/-- A comparison that is a strict total order, up to bits beyond the length of a prefix. -/
structure IterOrder (cmp : Prefix → Prefix → Option Int) : Prop where
  total : ∀ p q, cmp p q = some (-1) ∨ cmp p q = some 0 ∨ cmp p q = some 1
  same : ∀ p q, cmp p q = some 0 ↔ p.bits = q.bits
  flip : ∀ p q, cmp p q = some (-1) ↔ cmp q p = some 1
  trans : ∀ p q r, cmp p q = some (-1) → cmp q r = some (-1) → cmp p r = some (-1)

/-- The least node beyond a prefix in the order of iteration, or none if there is no such node. -/
structure NextAfter (t : RouteTable α) (p : Prefix) (r : Option Nat) : Prop where
  least : ∀ m, r = some m → ∃ n, t.node m = some n ∧ routeTablePrefixIterCmp p n.p = some (-1) ∧
    ∀ j n', t.node j = some n' → routeTablePrefixIterCmp p n'.p = some (-1) →
      routeTablePrefixIterCmp n'.p n.p ≠ some (-1)
  last : r = none → ∀ j n', t.node j = some n' → routeTablePrefixIterCmp p n'.p ≠ some (-1)

theorem iterOrder : IterOrder routeTablePrefixIterCmp where
  total := by
    intro p q
    rcases iterCmp_spec p q with h | h | h
    · exact .inl h.2
    · exact .inr (.inl h.2)
    · exact .inr (.inr h.2)
  same := fun p q => iterCmp_eq
  flip := fun p q => iterCmp_lt.trans iterCmp_gt.symm
  trans := by
    intro p q r hpq hqr
    rw [iterCmp_lt] at *
    exact hpq.trans hqr

theorem NextIn.nextAfter {p : Prefix} (h : NextIn t.view p.bits r) : NextAfter t p r := by
  refine ⟨fun m hm => ?_, fun hnone j n' hn' hlt => ?_⟩
  · obtain ⟨km, hkm, hlt, hleast⟩ := h.least m hm
    obtain ⟨n, hn, rfl⟩ := node_of_key hkm
    refine ⟨n, hn, iterCmp_lt.mpr hlt, fun j n' hn' hlt' hless => ?_⟩
    have hle := hleast j _ (key_of_node hn') (iterCmp_lt.mp hlt')
    exact absurd (iterCmp_lt.mp hless) (not_lt_of_ge hle)
  · exact h.last hnone j _ (key_of_node hn') (iterCmp_lt.mp hlt)

/-- Iterations that are paused while the table changes are ordered and complete.  The comparison
is a strict total order, and the order in which `route_next` goes.  Whatever happens to the table
meanwhile, an iterator returns nodes in that order, goes on after a pause with the least node
beyond the prefix it was paused at, and by its end has returned every prefix that was there all
the time exactly once. -/
theorem routeTableIter_complete {t : RouteTable α} {tr₀ : List (TableEvent α)}
    {tr : List (IterEvent α)} {w : IterWorld α}
    (h₀ : Run tableStep ({} : RouteTable α) (fun s e => mayDo s e = true) tr₀ t)
    (h : Run iterStep { table := t } (fun w e => mayIterate w e = true) tr w) :
    IterOrder routeTablePrefixIterCmp ∧
    (∀ id n, w.table.node id = some n → mayUnlock w.table id = true →
      ∃ r t', (routeNext id).run w.table = .ok r t' ∧ NextAfter w.table n.p r) ∧
    (w.yielded.Pairwise fun p q => routeTablePrefixIterCmp p q = some (-1)) ∧
    (w.iter.state = .paused → ∃ r w', routeTableIterNext.run w = .ok r w' ∧
      NextAfter w.table w.iter.pausePrefix r) ∧
    ∀ k, Run iterStep { table := t }
        (fun w e => mayIterate w e = true ∧ Present k w.table) tr w →
      w.ended = true → (w.yielded.map bits).count k = 1 := by
  have ht := run_inv h₀
  have hw := run_underway ht h
  refine ⟨iterOrder, fun id n hn hmay => ?_, ?_, fun hpaused => ?_, fun k hk hended => ?_⟩
  · obtain ⟨r, hrun, hlive, hnext⟩ := routeNextUntil_run hw.inv.sound.trie hn none
    obtain ⟨hleast, hlast⟩ := hnext rfl
    obtain ⟨t', hmove⟩ := moveTo_returns hw.inv hmay hlive
    exact ⟨r, t', hrun.trans hmove, NextIn.nextAfter ⟨hleast, hlast⟩⟩
  · exact hw.sorted.imp fun hlt => iterCmp_lt.mpr hlt
  · obtain ⟨r, t', hget, hnext, -⟩ := routeTableGetNext_spec hw.inv w.iter.pausePrefix
    refine ⟨r, advanced { w with table := t' } r, ?_, hnext.nextAfter⟩
    rw [routeTableIterNext, run_bind, run_get]
    dsimp only
    rw [hpaused]
    exact run_advance.mpr ⟨t', hget, rfl⟩
  · refine count_eq_one_of_mem ?_ ((run_seen ht hk).ended hended)
    rw [List.Nodup, pairwise_map]
    exact hw.sorted.imp fun hlt => hlt.ne

/-- Two prefixes below a third. -/
def family : List (TableEvent Nat) := [.get ⟨8, [10]⟩, .get ⟨16, [10, 1]⟩, .get ⟨16, [10, 2]⟩]

theorem family_plays : (play tableStep (fun s e => mayDo s e = true) family {}).isSome := by
  decide +kernel

def familyTable : RouteTable Nat :=
  (play tableStep (fun s e => mayDo s e = true) family {}).get family_plays

/-- An iteration paused at one of them, which is deleted meanwhile. -/
def interrupted : List (IterEvent Nat) :=
  [.next, .next, .next, .pause, .table (.unlock 1), .next, .next]

/-- The other one is there all the time. -/
abbrev otherStays (w : IterWorld Nat) (e : IterEvent Nat) : Prop :=
  mayIterate w e = true ∧ (w.table.node 3).map (·.p.bits) = some (Prefix.bits ⟨16, [10, 2]⟩)

theorem interrupted_plays :
    (play iterStep otherStays interrupted { table := familyTable }).isSome := by
  decide +kernel

theorem interrupted_complete :
    ∃ t w, Run tableStep ({} : RouteTable Nat) (fun s e => mayDo s e = true) family t ∧
      Run iterStep { table := t } (fun w e => mayIterate w e = true) interrupted w ∧
      w.ended = true ∧ (w.yielded.map bits).count (bits ⟨16, [10, 2]⟩) = 1 := by
  have hrun := Run.of_play interrupted_plays
  have hended : ((play iterStep otherStays interrupted { table := familyTable }).get
      interrupted_plays).ended = true := by
    decide +kernel
  have hany : Run iterStep { table := familyTable } (fun w e => mayIterate w e = true) interrupted _ :=
    hrun.weaken fun _ _ hgood => hgood.1
  refine ⟨familyTable, _, Run.of_play family_plays, hany, hended, ?_⟩
  obtain ⟨-, -, -, -, honce⟩ := routeTableIter_complete (Run.of_play family_plays) hany
  refine honce _ (hrun.weaken fun w e hgood => ?_) hended
  obtain ⟨n, hn, hbits⟩ := Option.map_eq_some_iff.mp hgood.2
  exact ⟨hgood.1, 3, n, hn, hbits⟩

end Mp2mp.Lib
