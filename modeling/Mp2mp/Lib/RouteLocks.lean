import Mp2mp.Lib.RouteTree

/-!
# Locks, deletion and iteration

The operations that drop a lock may delete nodes, also those that move an iteration on.

* `routeNodeDelete_spec`: a node that is deleted takes along the parent that was kept only for its
  two subtrees.
* `routeUnlockNode_spec`, `routeNextUntil_spec`: unlocking, and going on to the next node.
* `routeTable_structure`: the structure of the table in every state its users can bring it to.
-/

namespace Mp2mp.Lib

open Kit Kit.BitTrie RouteTable EStateM Stable Option Prod

variable {α : Type} {s s' : RouteTable α} {n : RouteNode α} {contents : Nat → Option (Prefix × α)}
  {locks : Nat → Option (Prefix × Nat)} {id : Nat} {p : Prefix}

/-! ## Deletion -/

section

variable {s₁ : RouteTable α} {x : Nat} {o : Option Nat} {place : Place Nat}

theorem reparent_spec (hc : ∀ c, o = some c → (s.node c).isSome) (q : Option Nat) :
    ∃ s', (reparent o q).run s = .ok () s' ∧ s'.view.key = s.view.key ∧
      (∀ p', s'.view.at p' = s.view.at p') ∧
      (∀ m, s'.view.parent m = if o = some m then q else s.view.parent m) ∧ s'.tag = s.tag ∧
      s'.count = s.count ∧ s'.fresh = s.fresh := by
  cases o with
  | none => exact ⟨s, rfl, rfl, fun _ => rfl, fun _ => rfl, rfl, rfl, rfl⟩
  | some c =>
    obtain ⟨nc, hnc⟩ := isSome_iff_exists.mp (hc c rfl)
    obtain ⟨hkey, hat, hparent, htag⟩ := view_setParent hnc q
    refine ⟨_, run_modifyNode hnc _, hkey, hat, fun m => ?_, htag, rfl, rfl⟩
    rw [hparent]
    by_cases hm : m = c
    · rw [if_pos hm, if_pos (by rw [hm])]
    · rw [if_neg hm, if_neg fun h => hm (some.inj h).symm]

theorem adjust_congr {f g : RouteNode α → RouteNode α} (hn : s.node x = some n)
    (hfg : f n = g n) : s.adjust x f = s.adjust x g := by
  simp [adjust, hn, hfg]

theorem relink_spec (hat : s.view.at place = some x)
    (huniq : ∀ p', s.view.at p' = some x → p'.owner = place.owner → p' = place) :
    ∃ s', (relink place.owner x o).run s = .ok () s' ∧ s'.view.key = s.view.key ∧
      (∀ p', s'.view.at p' = if p' = place then o else s.view.at p') ∧
      s'.view.parent = s.view.parent ∧ s'.tag = s.tag ∧
      s'.count = s.count ∧ s'.fresh = s.fresh := by
  cases place with
  | top =>
    refine ⟨{ s with top := o }, rfl, rfl, fun p' => ?_, rfl, rfl, rfl, rfl⟩
    cases p' <;> rfl
  | link q b =>
    have hq : ∃ nq, s.node q = some nq := by
      cases hq : s.node q with
      | none => simp [Trie.at, view, hq] at hat
      | some nq => exact ⟨nq, rfl⟩
    obtain ⟨nq, hq⟩ := hq
    have hlink : nq.link b = some x := by
      rw [← link_of_node hq]
      exact hat
    -- the test of the left link finds the side that the node hangs on
    have hside : (if nq.left = some x then { nq with left := o } else { nq with right := o }) =
        nq.setLink b o := by
      cases b with
      | false => exact if_pos hlink
      | true =>
        refine if_neg fun hleft => ?_
        cases huniq (.link q false) ((link_of_node hq false).trans hleft) rfl
    obtain ⟨hkey, hat', hparent, htag⟩ := view_setLink hq b o
    rw [← adjust_congr (f := fun m => if m.left = some x then { m with left := o }
      else { m with right := o }) hq hside] at hkey hat' hparent htag
    exact ⟨_, run_modifyNode hq _, hkey, hat', hparent, htag, rfl, rfl⟩

theorem free_node {x j : Nat} : (s.free x).node j = if j = x then none else s.node j := by
  unfold free
  by_cases h : j = x
  · subst h
    simp
  · simp [h]

theorem child_ne (h : Ok s.view) (hx : s.node x = some n) {b : Bool} {c : Nat}
    (hc : n.link b = some c) : ∃ nc, s.node c = some nc ∧ c ≠ x := by
  rw [← link_of_node hx] at hc
  obtain ⟨-, kc, hkc, hlong⟩ := h.child (key_of_node hx) hc
  obtain ⟨nc, hnc, rfl⟩ := node_of_key hkc
  refine ⟨nc, hnc, ?_⟩
  rintro rfl
  rw [hx] at hnc
  cases hnc
  exact lt_irrefl _ (length_lt_of_bit hlong)

theorem exists_place (h : Ok s.view) (hx : s.node x = some n) :
    ∃ place, OnPath s.view n.p.bits place ∧ s.view.at place = some x ∧ place.owner = n.parent := by
  cases hp : n.parent with
  | none =>
    exact ⟨.top, trivial, h.root (key_of_node hx) ((parent_of_node hx).trans hp), rfl⟩
  | some q =>
    obtain ⟨kq, b, hkq, hlink, hb⟩ := h.up (key_of_node hx) ((parent_of_node hx).trans hp)
    exact ⟨.link q b, ⟨kq, hkq, hb⟩, hlink, rfl⟩

/-- The node is out, and nothing else was changed but links. -/
structure Out (s s' : RouteTable α) (place : Place Nat) (x : Nat) (o : Option Nat) : Prop where
  splice : Splice s.view s'.view place x o
  tag : ∀ j, s'.tag j = if j = x then none else s.tag j
  count : s'.count = s.count - 1
  fresh : s'.fresh = s.fresh

theorem unlink_out (h : Ok s.view) (hx : s.node x = some n)
    (hone : ¬(n.left.isSome ∧ n.right.isSome)) :
    ∃ place s', (unlink x n).run s = .ok () s' ∧ place.owner = n.parent ∧
      Out s s' place x (n.left.or n.right) := by
  obtain ⟨place, hpath, hat, hown⟩ := exists_place h hx
  have hchild : ∀ b c, n.link b = some c → n.left.or n.right = some c := by
    intro b c hc
    cases b with
    | false =>
      rw [show n.left = some c from hc]
      rfl
    | true =>
      cases hl : n.left with
      | none => exact hc
      | some d =>
        rw [show n.right = some c from hc, hl] at hone
        exact absurd ⟨rfl, rfl⟩ hone
  have honly : ∀ c, n.left.or n.right = some c → ∃ b, n.link b = some c := by
    intro c hc
    cases hl : n.left with
    | none =>
      rw [hl] at hc
      exact ⟨true, hc⟩
    | some d =>
      rw [hl] at hc
      exact ⟨false, hl.trans hc⟩
  simp only [unlink]
  generalize n.left.or n.right = o at hchild honly
  have hox : ∀ c, o = some c → (s.node c).isSome ∧ c ≠ x := by
    intro c hc
    obtain ⟨b, hb⟩ := honly c hc
    obtain ⟨nc, hnc, hne⟩ := child_ne h hx hb
    exact ⟨by rw [hnc]; rfl, hne⟩
  obtain ⟨s₁, hrun₁, hkey₁, hat₁, hparent₁, htag₁, hcount₁, hfresh₁⟩ :=
    reparent_spec (fun c hc => (hox c hc).1) n.parent
  have huniq : ∀ p', s₁.view.at p' = some x → p'.owner = place.owner → p' = place := by
    intro p' hp' howner
    rw [hat₁] at hp'
    cases p' with
    | top => exact h.place_unique (k := []) trivial hpath hp' hat
    | link m b =>
      have hm : ∃ km, s.view.key m = some km := by
        cases hm : s.node m with
        | none => simp [Trie.at, view, hm] at hp'
        | some nm => exact ⟨_, key_of_node hm⟩
      obtain ⟨km, hkm⟩ := hm
      exact h.place_unique ⟨km, hkm, List.prefix_refl _⟩ hpath hp' hat
  obtain ⟨s₂, hrun₂, hkey₂, hat₂, hparent₂, htag₂, hcount₂, hfresh₂⟩ :=
    relink_spec (o := o) ((hat₁ place).trans hat) huniq
  rw [hown] at hrun₂
  refine ⟨place, { s₂.free x with count := s₂.count - 1 }, ?_, hown, ?_⟩
  · simp only [run_bind, hrun₁, hrun₂, run_modify]
  · have hfree : ∀ p' : Place Nat, p'.owner ≠ some x → (s₂.free x).view.at p' = s₂.view.at p' := by
      intro p' hp'
      cases p' with
      | top => rfl
      | link m b =>
        change (s₂.free x).view.link m b = s₂.view.link m b
        simp only [view]
        rw [free_node, if_neg fun h => hp' (congrArg some h)]
    have hplace : place.owner ≠ some x := by
      cases place with
      | top => exact (some_ne_none x).symm
      | link q b =>
        intro heq
        cases heq
        obtain ⟨kq, hkq, hb⟩ := hpath
        rw [key_of_node hx] at hkq
        cases hkq
        exact lt_irrefl _ (length_lt_of_bit hb)
    refine ⟨?_, ?_, by rw [← hcount₁, ← hcount₂], hfresh₂.trans hfresh₁⟩
    · refine ⟨⟨_, key_of_node hx, hpath⟩, hat, ?_, ?_, ?_, ?_, ?_, ?_⟩
      · intro b c hc
        rw [link_of_node hx] at hc
        exact hchild b c hc
      · intro c hc
        obtain ⟨b, hb⟩ := honly c hc
        exact ⟨b, (link_of_node hx b).trans hb⟩
      · intro m
        have hkey : (s₂.free x).view.key m = if m = x then none else s₂.view.key m := by
          simp only [view]
          rw [free_node]
          split <;> rfl
        exact hkey.trans (by rw [hkey₂, hkey₁])
      · exact (hfree place hplace).trans ((hat₂ place).trans (if_pos rfl))
      · intro p' hne hown'
        exact (hfree p' hown').trans ((hat₂ p').trans ((if_neg hne).trans (hat₁ p')))
      · intro m hm
        have hparent : (s₂.free x).view.parent m = s₂.view.parent m := by
          simp only [view]
          rw [free_node, if_neg hm]
        exact hparent.trans (by rw [hparent₂, hparent₁, hown])
    · intro j
      have htag : (s₂.free x).tag j = if j = x then none else s₂.tag j := by
        simp only [tag]
        rw [free_node]
        split <;> rfl
      exact htag.trans (by rw [htag₂, htag₁])

/-- Only nodes without locks and contents were taken out. -/
def Pruned (s s' : RouteTable α) : Prop :=
  ∀ j, s'.tag j = s.tag j ∨ (s'.tag j = none ∧ ∃ p, s.tag j = some (p, 0, none))

theorem Pruned.refl (s : RouteTable α) : Pruned s s := fun _ => .inl rfl

theorem Pruned.trans {s₂ : RouteTable α} (h : Pruned s s₁) (h' : Pruned s₁ s₂) : Pruned s s₂ := by
  intro j
  rcases h' j with heq | ⟨hnone, p, hp⟩
  · rw [heq]
    exact h j
  · rcases h j with heq | ⟨hnone', -⟩
    · exact .inr ⟨hnone, p, heq ▸ hp⟩
    · rw [hnone'] at hp
      cases hp

/-- Taking a node out leaves only its parent without a child it needs. -/
theorem Out.tidy (h : Ok s.view) (hout : Out s s₁ place x o) (htidy : Tidy s fun j => j = x) :
    Tidy s₁ fun j => place.owner = some j := by
  intro j p v htag hj
  rw [hout.tag] at htag
  split at htag
  · cases htag
  · rename_i hne
    obtain ⟨hv, hlinks⟩ := htidy j p v htag hne
    obtain ⟨m, hm, -⟩ := node_of_tag htag
    refine ⟨hv, fun b => ?_⟩
    rcases hout.splice.at_old h (q := .link j b) (k := _ ++ [b])
      ⟨_, key_of_node hm, List.prefix_rfl⟩ (fun heq => hne (some.inj heq)) with
      ⟨rfl, -, -⟩ | ⟨-, -, heq⟩
    · exact absurd rfl hj
    · exact (congrArg isSome heq).trans (hlinks b)

theorem Out.pruned (hout : Out s s₁ place x o) (hx : s.tag x = some (p, 0, none)) :
    Pruned s s₁ := by
  intro j
  rw [hout.tag]
  by_cases hj : j = x
  · rw [if_pos hj, hj]
    exact .inr ⟨rfl, p, hx⟩
  · rw [if_neg hj]
    exact .inl rfl

/-- `route_node_delete` restores what holds between operations. -/
theorem routeNodeDelete_spec {fuel : Nat} (hsound : Sound s)
    (htidy : Tidy s fun j => j = x) (hx : s.tag x = some (p, 0, none)) (hfuel : p.prefixlen < fuel) :
    ∃ s', (routeNodeDelete fuel x).run s = .ok () s' ∧ Inv s' ∧ Pruned s s' := by
  induction fuel generalizing s x p with
  | zero => exact absurd hfuel (Nat.not_lt_zero _)
  | succ fuel ih =>
    obtain ⟨n, hn, rfl, hlock, hinfo⟩ := node_of_tag hx
    simp only [routeNodeDelete, run_bind, run_deref hn]
    rw [if_neg (by simp [hlock, hinfo])]
    by_cases hboth : n.left.isSome ∧ n.right.isSome
    · rw [if_pos hboth]
      refine ⟨s, rfl, ⟨hsound, fun j q v hj _ => ?_⟩, Pruned.refl s⟩
      by_cases hjx : j = x
      · subst hjx
        cases hx.symm.trans hj
        refine ⟨rfl, fun b => ?_⟩
        rw [link_of_node hn]
        cases b with
        | false => exact hboth.1
        | true => exact hboth.2
      · exact htidy j q v hj hjx
    · rw [if_neg hboth]
      obtain ⟨place, s₁, hrun, hown, hout⟩ := unlink_out hsound.trie hn hboth
      have hsound₁ := hsound.splice hout.splice hout.fresh hout.count
      have htidy₁ := hout.tidy hsound.trie htidy
      have hpruned := hout.pruned hx
      simp only [run_bind, hrun]
      cases hparent : n.parent with
      | none =>
        refine ⟨s₁, rfl, ⟨hsound₁, fun j q v hj _ => htidy₁ j q v hj ?_⟩, hpruned⟩
        rw [hown, hparent]
        exact nofun
      | some q =>
        obtain ⟨kq, b, hkq, -, hb⟩ :=
          hsound.trie.up (key_of_node hn) ((parent_of_node hn).trans hparent)
        obtain ⟨nq, hnq, rfl⟩ := node_of_key hkq
        have hlt := length_lt_of_bit hb
        rw [bits_length, bits_length] at hlt
        have hne : q ≠ x := by
          rintro rfl
          rw [hn] at hnq
          cases hnq
          exact lt_irrefl _ hlt
        have htag : s₁.tag q = some (nq.p, nq.lock, nq.info) := by
          rw [hout.tag, if_neg hne, tag_of_node hnq]
        have htidy₂ : Tidy s₁ fun j => j = q := fun j p v hj hjq =>
          htidy₁ j p v hj fun heq => hjq (some.inj (heq.symm.trans (hown.trans hparent)))
        obtain ⟨nq', hnq', heq⟩ := node_of_tag htag
        dsimp only
        simp only [run_bind, run_deref hnq', heq.2.1]
        by_cases hzero : nq.lock = 0
        · rw [if_pos hzero]
          -- a node without a lock had no contents before
          have hnone := (htidy q nq.p nq.info (hzero ▸ tag_of_node hnq) hne).1
          rw [hzero, hnone] at htag
          obtain ⟨s₂, hrun₂, hinv, hpruned₂⟩ := ih hsound₁ htidy₂ htag (by omega)
          exact ⟨s₂, hrun₂, hinv, hpruned.trans hpruned₂⟩
        · rw [if_neg hzero]
          refine ⟨s₁, rfl, ⟨hsound₁, fun j p v hj _ => htidy₂ j p v hj ?_⟩, hpruned⟩
          rintro rfl
          rw [htag] at hj
          exact hzero (mk.inj (mk.inj (some.inj hj)).2).1

end

/-! ## What the operations keep -/

namespace RouteTable

/-- The nodes with contents. -/
def held (s : RouteTable α) (id : Nat) : Option (Prefix × α) :=
  (s.tag id).bind fun t => t.2.2.map (t.1, ·)

end RouteTable

/-- A state between operations with given contents and with at least the given locks. -/
structure Keep (contents : Nat → Option (Prefix × α)) (locks : Nat → Option (Prefix × Nat))
    (s : RouteTable α) : Prop where
  inv : Inv s
  held : s.held = contents
  locked : ∀ j p n, locks j = some (p, n) → ∃ l v, s.tag j = some (p, l, v) ∧ n < l

/-- One lock of a node less. -/
def lessOne (locks : Nat → Option (Prefix × Nat)) (id j : Nat) : Option (Prefix × Nat) :=
  if j = id then (locks j).bind fun (p, n) => if n = 0 then none else some (p, n - 1) else locks j

theorem Pruned.held (h : Pruned s s') : s'.held = s.held := by
  funext j
  rcases h j with heq | ⟨hnone, p, hp⟩
  · rw [RouteTable.held, RouteTable.held, heq]
  · rw [RouteTable.held, RouteTable.held, hnone, hp]
    rfl

theorem held_lock (f : Nat → Nat) :
    (s.adjust id fun n => { n with lock := f n.lock }).held = s.held := by
  funext j
  rw [held, tag_lock]
  split
  · rw [held]
    cases s.tag j <;> rfl
  · rfl

theorem loop_stable {β : Type} (I : RouteTable α → Prop) (f : RouteTable α → Option β) :
    Stable I (loop f) := by
  refine ⟨fun s hs => ?_⟩
  cases h : f s with
  | some b =>
    rw [run_loop h]
    exact hs
  | none =>
    rw [loop, run_bind, run_get]
    simp only [h]
    trivial

theorem routeLockNode_keep : Stable (Keep contents locks) (routeLockNode id) := by
  refine ⟨fun s hs => ?_⟩
  cases hn : s.node id with
  | none =>
    rw [routeLockNode, modifyNode, run_bind, run_deref_none hn]
    trivial
  | some n =>
    obtain ⟨s', hrun, hinv, -, htag⟩ := hs.inv.lock_live (by rw [hn]; rfl : (s.node id).isSome)
    rw [hrun]
    have hheld : s'.held = s.held := by
      cases (run_modifyNode hn _).symm.trans hrun
      exact held_lock (· + 1)
    refine ⟨hinv, hheld.trans hs.held, fun j p m hj => ?_⟩
    obtain ⟨l, v, hl, hlt⟩ := hs.locked j p m hj
    rw [htag, hl]
    split
    · exact ⟨l + 1, v, rfl, by omega⟩
    · exact ⟨l, v, rfl, hlt⟩

theorem routeNodeGet_keep : Stable (Keep contents locks) (routeNodeGet p) := by
  refine ⟨fun s hs => ?_⟩
  obtain ⟨id, s', hrun, hinv, -, hgot⟩ := routeNodeGet_spec hs.inv p
  rw [hrun]
  refine ⟨hinv, ?_, fun j q m hj => ?_⟩
  · rw [← hs.held]
    funext j
    cases ht : s.tag j with
    | none =>
      cases ht' : s'.tag j with
      | none => rw [held, held, ht, ht']
      | some t =>
        have hnone := hgot.new j t ht ht'
        rw [held, held, ht, ht', bind_some, hnone]
        rfl
    | some t =>
      rw [held, held, ht, hgot.old j t ht]
      split <;> rfl
  · obtain ⟨l, v, hl, hlt⟩ := hs.locked j q m hj
    rw [hgot.old j _ hl]
    split
    · exact ⟨l + 1, v, rfl, by omega⟩
    · exact ⟨l, v, rfl, hlt⟩

/-- `route_unlock_node` returns if there is a lock, and no contents if it is the last. -/
theorem routeUnlockNode_spec (h : Inv s)
    (hn : s.node id = some n) (hlock : 0 < n.lock) (hinfo : n.lock = 1 → n.info = none) :
    ∃ s', (routeUnlockNode id).run s = .ok () s' ∧ Inv s' ∧
      Pruned (s.adjust id fun n => { n with lock := n.lock - 1 }) s' := by
  simp only [routeUnlockNode, run_bind, run_deref hn]
  rw [if_neg (by omega)]
  simp only [run_bind, run_modifyNode hn]
  have hview := view_lock s id (· - 1)
  have htag := fun j => tag_lock s id j (· - 1)
  have hsound := h.sound.congr hview rfl rfl
  generalize s.adjust id (fun n => { n with lock := n.lock - 1 }) = s₁ at *
  have htidy : Tidy s₁ fun j => j = id := by
    intro j p v hj hne
    rw [htag, if_neg hne] at hj
    rw [hview]
    exact h.tidy j p v hj not_false
  have hid : s₁.tag id = some (n.p, n.lock - 1, n.info) := by
    rw [htag, if_pos rfl, tag_of_node hn]
    rfl
  by_cases hone : n.lock = 1
  · rw [if_pos hone]
    rw [hone, hinfo hone] at hid
    exact routeNodeDelete_spec hsound htidy hid (lt_add_one _)
  · rw [if_neg hone]
    refine ⟨s₁, rfl, ⟨hsound, fun j p v hj _ => htidy j p v hj ?_⟩, Pruned.refl s₁⟩
    rintro rfl
    rw [hid] at hj
    have := (mk.inj (mk.inj (some.inj hj)).2).1
    omega

theorem routeUnlockNode_ok (hrun : (routeUnlockNode id).run s = .ok () s') :
    ∃ n, s.node id = some n ∧ 0 < n.lock ∧ (n.lock = 1 → n.info = none) := by
  cases hn : s.node id with
  | none =>
    rw [routeUnlockNode, run_bind, run_deref_none hn] at hrun
    cases hrun
  | some n =>
    refine ⟨n, rfl, ?_, fun hone => ?_⟩
    · by_contra hzero
      simp only [routeUnlockNode, run_bind, run_deref hn] at hrun
      rw [if_pos (by omega)] at hrun
      cases hrun
    · by_contra hinfo
      have hn' : (s.adjust id fun n => { n with lock := n.lock - 1 }).node id =
          some { n with lock := n.lock - 1 } := by
        rw [adjust_node, if_pos rfl, hn]
        rfl
      simp only [routeUnlockNode, run_bind, run_deref hn] at hrun
      rw [if_neg (by omega)] at hrun
      simp only [run_bind, run_modifyNode hn, hone, if_true, routeNodeDelete, run_deref hn'] at hrun
      rw [if_pos (Or.inr (isSome_iff_ne_none.mpr hinfo))] at hrun
      cases hrun

theorem routeUnlockNode_keep (id : Nat) : Triple (Keep contents locks) (routeUnlockNode id)
      (fun _ => Keep contents (lessOne locks id)) fun _ _ => True := by
  refine ⟨fun s hs => ?_⟩
  cases hrun : (routeUnlockNode id).run s with
  | error e s' => trivial
  | ok u s' =>
    obtain ⟨n, hn, hlock, hinfo⟩ := routeUnlockNode_ok hrun
    obtain ⟨s'', hrun', hinv, hpruned⟩ := routeUnlockNode_spec hs.inv hn hlock hinfo
    cases hrun.symm.trans hrun'
    refine ⟨hinv, ?_, fun j p m hj => ?_⟩
    · rw [hpruned.held, held_lock (· - 1), hs.held]
    · have hbefore : ∃ l v, (s.adjust id fun n => { n with lock := n.lock - 1 }).tag j =
          some (p, l, v) ∧ m < l := by
        rw [tag_lock s id j (· - 1)]
        unfold lessOne at hj
        split at hj
        · rename_i heq
          obtain ⟨⟨q, k⟩, hk, hm⟩ := bind_eq_some_iff.mp hj
          obtain ⟨l, v, hl, hlt⟩ := hs.locked j q k hk
          dsimp only at hm
          split at hm
          · cases hm
          · cases hm
            rw [if_pos heq, hl]
            exact ⟨l - 1, v, rfl, by omega⟩
        · rename_i hne
          rw [if_neg hne]
          exact hs.locked j p m hj
      obtain ⟨l, v, hl, hlt⟩ := hbefore
      rcases hpruned j with heq | ⟨-, q, hq⟩
      · exact ⟨l, v, heq.trans hl, hlt⟩
      · rw [hl] at hq
        cases hq
        exact absurd hlt (Nat.not_lt_zero _)

theorem deref_stable (I : RouteTable α → Prop) (id : Nat) : Stable I (deref id) := by
  refine ⟨fun s hs => ?_⟩
  cases hn : s.node id with
  | none =>
    rw [run_deref_none hn]
    trivial
  | some n =>
    rw [run_deref hn]
    exact hs

theorem lockAndReturn_keep :
    Stable (Keep contents locks) (do routeLockNode id; pure (some id) : Op α (Option Nat)) :=
  bind routeLockNode_keep fun _ => pure _

theorem routeNodeLookup_keep : Stable (Keep contents locks) (routeNodeLookup p) := by
  refine bind (loop_stable _ _) fun r => ?_
  cases r with
  | none => exact pure _
  | some id => exact lockAndReturn_keep

theorem routeNodeMatch_keep : Stable (Keep contents locks) (routeNodeMatch p) := by
  refine bind (loop_stable _ _) fun r => ?_
  cases r with
  | none => exact pure _
  | some id => exact lockAndReturn_keep

theorem routeTop_keep : Stable (Keep contents locks) (routeTop : Op α _) := by
  refine get fun s => ?_
  cases s.top with
  | none => exact pure _
  | some id => exact lockAndReturn_keep

theorem moveTo_keep (id : Nat) (next : Option Nat) : Triple (Keep contents locks) (moveTo id next)
      (fun _ => Keep contents (lessOne locks id)) fun _ _ => True := by
  cases next with
  | none => exact Triple.bind (routeUnlockNode_keep id) fun _ => pure _
  | some next =>
    exact Triple.bind routeLockNode_keep fun _ =>
      Triple.bind (routeUnlockNode_keep id) fun _ => pure _

theorem routeNextUntil_keep {limit : Option Nat} :
    Triple (Keep contents locks) (routeNextUntil id limit)
      (fun _ => Keep contents (lessOne locks id)) fun _ _ => True := by
  refine Triple.bind (deref_stable _ id) fun n => ?_
  refine Triple.ite (fun _ => moveTo_keep id _) fun _ => ?_
  refine Triple.ite (fun _ => moveTo_keep id _) fun _ => ?_
  exact Triple.bind (loop_stable _ _) fun _ => moveTo_keep id _

/-! ## The next node -/

/-- The loop up ends.  Without a limit it finds what comes next after a key that the climb has
found nothing for so far. -/
theorem upLoop_spec (h : Ok s.view) (limit : Option Nat) {k : List Bool} {fuel : Nat}
    (hn : s.node id = some n) (hfuel : n.p.prefixlen < fuel) :
    ∃ r, upLoop s limit fuel id = some r ∧ (∀ m, r = some m → (s.node m).isSome) ∧
      (limit = none → Climb s.view k id →
        (∀ m, r = some m → Least s.view k m) ∧ (r = none → Last s.view k)) := by
  induction fuel generalizing id n with
  | zero => exact absurd hfuel (Nat.not_lt_zero _)
  | succ fuel ih =>
    simp only [upLoop, hn, bind_eq_bind, bind_some]
    have hview := parent_of_node hn
    cases hparent : n.parent with
    | none =>
      exact ⟨none, rfl, nofun, fun _ hclimb =>
        ⟨nofun, fun _ => hclimb.last h (hview.trans hparent)⟩⟩
    | some q =>
      have hq := hview.trans hparent
      dsimp only
      by_cases hlimit : limit = some id
      · rw [if_pos hlimit]
        refine ⟨none, rfl, nofun, fun hnone => ?_⟩
        rw [hnone] at hlimit
        cases hlimit
      · rw [if_neg hlimit]
        obtain ⟨kq, b, hkq, -, hb⟩ := h.up (key_of_node hn) hq
        obtain ⟨nq, hnq, rfl⟩ := node_of_key hkq
        have hlt := length_lt_of_bit hb
        rw [bits_length, bits_length] at hlt
        simp only [hnq, bind_some]
        by_cases hside : nq.left = some id ∧ nq.right.isSome
        · rw [if_pos hside]
          have hleft : s.view.link q false = some id := (link_of_node hnq false).trans hside.1
          refine ⟨nq.right, rfl, fun m hm => ?_, fun _ hclimb => ⟨fun m hm => ?_, fun hnone => ?_⟩⟩
          · obtain ⟨nm, hnm, -⟩ := child_ne h hnq (b := true) hm
            rw [hnm]
            rfl
          · exact hclimb.right h hq hleft ((link_of_node hnq true).trans hm)
          · rw [hnone] at hside
            cases hside.2
        · rw [if_neg hside]
          obtain ⟨r, hr, hlive, hnext⟩ := ih hnq (by omega)
          refine ⟨r, hr, hlive, fun hnone hclimb => hnext hnone (hclimb.up h hq ?_)⟩
          rw [link_of_node hnq, link_of_node hnq]
          by_cases hl : nq.left = some id
          · right
            have hr' : ¬nq.right.isSome := fun hr => hside ⟨hl, hr⟩
            exact not_isSome_iff_eq_none.mp hr'
          · left
            exact hl

/-- Going on from a node comes down to moving to the next one, and without a limit that is the
one with the least key beyond. -/
theorem routeNextUntil_run (h : Ok s.view) (hn : s.node id = some n) (limit : Option Nat) :
    ∃ r, (routeNextUntil id limit).run s = (moveTo id r).run s ∧
      (∀ m, r = some m → (s.node m).isSome) ∧
      (limit = none → (∀ m, r = some m → Least s.view n.p.bits m) ∧
        (r = none → Last s.view n.p.bits)) := by
  have hlive : ∀ b m, n.link b = some m → (s.node m).isSome := by
    intro b m hm
    obtain ⟨nm, hnm, -⟩ := child_ne h hn hm
    rw [hnm]
    rfl
  have hchild : ∀ b m, n.link b = some m → (b = true → n.left = none) →
      Least s.view n.p.bits m := by
    intro b m hm hfirst
    refine h.least_child (key_of_node hn) ((link_of_node hn b).trans hm) fun hb => ?_
    rw [link_of_node hn]
    exact hfirst hb
  simp only [routeNextUntil, run_bind, run_deref hn]
  by_cases hl : n.left.isSome
  · rw [if_pos hl]
    refine ⟨n.left, rfl, hlive false, fun _ => ⟨fun m hm => hchild false m hm nofun, fun hnone => ?_⟩⟩
    rw [hnone] at hl
    cases hl
  · rw [if_neg hl]
    have hleft : n.left = none := by simpa using hl
    by_cases hr : n.right.isSome
    · rw [if_pos hr]
      refine ⟨n.right, rfl, hlive true,
        fun _ => ⟨fun m hm => hchild true m hm fun _ => hleft, fun hnone => ?_⟩⟩
      rw [hnone] at hr
      cases hr
    · rw [if_neg hr]
      have hright : n.right = none := by simpa using hr
      obtain ⟨r, hr, hlive, hnext⟩ :=
        upLoop_spec h limit (k := n.p.bits) hn (Nat.lt_succ_self n.p.prefixlen)
      have hloop : (loop fun s => upLoop s limit (n.p.prefixlen + 1) id : Op α _).run s = .ok r s :=
        run_loop hr
      refine ⟨r, by simp only [run_bind, hloop], hlive, fun hnone => hnext hnone ?_⟩
      refine Climb.of_leaf h (key_of_node hn) fun b => ?_
      rw [link_of_node hn]
      cases b with
      | false => exact hleft
      | true => exact hright

theorem mayUnlock_iff : mayUnlock s id = true ↔
      ∃ n, s.node id = some n ∧ 0 < n.lock ∧ (n.lock = 1 → n.info = none) := by
  unfold mayUnlock
  cases hn : s.node id with
  | none => simp
  | some n => simp [imp_iff_not_or]

theorem moveTo_returns (h : Inv s) (hmay : mayUnlock s id = true) {r : Option Nat}
    (hr : ∀ m, r = some m → (s.node m).isSome) : ∃ s', (moveTo id r).run s = .ok r s' := by
  obtain ⟨n, hn, hlock, hinfo⟩ := mayUnlock_iff.mp hmay
  cases r with
  | none =>
    obtain ⟨s', hrun, -⟩ := routeUnlockNode_spec h hn hlock hinfo
    exact ⟨s', by simp only [moveTo, run_bind, hrun, run_pure]⟩
  | some m =>
    obtain ⟨s₁, hrun₁, hinv₁, -, htag⟩ := h.lock_live (hr m rfl)
    have hid := htag id
    rw [tag_of_node hn] at hid
    -- the lock of the next node may be the lock of this one
    have hn₁ : ∃ n₁, s₁.node id = some n₁ ∧ 0 < n₁.lock ∧ (n₁.lock = 1 → n₁.info = none) := by
      split at hid
      · obtain ⟨n₁, hn₁, -, (heq : _ = n.lock + 1), -⟩ := node_of_tag hid
        exact ⟨n₁, hn₁, by omega, by omega⟩
      · obtain ⟨n₁, hn₁, heq⟩ := node_of_tag hid
        exact ⟨n₁, hn₁, by omega, fun hone => by rw [heq.2.2]; exact hinfo (by omega)⟩
    obtain ⟨n₁, hn₁, hlock₁, hinfo₁⟩ := hn₁
    obtain ⟨s', hrun, -⟩ := routeUnlockNode_spec hinv₁ hn₁ hlock₁ hinfo₁
    exact ⟨s', by simp only [moveTo, run_bind, hrun₁, hrun, run_pure]⟩

/-! ## The users of a table -/

variable {v : Option α} {e : TableEvent α}

section

theorem setInfo_spec (h : Inv s) (hn : s.node id = some n) (hv : v.isSome → 0 < n.lock) :
    Inv (s.adjust id ({ · with info := v })) ∧
      (s.adjust id ({ · with info := v })).view = s.view ∧
      ∀ j, (s.adjust id ({ · with info := v })).tag j =
        if j = id then (s.tag j).map fun t => (t.1, t.2.1, v) else s.tag j := by
  have hview : (s.adjust id ({ · with info := v })).view = s.view :=
    view_adjust _ _ (fun _ => rfl) (fun _ b => by cases b <;> rfl) fun _ => rfl
  have htag : ∀ j, (s.adjust id ({ · with info := v })).tag j =
      if j = id then (s.tag j).map fun t => (t.1, t.2.1, v) else s.tag j := by
    intro j
    unfold tag
    rw [adjust_node]
    split
    · simp [Function.comp_def]
    · rfl
  refine ⟨⟨h.sound.congr hview rfl rfl, fun j p w hj _ => ?_⟩, hview, htag⟩
  rw [htag] at hj
  rw [hview]
  split at hj
  · rename_i heq
    rw [heq, tag_of_node hn] at hj
    simp only [map_some, some.injEq, Prod.mk.injEq] at hj
    obtain ⟨-, hzero, rfl⟩ := hj
    obtain ⟨-, hlinks⟩ := h.tidy id n.p n.info (hzero ▸ tag_of_node hn) not_false
    refine ⟨?_, heq ▸ hlinks⟩
    by_contra hne
    have := hv (isSome_iff_ne_none.mpr hne)
    omega
  · exact h.tidy j p w hj not_false

/-- The node whose lock an operation drops. -/
def TableEvent.drops : TableEvent α → Option Nat
  | .unlock id => some id
  | .next id => some id
  | .nextUntil id _ => some id
  | _ => none

/-- What an operation leaves of the locks that are known to be there. -/
def TableEvent.leaves (e : TableEvent α) (locks : Nat → Option (Prefix × Nat)) :
    Nat → Option (Prefix × Nat) :=
  match e.drops with
  | some id => lessOne locks id
  | none => locks

/-- The operations other than assignments keep contents and other locks. -/
theorem tableStep_keep (he : ∀ id v, e ≠ .setInfo id v) :
    Triple (Keep contents locks) (tableStep e) (fun _ => Keep contents (e.leaves locks))
      fun _ _ => True := by
  cases e with
  | get p => exact Triple.bind routeNodeGet_keep fun _ => pure _
  | lookup p => exact Triple.bind routeNodeLookup_keep fun _ => pure _
  | longest p => exact Triple.bind routeNodeMatch_keep fun _ => pure _
  | lock id => exact routeLockNode_keep
  | unlock id => exact routeUnlockNode_keep id
  | setInfo id v => exact absurd rfl (he id v)
  | top => exact Triple.bind routeTop_keep fun _ => pure _
  | next id => exact Triple.bind routeNextUntil_keep fun _ => pure _
  | nextUntil id limit => exact Triple.bind routeNextUntil_keep fun _ => pure _

theorem tableStep_held (he : ∀ id v, e ≠ .setInfo id v) (h : Inv s)
    (hrun : (tableStep e).run s = .ok () s') : Inv s' ∧ s'.held = s.held := by
  have hkeep : Keep s.held (fun _ => none) s := ⟨h, rfl, nofun⟩
  have hkeep' := (tableStep_keep he).of_ok hkeep hrun
  exact ⟨hkeep'.inv, hkeep'.held⟩

theorem setInfo_ok (hrun : (tableStep (.setInfo id v)).run s = .ok () s') :
    ∃ n, s.node id = some n ∧ s' = s.adjust id ({ · with info := v }) := by
  cases hn : s.node id with
  | none =>
    rw [tableStep, modifyNode, run_bind, run_deref_none hn] at hrun
    cases hrun
  | some n =>
    cases (run_modifyNode hn _).symm.trans hrun
    exact ⟨n, rfl, rfl⟩

theorem mayDo_setInfo (hmay : mayDo s (.setInfo id v) = true)
    (hn : s.node id = some n) (hv : v.isSome) : 0 < n.lock := by
  obtain ⟨w, rfl⟩ := isSome_iff_exists.mp hv
  have hrules := (Bool.and_eq_true_iff.mp hmay).1
  simpa [keepsRules, hn] using hrules

theorem tableStep_inv (h : Inv s) (hmay : mayDo s e = true)
    (hrun : (tableStep e).run s = .ok () s') : Inv s' := by
  by_cases he : ∃ id v, e = .setInfo id v
  · obtain ⟨id, v, rfl⟩ := he
    obtain ⟨n, hn, rfl⟩ := setInfo_ok hrun
    exact (setInfo_spec h hn (mayDo_setInfo hmay hn)).1
  · push Not at he
    exact (tableStep_held he h hrun).1

theorem inv_empty : Inv ({} : RouteTable α) := by
  refine ⟨⟨⟨nofun, nofun, nofun, nofun, nofun, nofun⟩, fun _ _ => rfl, ?_⟩, nofun⟩
  simp [live]

/-- What the users of a table find between its operations. -/
theorem run_inv {tr : List (TableEvent α)}
    (h : Run tableStep ({} : RouteTable α) (fun s e => mayDo s e = true) tr s) : Inv s := by
  refine h.invariant (I := Inv) inv_empty ?_
  intro s e s' hs hmay hrun
  exact tableStep_inv hs hmay hrun

/-- The structure of a route table. -/
structure WellStructured (s : RouteTable α) : Prop where
  /-- A child has a longer prefix, contained in that of its parent, and hangs on the link of the
  bit that comes next; its parent pointer leads back. -/
  child : ∀ id n b c, s.node id = some n → n.link b = some c → ∃ m, s.node c = some m ∧
    n.p.prefixlen < m.p.prefixlen ∧ prefixMatch n.p m.p = true ∧
    prefixBit m.p n.p.prefixlen = b ∧ m.parent = some id
  /-- A node with a parent is its child, one without is the top of the table. -/
  parent : ∀ id n, s.node id = some n →
    (∀ q, n.parent = some q → ∃ m b, s.node q = some m ∧ m.link b = some id) ∧
    (n.parent = none → s.top = some id)
  top : ∀ id, s.top = some id → ∃ n, s.node id = some n ∧ n.parent = none
  count : s.count = { id | (s.node id).isSome }.ncard
  unlocked : ∀ id n, s.node id = some n → n.lock = 0 →
    n.left.isSome ∧ n.right.isSome ∧ n.info = none

theorem Inv.wellStructured (h : Inv s) : WellStructured s where
  child := by
    intro id n b c hn hc
    rw [← link_of_node hn] at hc
    obtain ⟨hparent, kc, hkc, hb⟩ := h.sound.trie.child (key_of_node hn) hc
    obtain ⟨m, hm, rfl⟩ := node_of_key hkc
    obtain ⟨hpre, hlt, hbit⟩ := bits_bit_iff.mp hb
    exact ⟨m, hm, hlt, prefixMatch_iff.mpr hpre, hbit, (parent_of_node hm).symm.trans hparent⟩
  parent := by
    intro id n hn
    refine ⟨fun q hq => ?_, fun hnone => ?_⟩
    · obtain ⟨⟨kq, hkq⟩, b, hb⟩ :=
        h.sound.trie.parent (key_of_node hn) ((parent_of_node hn).trans hq)
      obtain ⟨m, hm, -⟩ := node_of_key hkq
      exact ⟨m, b, hm, (link_of_node hm b).symm.trans hb⟩
    · exact h.sound.trie.root (key_of_node hn) ((parent_of_node hn).trans hnone)
  top := by
    intro id hid
    obtain ⟨hparent, k, hk⟩ := h.sound.trie.top hid
    obtain ⟨n, hn, -⟩ := node_of_key hk
    exact ⟨n, hn, (parent_of_node hn).symm.trans hparent⟩
  count := h.sound.count
  unlocked := by
    intro id n hn hzero
    obtain ⟨hv, hlinks⟩ := h.tidy id n.p n.info (hzero ▸ tag_of_node hn) not_false
    have hleft := hlinks false
    have hright := hlinks true
    rw [link_of_node hn] at hleft hright
    exact ⟨hleft, hright, hv⟩

/-- In every state that the users of a table can bring it to, it is well structured. -/
theorem routeTable_structure {tr : List (TableEvent α)}
    (h : Run tableStep ({} : RouteTable α) (fun s e => mayDo s e = true) tr s) :
    WellStructured s :=
  (run_inv h).wellStructured

/-- Two prefixes below a node for what they share, and an iteration from one to the other. -/
def crossing : List (TableEvent Nat) :=
  [.get ⟨16, [10, 1]⟩, .get ⟨16, [10, 2]⟩, .setInfo 0 (some 7), .lock 0, .next 0, .unlock 2]

theorem crossing_plays : (play tableStep (fun s e => mayDo s e = true) crossing {}).isSome := by
  decide +kernel

theorem crossing_structure :
    ∃ s, Run tableStep ({} : RouteTable Nat) (fun s e => mayDo s e = true) crossing s ∧
      s.count = 3 ∧ WellStructured s := by
  refine ⟨_, Run.of_play crossing_plays, ?_, routeTable_structure (Run.of_play crossing_plays)⟩
  decide +kernel

end

end Mp2mp.Lib
