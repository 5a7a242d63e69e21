import Mp2mp.Lib.RouteTable

/-!
# Searching and inserting in the route table

The nodes of a table form a `Kit.BitTrie.Trie` (`RouteTable.view`), and the rest of a node is its
prefix, its lock and its contents (`RouteTable.tag`).

* `Sound`: the trie is well linked and its nodes are counted.
* `Tidy`: nodes without a lock hold two subtrees together and have no contents.
* `getLoop_spec`: the walk down ends at the node for a prefix, or at the place for it.
* `routeNodeGet_spec`: `route_node_get` keeps both, and returns the node for its prefix, locked.
-/

namespace Mp2mp.Lib

open Kit Kit.BitTrie Option EStateM RouteTable

variable {α : Type} {d id : Nat} {g p : Prefix} {s s' s₂ s₁ : RouteTable α} {n c : RouteNode α}
  {place : Place Nat} {lastMatch : Option Nat} {k : List Bool} {b : Bool}

namespace RouteTable

/-- The trie that the nodes form. -/
def view (s : RouteTable α) : Trie Nat where
  key id := (s.node id).map (·.p.bits)
  link id b := (s.node id).bind (·.link b)
  parent id := (s.node id).bind (·.parent)
  top := s.top

/-- What a node has beside its place in the trie. -/
def tag (s : RouteTable α) (id : Nat) : Option (Prefix × Nat × Option α) :=
  (s.node id).map fun n => (n.p, n.lock, n.info)

section

variable (h : s.node id = some n)

include h

theorem key_of_node : s.view.key id = some n.p.bits := by
  simp [view, h]

theorem link_of_node (b : Bool) : s.view.link id b = n.link b := by
  simp [view, h]

theorem parent_of_node : s.view.parent id = n.parent := by
  simp [view, h]

theorem tag_of_node : s.tag id = some (n.p, n.lock, n.info) := by
  simp [tag, h]

end

theorem node_of_key (h : s.view.key id = some k) : ∃ n, s.node id = some n ∧ n.p.bits = k := by
  simpa [view] using h

theorem node_of_tag {p : Prefix} {l : Nat} {v : Option α} (h : s.tag id = some (p, l, v)) :
    ∃ n, s.node id = some n ∧ n.p = p ∧ n.lock = l ∧ n.info = v := by
  simpa [tag] using h

theorem tag_eq_none_iff : s.tag id = none ↔ s.view.key id = none := by
  simp [tag, view]

theorem node_eq_none_iff : s.node id = none ↔ s.view.key id = none := by
  simp [view]

theorem adjust_node (s : RouteTable α) (id j : Nat) (f : RouteNode α → RouteNode α) :
    (s.adjust id f).node j = if j = id then (s.node j).map f else s.node j := by
  unfold adjust
  by_cases h : j = id
  · subst h
    simp
  · simp [h]

/-! ## Writes -/

section

variable {f : RouteNode α → RouteNode α} (s : RouteTable α) (id : Nat)

theorem key_adjust (hp : ∀ n, (f n).p = n.p) : (s.adjust id f).view.key = s.view.key := by
  funext j
  simp only [view]
  rw [adjust_node]
  split
  · simp [Function.comp_def, hp]
  · rfl

theorem link_adjust (hlink : ∀ n b, (f n).link b = n.link b) :
    (s.adjust id f).view.link = s.view.link := by
  funext j b
  simp only [view]
  rw [adjust_node]
  split
  · simp [bind_map, hlink]
  · rfl

theorem parent_adjust (hparent : ∀ n, (f n).parent = n.parent) :
    (s.adjust id f).view.parent = s.view.parent := by
  funext j
  simp only [view]
  rw [adjust_node]
  split
  · simp [bind_map, hparent]
  · rfl

/-- A write to locks or contents leaves the trie alone. -/
theorem view_adjust (hp : ∀ n, (f n).p = n.p) (hlink : ∀ n b, (f n).link b = n.link b)
    (hparent : ∀ n, (f n).parent = n.parent) : (s.adjust id f).view = s.view := by
  have hkey := key_adjust s id hp
  have hlinks := link_adjust s id hlink
  have hparents := parent_adjust s id hparent
  unfold view at *
  simp only [Trie.mk.injEq]
  exact ⟨hkey, hlinks, hparents, rfl⟩

theorem tag_adjust (h : ∀ n, ((f n).p, (f n).lock, (f n).info) = (n.p, n.lock, n.info)) :
    (s.adjust id f).tag = s.tag := by
  funext j
  unfold tag
  rw [adjust_node]
  split
  · simp only [map_map, Function.comp_def, h]
  · rfl

end

theorem alloc_node {j : Nat} :
    (s.alloc n).node j = if j = s.fresh then some n else s.node j := by
  unfold alloc
  by_cases h : j = s.fresh
  · subst h
    simp
  · simp [h]

theorem view_alloc (h : s.node s.fresh = none) (p : Prefix) : (s.alloc { p }).view =
      { s.view with key := fun j => if j = s.fresh then some p.bits else s.view.key j } := by
  unfold view
  simp only [Trie.mk.injEq]
  refine ⟨?_, ?_, ?_, rfl⟩
  · funext j
    rw [alloc_node]
    split <;> rfl
  · funext j b
    rw [alloc_node]
    split
    · rename_i heq
      rw [heq, h]
      cases b <;> rfl
    · rfl
  · funext j
    rw [alloc_node]
    split
    · rename_i heq
      rw [heq, h]
      rfl
    · rfl

theorem tag_alloc {p : Prefix} {j : Nat} :
    (s.alloc { p }).tag j = if j = s.fresh then some (p, 0, none) else s.tag j := by
  unfold tag
  rw [alloc_node]
  split <;> rfl

end RouteTable

open RouteTable

theorem RouteNode.link_setLink {b' : Bool} {c : Option Nat} :
    (n.setLink b c).link b' = if b' = b then c else n.link b' := by
  cases b <;> cases b' <;> rfl

theorem run_deref (h : s.node id = some n) : (deref id : Op α _).run s = .ok n s := by
  simp [deref, run_bind, h]

theorem run_modifyNode (h : s.node id = some n) (f : RouteNode α → RouteNode α) :
    (modifyNode id f).run s = .ok () (s.adjust id f) := by
  simp [modifyNode, run_bind, run_deref h]

theorem run_deref_none (h : s.node id = none) : (deref id : Op α _).run s = .error .freed s := by
  simp only [deref, run_bind, run_get, h]
  rfl

theorem run_loop {β : Type} {f : RouteTable α → Option β} {b : β} (h : f s = some b) :
    (loop f).run s = .ok b s := by
  simp [loop, run_bind, h]

/-! ## Hanging a node in -/

/-- The node `x` was hung at a place, and nothing else was changed. -/
structure Hung (s s' : RouteTable α) (place : Place Nat) (x : Nat) : Prop where
  key : s'.view.key = s.view.key
  placed : ∀ p', s'.view.at p' = if p' = place then some x else s.view.at p'
  owner : s'.view.parent x = place.owner
  parent : ∀ n, n ≠ x → s'.view.parent n = s.view.parent n
  tag : s'.tag = s.tag
  count : s'.count = s.count
  fresh : s'.fresh = s.fresh

theorem RouteNode.setLink_p {c : Option Nat} :
    (n.setLink b c).p = n.p := by
  cases b <;> rfl

theorem view_setLink (hid : s.node id = some n) (b : Bool) (c : Option Nat) :
    (s.adjust id (·.setLink b c)).view.key = s.view.key ∧
      (∀ p', (s.adjust id (·.setLink b c)).view.at p' =
        if p' = .link id b then c else s.view.at p') ∧
      (s.adjust id (·.setLink b c)).view.parent = s.view.parent ∧
      (s.adjust id (·.setLink b c)).tag = s.tag := by
  refine ⟨key_adjust _ _ fun m => m.setLink_p, fun p' => ?_,
    parent_adjust _ _ fun m => by cases b <;> rfl, tag_adjust _ _ fun m => by cases b <;> rfl⟩
  cases p' with
  | top => rfl
  | link m b' =>
    change (view _).link m b' = if _ then c else s.view.link m b'
    simp only [view, Place.link.injEq]
    rw [adjust_node]
    by_cases hm : m = id
    · subst hm
      rw [if_pos rfl, hid]
      simp only [map_some, bind_some, RouteNode.link_setLink, true_and]
    · rw [if_neg hm, if_neg fun h => hm h.1]

theorem view_setParent (hid : s.node id = some n) (q : Option Nat) :
    (s.adjust id ({ · with parent := q })).view.key = s.view.key ∧
      (∀ p', (s.adjust id ({ · with parent := q })).view.at p' = s.view.at p') ∧
      (∀ m, (s.adjust id ({ · with parent := q })).view.parent m =
        if m = id then q else s.view.parent m) ∧
      (s.adjust id ({ · with parent := q })).tag = s.tag := by
  refine ⟨key_adjust _ _ fun _ => rfl, fun p' => ?_, fun m => ?_, tag_adjust _ _ fun _ => rfl⟩
  · cases p' with
    | top => rfl
    | link m b =>
      change (view _).link m b = s.view.link m b
      rw [link_adjust _ _ fun m b => by cases b <;> rfl]
  · simp only [view]
    rw [adjust_node]
    split
    · rename_i hm
      rw [hm, hid]
      rfl
    · rfl

theorem setLink_hung {node new : Nat}
    (hnode : s.node node = some n) (hnew : s.node new = some c) (hne : new ≠ node) :
    ∃ s', (setLink node new).run s = .ok () s' ∧
      Hung s s' (.link node (prefixBit c.p n.p.prefixlen)) new := by
  generalize hb : prefixBit c.p n.p.prefixlen = b
  have hnew' : (s.adjust node (·.setLink b (some new))).node new = some c := by
    rw [adjust_node, if_neg hne, hnew]
  obtain ⟨hkey, hat, hparent, htag⟩ := view_setLink hnode b (some new)
  obtain ⟨hkey', hat', hparent', htag'⟩ := view_setParent hnew' (some node)
  refine ⟨_, ?_, hkey'.trans hkey, fun p' => (hat' p').trans (hat p'), ?_, fun m hm => ?_,
    htag'.trans htag, rfl, rfl⟩
  · simp only [setLink, run_bind, run_deref hnode, run_deref hnew, hb,
      run_modifyNode hnode, run_modifyNode hnew']
  · rw [hparent', if_pos rfl]
    rfl
  · rw [hparent', if_neg hm, hparent]

/-- The place that the loop of `route_node_get` has come to after `lastMatch`. -/
def Spot (s : RouteTable α) (p : Prefix) (lastMatch : Option Nat) (place : Place Nat) : Prop :=
  match lastMatch with
  | none => place = .top
  | some m => ∃ t, s.tag m = some t ∧ place = .link m (prefixBit p t.1.prefixlen)

theorem attach_hung {x : Nat} (hspot : Spot s p lastMatch place) (hx : s.node x = some c)
    (hp : ∀ m t, lastMatch = some m → s.tag m = some t →
      prefixBit c.p t.1.prefixlen = prefixBit p t.1.prefixlen)
    (hne : lastMatch ≠ some x) (hparent : c.parent = none) :
    ∃ s', (attach lastMatch x).run s = .ok () s' ∧ Hung s s' place x := by
  cases lastMatch with
  | none =>
    cases hspot
    refine ⟨{ s with top := some x }, rfl, rfl, ?_, ?_, fun _ _ => rfl, rfl, rfl, rfl⟩
    · intro p'
      cases p' with
      | top => rfl
      | link m b => rfl
    · exact (parent_of_node (s := { s with top := some x }) hx).trans hparent
  | some m =>
    obtain ⟨⟨p', l, v⟩, ht, rfl⟩ := hspot
    obtain ⟨n, hm, rfl, rfl, rfl⟩ := node_of_tag ht
    obtain ⟨s', hrun, hhung⟩ := setLink_hung hm hx fun h => hne (congrArg some h.symm)
    rw [hp m _ rfl ht] at hhung
    exact ⟨s', hrun, hhung⟩

/-! ## Sound tables -/

def RouteTable.live (s : RouteTable α) : Set Nat := { id | (s.node id).isSome }

/-- The nodes form a trie and are counted. -/
structure Sound (s : RouteTable α) : Prop where
  trie : Ok s.view
  fresh : ∀ id, s.fresh ≤ id → s.view.key id = none
  count : s.count = s.live.ncard

/-- Nodes without a lock hold two subtrees together and have no contents; all but some. -/
def Tidy (s : RouteTable α) (but : Nat → Prop) : Prop :=
  ∀ id p v, s.tag id = some (p, 0, v) → ¬but id → v = none ∧ ∀ b, (s.view.link id b).isSome

/-- What holds of a table between the operations on it. -/
structure Inv (s : RouteTable α) : Prop where
  sound : Sound s
  tidy : Tidy s fun _ => False

theorem mem_live : id ∈ s.live ↔ ∃ k, s.view.key id = some k := by
  simp [live, view, isSome_iff_exists]

theorem Sound.live_finite (h : Sound s) : s.live.Finite := by
  refine (Set.finite_lt_nat s.fresh).subset fun id hid => ?_
  obtain ⟨k, hk⟩ := mem_live.mp hid
  by_contra hge
  rw [h.fresh id (Nat.le_of_not_lt hge)] at hk
  cases hk

theorem Sound.graft {g : List Bool} (h : Sound s)
    (hg : Graft s.view s'.view place s.fresh g) (hfresh : s'.fresh = s.fresh + 1)
    (hcount : s'.count = s.count + 1) : Sound s' := by
  refine ⟨h.trie.graft hg, fun id hid => ?_, ?_⟩
  · rw [hg.key, if_neg (by omega)]
    exact h.fresh id (by omega)
  · have hlive : s'.live = insert s.fresh s.live := by
      ext id
      rw [Set.mem_insert_iff, mem_live, mem_live, hg.key]
      by_cases hid : id = s.fresh
      · simp [hid]
      · simp [hid]
    have hnew : s.fresh ∉ s.live := by
      rw [mem_live, h.fresh s.fresh le_rfl]
      rintro ⟨k, hk⟩
      cases hk
    rw [hcount, hlive, Set.ncard_insert_of_notMem hnew h.live_finite, h.count]

theorem Sound.splice {x : Nat} {o : Option Nat}
    (h : Sound s) (hs : Splice s.view s'.view place x o) (hfresh : s'.fresh = s.fresh)
    (hcount : s'.count = s.count - 1) : Sound s' := by
  refine ⟨h.trie.splice hs, fun id hid => ?_, ?_⟩
  · rw [hs.key]
    split
    · rfl
    · exact h.fresh id (hfresh ▸ hid)
  · have hlive : s'.live = s.live \ {x} := by
      ext id
      rw [Set.mem_sdiff, Set.mem_singleton_iff, mem_live, mem_live, hs.key]
      by_cases hid : id = x
      · simp [hid]
      · simp [hid]
    have hx : x ∈ s.live := by
      obtain ⟨k, hk, -⟩ := hs.present
      exact mem_live.mpr ⟨k, hk⟩
    rw [hcount, hlive, Set.ncard_sdiff_singleton_of_mem hx, h.count]

/-- Changes of locks and contents do not concern the trie. -/
theorem Sound.congr (h : Sound s) (hview : s'.view = s.view)
    (hcount : s'.count = s.count) (hfresh : s'.fresh = s.fresh) : Sound s' := by
  have hlive : s'.live = s.live := by
    ext id
    rw [mem_live, mem_live, hview]
  exact ⟨hview ▸ h.trie, hview ▸ hfresh ▸ h.fresh, by rw [hcount, hlive, h.count]⟩

/-! ## Walking down -/

theorem covers_iff : covers n p = true ↔ n.p.bits <+: p.bits := by
  rw [covers, Bool.and_eq_true, prefixMatch_iff, decide_eq_true_iff, and_iff_right_iff_imp]
  intro h
  exact (bits_prefix_iff.mp h).1

/-- There is enough fuel for the rest of a walk to `p`. -/
def Fuel (s : RouteTable α) (p : Prefix) (fuel : Nat) (node : Option Nat) : Prop :=
  0 < fuel ∧ ∀ d n, node = some d → s.node d = some n → p.prefixlen + 2 ≤ fuel + n.p.prefixlen

/-- One step of a walk to `p`: it has arrived, or it goes on. -/
theorem walk_step (h : Ok s.view) {fuel : Nat}
    (hd : s.node d = some n) (hcov : n.p.bits <+: p.bits) (hfuel : Fuel s p (fuel + 1) (some d)) :
    (n.p.prefixlen = p.prefixlen ∧ n.p.bits = p.bits) ∨
      (n.p.prefixlen ≠ p.prefixlen ∧ OnPath s.view p.bits (.link d (prefixBit p n.p.prefixlen)) ∧
        s.view.at (.link d (prefixBit p n.p.prefixlen)) =
          n.link (prefixBit p n.p.prefixlen) ∧
        Fuel s p fuel (n.link (prefixBit p n.p.prefixlen))) := by
  by_cases hlen : n.p.prefixlen = p.prefixlen
  · exact .inl ⟨hlen, hcov.eq_of_length (by simpa using hlen)⟩
  · have hle := (bits_prefix_iff.mp hcov).1
    have hbit := bits_bit_iff.mpr ⟨hcov, Nat.lt_of_le_of_ne hle hlen, rfl⟩
    have hroom := hfuel.2 d n rfl hd
    refine .inr ⟨hlen, ⟨_, key_of_node hd, hbit⟩, link_of_node hd _, by omega, ?_⟩
    intro c m hc hm
    rw [← link_of_node hd] at hc
    obtain ⟨-, kc, hkc, hlong⟩ := h.child (key_of_node hd) hc
    rw [key_of_node hm] at hkc
    cases hkc
    have := length_lt_of_bit hlong
    rw [bits_length, bits_length] at this
    omega

/-- Where the walk to `p` has come to at a node. -/
theorem node_at (h : Ok s.view)
    (hpath : OnPath s.view k place) (hd : s.view.at place = some d) : ∃ n, s.node d = some n := by
  obtain ⟨-, kd, hkd, -⟩ := h.owner hpath hd
  obtain ⟨n, hn, -⟩ := node_of_key hkd
  exact ⟨n, hn⟩

/-- The place where the walk to `p` ends without having found it. -/
structure Ended (s : RouteTable α) (p : Prefix) (place : Place Nat) (node : Option Nat) : Prop where
  path : OnPath s.view p.bits place
  here : s.view.at place = node
  apart : ∀ d n, node = some d → s.node d = some n → ¬n.p.bits <+: p.bits

theorem getLoop_spec (h : Ok s.view) {fuel : Nat}
    {node : Option Nat} (hspot : Spot s p lastMatch place)
    (hpath : OnPath s.view p.bits place) (hat : s.view.at place = node)
    (hfuel : Fuel s p fuel node) :
    (∃ id, getLoop s p fuel lastMatch node = some (.found id) ∧ s.view.key id = some p.bits) ∨
      ∃ m d place', getLoop s p fuel lastMatch node = some (.stop m d) ∧ Spot s p m place' ∧
        Ended s p place' d := by
  induction fuel generalizing lastMatch node place with
  | zero => exact absurd hfuel.1 (lt_irrefl 0)
  | succ fuel ih =>
    cases node with
    | none =>
      refine .inr ⟨lastMatch, none, place, rfl, hspot, hpath, hat, fun d n hd => ?_⟩
      cases hd
    | some d =>
      obtain ⟨n, hn⟩ := node_at h hpath hat
      simp only [getLoop, hn, bind_eq_bind, bind_some]
      by_cases hcov : covers n p = true
      · rw [if_pos hcov]
        rw [covers_iff] at hcov
        rcases walk_step h hn hcov hfuel with ⟨hlen, hbits⟩ | ⟨hlen, hpath', hat', hfuel'⟩
        · rw [if_pos hlen]
          exact .inl ⟨d, rfl, hbits ▸ key_of_node hn⟩
        · rw [if_neg hlen]
          exact ih ⟨_, tag_of_node hn, rfl⟩ hpath' hat' hfuel'
      · rw [if_neg hcov]
        rw [covers_iff] at hcov
        refine .inr ⟨lastMatch, some d, place, rfl, hspot, hpath, hat, fun d' n' hd hn' => ?_⟩
        cases hd
        rw [hn] at hn'
        cases hn'
        exact hcov

/-! ## Insertion -/

/-- A node for `p`, without a lock, was put at a place. -/
structure Put (s s' : RouteTable α) (place : Place Nat) (p : Prefix) : Prop where
  graft : Graft s.view s'.view place s.fresh p.bits
  tag : ∀ j, s'.tag j = if j = s.fresh then some (p, 0, none) else s.tag j
  count : s'.count = s.count
  fresh : s'.fresh = s.fresh + 1

section

variable {s₃ : RouteTable α}

theorem Spot.of_tag (h : Spot s p lastMatch place)
    (htag : ∀ j t, s.tag j = some t → s₁.tag j = some t) : Spot s₁ p lastMatch place := by
  cases lastMatch with
  | none => exact h
  | some m =>
    obtain ⟨t, ht, hplace⟩ := h
    exact ⟨t, htag m t ht, hplace⟩

/-- The address of the new node is not in use. -/
theorem Spot.ne_fresh (h : Spot s p lastMatch place) (hnew : s.node s.fresh = none) :
    lastMatch ≠ some s.fresh ∧ place.owner ≠ some s.fresh := by
  cases lastMatch with
  | none =>
    cases h
    exact ⟨nofun, nofun⟩
  | some m =>
    obtain ⟨t, ht, rfl⟩ := h
    have hm : m ≠ s.fresh := by
      rintro rfl
      rw [tag, hnew] at ht
      cases ht
    exact ⟨fun heq => hm (Option.some.inj heq), fun heq => hm (Option.some.inj heq)⟩

section

variable (hnew : s.node s.fresh = none)

include hnew

theorem at_alloc (p' : Place Nat) : (s.alloc { p }).view.at p' = s.view.at p' := by
  rw [view_alloc hnew]
  cases p' <;> rfl

theorem parent_alloc (n : Nat) : (s.alloc { p }).view.parent n = s.view.parent n := by
  rw [view_alloc hnew]

theorem link_fresh (b : Bool) : s.view.link s.fresh b = none := by
  simp [view, hnew]

/-- A node where nothing hangs. -/
theorem Hung.put_leaf (hspot : Spot s p lastMatch place)
    (hpath : OnPath s.view p.bits place) (hat : s.view.at place = none)
    (hhung : Hung (s.alloc { p }) s₁ place s.fresh) : Put s s₁ place p where
  graft :=
    { absent := node_eq_none_iff.mp hnew
      path := hpath
      below := by
        intro d hd
        rw [hat] at hd
        cases hd
      key := by
        intro n
        rw [hhung.key, view_alloc hnew]
      placed := by rw [hhung.placed, if_pos rfl]
      other := by
        intro p' hne _
        rw [hhung.placed, if_neg hne, at_alloc hnew]
      child := by
        intro b c hc
        have hne : Place.link s.fresh b ≠ place := by
          rintro rfl
          exact (hspot.ne_fresh hnew).2 rfl
        have hlink := hhung.placed (.link s.fresh b)
        rw [if_neg hne, at_alloc hnew] at hlink
        rw [show s₁.view.link s.fresh b = none from hlink.trans (link_fresh hnew b)] at hc
        cases hc
      parent := by
        intro n
        by_cases hn : n = s.fresh
        · rw [if_pos hn, hn, hhung.owner]
        · rw [if_neg hn, hat, if_neg nofun, hhung.parent n hn, parent_alloc hnew] }
  tag := by
    intro j
    rw [hhung.tag, tag_alloc]
  count := hhung.count
  fresh := hhung.fresh

/-- A node above another that hung at the place. -/
theorem Hung.put_above
    (hspot : Spot s p lastMatch place) (hpath : OnPath s.view g.bits place)
    (hat : s.view.at place = some d) (hd : s.node d = some n) (hb : g.bits ++ [b] <+: n.p.bits)
    (hbelow : Hung (s.alloc { p := g }) s₁ (.link s.fresh b) d)
    (habove : Hung s₁ s₂ place s.fresh) : Put s s₂ place g := by
  have hdne : d ≠ s.fresh := by
    rintro rfl
    rw [hnew] at hd
    cases hd
  have hown := (hspot.ne_fresh hnew).2
  have hlink : ∀ b', s₂.view.link s.fresh b' = if b' = b then some d else none := by
    intro b'
    have hne : Place.link s.fresh b' ≠ place := by
      rintro rfl
      exact hown rfl
    have h₂ := habove.placed (.link s.fresh b')
    rw [if_neg hne, hbelow.placed, at_alloc hnew] at h₂
    change s₂.view.link s.fresh b' = if _ then some d else s.view.link s.fresh b' at h₂
    rw [h₂, link_fresh hnew]
    by_cases heq : b' = b
    · rw [if_pos (by rw [heq]), if_pos heq]
    · rw [if_neg fun h => heq (Place.link.inj h).2, if_neg heq]
  refine ⟨?_, ?_, habove.count.trans hbelow.count, habove.fresh.trans hbelow.fresh⟩
  · constructor
    · exact node_eq_none_iff.mp hnew
    · exact hpath
    · intro c hc
      rw [hat] at hc
      cases hc
      exact ⟨_, key_of_node hd, b, hb, by rw [hlink, if_pos rfl]⟩
    · intro m
      rw [habove.key, hbelow.key, view_alloc hnew]
    · rw [habove.placed, if_pos rfl]
    · intro p' hne hne'
      have hne₂ : p' ≠ .link s.fresh b := by
        rintro rfl
        exact hne' rfl
      rw [habove.placed, if_neg hne, hbelow.placed, if_neg hne₂, at_alloc hnew]
    · intro b' c hc
      rw [hlink] at hc
      split at hc
      · rename_i heq
        cases hc
        subst heq
        exact ⟨hat, _, key_of_node hd, hb⟩
      · cases hc
    · intro m
      by_cases hm : m = s.fresh
      · rw [if_pos hm, hm, habove.owner]
      · rw [if_neg hm, habove.parent m hm, hat]
        by_cases hmd : d = m
        · subst hmd
          rw [if_pos rfl, hbelow.owner]
          rfl
        · rw [if_neg fun h => hmd (Option.some.inj h), hbelow.parent m (Ne.symm hmd),
            parent_alloc hnew]
  · intro j
    rw [habove.tag, hbelow.tag, tag_alloc]

end

theorem Put.sound (h : Sound s) (hput : Put s s₁ place p) :
    Sound { s₁ with count := s.count + 1 } := by
  have hgraft : Graft s.view (view { s₁ with count := s.count + 1 }) place s.fresh p.bits :=
    hput.graft
  exact h.graft hgraft hput.fresh rfl

theorem Put.link_isSome (hput : Put s s₁ place p) (hid : id ≠ s.fresh)
    (hlink : (s.view.link id b).isSome) : (s₁.view.link id b).isSome := by
  by_cases hplace : place = .link id b
  · have hplaced := hput.graft.placed
    rw [hplace] at hplaced
    rw [show s₁.view.link id b = some s.fresh from hplaced]
    rfl
  · rwa [hput.graft.link_old hid hplace]

theorem Put.tidy {but : Nat → Prop} (hput : Put s s₁ place p) (h : Tidy s but) :
    Tidy s₁ fun j => but j ∨ j = s.fresh := by
  intro id q v htag hbut
  rw [not_or] at hbut
  rw [hput.tag, if_neg hbut.2] at htag
  obtain ⟨hv, hlinks⟩ := h id q v htag hbut.1
  exact ⟨hv, fun b => hput.link_isSome hbut.2 (hlinks b)⟩

theorem getLeaf_put (hnew : s.node s.fresh = none) (hspot : Spot s p lastMatch place)
    (hpath : OnPath s.view p.bits place) (hat : s.view.at place = none) :
    ∃ s', (getLeaf lastMatch p).run s = .ok s.fresh s' ∧ Put s s' place p := by
  have hspot' : Spot (s.alloc { p }) p lastMatch place := by
    refine hspot.of_tag fun j t ht => ?_
    rw [tag_alloc, if_neg, ht]
    rintro rfl
    rw [tag, hnew] at ht
    cases ht
  have hx : (s.alloc { p }).node s.fresh = some { p } := by rw [alloc_node, if_pos rfl]
  obtain ⟨s', hrun, hhung⟩ :=
    attach_hung hspot' hx (fun _ _ _ _ => rfl) (hspot.ne_fresh hnew).1 rfl
  refine ⟨s', ?_, hhung.put_leaf hnew hspot hpath hat⟩
  simp [getLeaf, routeNodeSet, run_bind, hrun]

/-- What a new node has in common with the one it displaces is still on the way to the place. -/
theorem path_common (h : Ok s.view)
    (hpath : OnPath s.view p.bits place) (hat : s.view.at place = some d)
    (hd : s.node d = some n) (hapart : ¬n.p.bits <+: p.bits) :
    OnPath s.view (routeCommon n.p p).bits place := by
  cases place with
  | top => trivial
  | link m b =>
    obtain ⟨km, hkm, hb⟩ := hpath
    obtain ⟨-, kd, hkd, hbd⟩ := h.child hkm hat
    rw [key_of_node hd] at hkd
    cases hkd
    refine ⟨km, hkm, ?_⟩
    obtain ⟨-, heq | ⟨c, hc, hnc⟩⟩ := routeCommon_fork hapart
    · rwa [heq]
    · exact prefix_of_fork hb hbd hc hnc

/-- The part of `route_node_get` that puts a node above another. -/
theorem above_put (h : Ok s.view) (hnew : s.node s.fresh = none)
    (hspot : Spot s p lastMatch place) (hend : Ended s p place (some d)) (hd : s.node d = some n) :
    ∃ s₁ s₂, (setLink s.fresh d).run (s.alloc { p := routeCommon n.p p }) = .ok () s₁ ∧
      (attach lastMatch s.fresh).run s₁ = .ok () s₂ ∧ Put s s₂ place (routeCommon n.p p) := by
  have hapart := hend.apart d n rfl hd
  have hpath := path_common h hend.path hend.here hd hapart
  obtain ⟨⟨b, hb⟩, -⟩ := routeCommon_fork hapart
  have hbit := (bits_bit_iff.mp hb).2.2
  generalize routeCommon n.p p = g at hpath hb hbit
  have hdne : d ≠ s.fresh := by
    rintro rfl
    rw [hnew] at hd
    cases hd
  have hx : (s.alloc { p := g }).node s.fresh = some { p := g } := by rw [alloc_node, if_pos rfl]
  have hd₁ : (s.alloc { p := g }).node d = some n := by rw [alloc_node, if_neg hdne, hd]
  obtain ⟨s₁, hrun₁, hbelow⟩ := setLink_hung hx hd₁ hdne
  rw [hbit] at hbelow
  have htag₁ : ∀ j t, s.tag j = some t → s₁.tag j = some t := by
    intro j t ht
    rw [hbelow.tag, tag_alloc, if_neg, ht]
    rintro rfl
    rw [tag, hnew] at ht
    cases ht
  have hfresh₁ : s₁.tag s.fresh = some (g, 0, none) := by rw [hbelow.tag, tag_alloc, if_pos rfl]
  obtain ⟨c, hc, hceq⟩ := node_of_tag hfresh₁
  have hparent : c.parent = none := by
    rw [← parent_of_node hc, hbelow.parent _ (Ne.symm hdne), parent_alloc hnew]
    simp [view, hnew]
  -- the bit after the last match is the same in `p` and in what `p` shares with the node
  have hbits : ∀ m t, lastMatch = some m → s₁.tag m = some t →
      prefixBit c.p t.1.prefixlen = prefixBit p t.1.prefixlen := by
    rintro m t rfl ht
    obtain ⟨t', ht', hplace⟩ := hspot
    rw [htag₁ m t' ht'] at ht
    cases ht
    rw [hplace] at hpath
    obtain ⟨km, hkm, hbm⟩ := hpath
    obtain ⟨nm, hnm, hnp, -⟩ := node_of_tag ht'
    rw [key_of_node hnm, hnp] at hkm
    cases hkm
    rw [hceq.1]
    exact (bits_bit_iff.mp hbm).2.2
  obtain ⟨s₂, hrun₂, habove⟩ :=
    attach_hung (hspot.of_tag htag₁) hc hbits (hspot.ne_fresh hnew).1 hparent
  exact ⟨s₁, s₂, hrun₁, hrun₂, hbelow.put_above hnew hspot hpath hend.here hd hb habove⟩

end

/-- What `route_node_get` changes for the user: a lock of the node it returns. -/
structure Got (s s' : RouteTable α) (id : Nat) : Prop where
  old : ∀ j t, s.tag j = some t →
    s'.tag j = some (if j = id then (t.1, t.2.1 + 1, t.2.2) else t)
  new : ∀ j t, s.tag j = none → s'.tag j = some t → t.2.2 = none

theorem tag_lock (s : RouteTable α) (id j : Nat) (f : Nat → Nat) :
    (s.adjust id fun n => { n with lock := f n.lock }).tag j =
      if j = id then (s.tag j).map fun t => (t.1, f t.2.1, t.2.2) else s.tag j := by
  unfold tag
  rw [adjust_node]
  split
  · simp [Function.comp_def]
  · rfl

theorem view_lock (s : RouteTable α) (id : Nat) (f : Nat → Nat) :
    (s.adjust id fun n => { n with lock := f n.lock }).view = s.view :=
  view_adjust (f := fun n => { n with lock := f n.lock }) s id (fun _ => rfl)
    (fun _ b => by cases b <;> rfl) fun _ => rfl

/-- A node that was left without what it needs is locked. -/
theorem Inv.lock_node (hsound : Sound s) (htidy : Tidy s fun j => j = id) (hid : (s.node id).isSome) :
    ∃ s', (routeLockNode id).run s = .ok () s' ∧ Inv s' ∧ s'.view = s.view ∧
      ∀ j, s'.tag j =
        if j = id then (s.tag j).map fun t => (t.1, t.2.1 + 1, t.2.2) else s.tag j := by
  obtain ⟨n, hn⟩ := isSome_iff_exists.mp hid
  have hview := view_lock s id (· + 1)
  have htag := fun j => tag_lock s id j (· + 1)
  refine ⟨_, run_modifyNode hn _, ⟨hsound.congr hview rfl rfl, ?_⟩, hview, htag⟩
  intro j p v hj _
  rw [htag] at hj
  rw [hview]
  by_cases heq : j = id
  · rw [if_pos heq] at hj
    obtain ⟨t, -, ht⟩ := map_eq_some_iff.mp hj
    simp at ht
  · rw [if_neg heq] at hj
    exact htidy j p v hj heq

theorem Inv.lock_live (h : Inv s) (hid : (s.node id).isSome) :
    ∃ s', (routeLockNode id).run s = .ok () s' ∧ Inv s' ∧ s'.view = s.view ∧
      ∀ j, s'.tag j =
        if j = id then (s.tag j).map fun t => (t.1, t.2.1 + 1, t.2.2) else s.tag j :=
  Inv.lock_node h.sound (fun j p v hj _ => h.tidy j p v hj not_false) hid

/-- The new nodes of `route_node_get`: one for `p` without a lock, and perhaps one above it that
holds two subtrees together. -/
structure Placed (s s' : RouteTable α) (p : Prefix) (id : Nat) : Prop where
  sound : Sound { s' with count := s'.count + 1 }
  tidy : Tidy s' fun j => j = id
  key : s'.view.key id = some p.bits
  fresh : s.tag id = none
  unlocked : ∀ t, s'.tag id = some t → t.2.1 = 0
  old : ∀ j t, s.tag j = some t → s'.tag j = some t
  new : ∀ j t, s.tag j = none → s'.tag j = some t → t.2.2 = none

theorem Put.placed (h : Inv s) (hput : Put s s' place g)
    (hg : g.bits = p.bits) : Placed s s' p s.fresh where
  sound := hput.count ▸ hput.sound h.sound
  tidy := by
    have htidy := hput.tidy h.tidy
    simpa using htidy
  key := by
    rw [hput.graft.key, if_pos rfl, hg]
  fresh := by
    rw [tag_eq_none_iff]
    exact hput.graft.absent
  unlocked := by
    intro t ht
    rw [hput.tag, if_pos rfl] at ht
    cases ht
    rfl
  old := by
    intro j t ht
    rw [hput.tag, if_neg, ht]
    rintro rfl
    rw [tag_eq_none_iff.mpr hput.graft.absent] at ht
    cases ht
  new := by
    intro j t hj ht
    rw [hput.tag] at ht
    split at ht
    · cases ht
      rfl
    · rw [hj] at ht
      cases ht

/-- A node was put above another, and the node for `p` on its other side. -/
theorem Put.placed_below {c : Bool} (h : Inv s)
    (hput : Put s s₁ place g) (hleaf : Put s₁ s₂ (.link s.fresh c) p)
    (hother : (s₁.view.link s.fresh (!c)).isSome) :
    Placed s { s₂ with count := s₂.count + 1 } p s₁.fresh := by
  have hne : s.fresh ≠ s₁.fresh := by
    rw [hput.fresh]
    omega
  have hold : ∀ j t, s₁.tag j = some t → s₂.tag j = some t := by
    intro j t ht
    rw [hleaf.tag, if_neg, ht]
    rintro rfl
    rw [tag_eq_none_iff.mpr hleaf.graft.absent] at ht
    cases ht
  have hplaced : Placed s s₁ g s.fresh := hput.placed h rfl
  constructor
  · have hleaf' : Put { s₁ with count := s.count + 1 } { s₂ with count := s.count + 1 }
        (.link s.fresh c) p := ⟨hleaf.graft, hleaf.tag, rfl, hleaf.fresh⟩
    rw [show s₂.count = s.count from hleaf.count.trans hput.count]
    have hsound : Sound { s₁ with count := s.count + 1 } := hput.sound h.sound
    have hsound' := hleaf'.sound hsound
    exact hsound'
  · intro j q v htag hj
    by_cases hglue : j = s.fresh
    · subst hglue
      refine ⟨?_, fun b => ?_⟩
      · have hfresh : s₂.tag s.fresh = some (g, 0, none) :=
          hold _ _ (by rw [hput.tag, if_pos rfl])
        cases hfresh.symm.trans htag
        rfl
      · by_cases hb : b = c
        · subst hb
          rw [show (view { s₂ with count := s₂.count + 1 }).link s.fresh b =
            some s₁.fresh from hleaf.graft.placed]
          rfl
        · rw [Bool.eq_not.mpr hb]
          exact hleaf.link_isSome hne hother
    · refine hleaf.tidy (hput.tidy h.tidy) j q v htag ?_
      rintro ((hfalse | heq) | heq)
      · exact hfalse
      · exact hglue heq
      · exact hj heq
  · exact (hleaf.graft.key _).trans (if_pos rfl)
  · rw [tag_eq_none_iff]
    exact h.sound.fresh _ (by rw [hput.fresh]; omega)
  · intro t ht
    cases ht.symm.trans ((hleaf.tag s₁.fresh).trans (if_pos rfl))
    rfl
  · intro j t ht
    exact hold j t (hplaced.old j t ht)
  · intro j t hj ht
    replace ht := (hleaf.tag j).symm.trans ht
    split at ht
    · cases ht
      rfl
    · exact hplaced.new j t hj ht

theorem getSplit_placed (h : Inv s) (hspot : Spot s p lastMatch place)
    (hend : Ended s p place (some d)) :
    ∃ id s', (getSplit lastMatch d p).run s = .ok id s' ∧ Placed s s' p id := by
  have hnew : s.node s.fresh = none := node_eq_none_iff.mpr (h.sound.fresh _ le_rfl)
  obtain ⟨n, hd⟩ := node_at h.sound.trie hend.path hend.here
  obtain ⟨s₁, s₂, hrun₁, hrun₂, hput⟩ := above_put h.sound.trie hnew hspot hend hd
  have hrun : (getSplit lastMatch d p).run s =
      (if (routeCommon n.p p).prefixlen ≠ p.prefixlen then do
        let leaf ← getLeaf (some s.fresh) p
        addCount
        pure leaf
      else pure s.fresh : Op α Nat).run s₂ := by
    simp only [getSplit, routeNodeSet, run_bind, run_deref hd, run_get,
      run_modify, run_pure, hrun₁, hrun₂]
  rw [hrun]
  obtain ⟨-, heq | ⟨c, hc, hnc⟩⟩ := routeCommon_fork (hend.apart d n rfl hd)
  · have hlen : (routeCommon n.p p).prefixlen = p.prefixlen := by
      rw [← bits_length, heq, bits_length]
    rw [if_neg (not_not.mpr hlen)]
    exact ⟨s.fresh, s₂, rfl, hput.placed h heq⟩
  · have hbit := bits_bit_iff.mp hc
    rw [if_pos hbit.2.1.ne]
    have hkey : s₂.view.key s.fresh = some (routeCommon n.p p).bits := by
      rw [hput.graft.key, if_pos rfl]
    have hlink : s₂.view.link s.fresh (!c) = some d := by
      obtain ⟨kd, hkd, b, hb, hlink⟩ := hput.graft.below d hend.here
      rw [key_of_node hd] at hkd
      cases hkd
      rwa [← bit_unique hb hnc]
    have hnone : s₂.view.link s.fresh c = none := by
      rw [eq_none_iff_forall_ne_some]
      intro e he
      obtain ⟨hat, ke, hke, hb⟩ := hput.graft.child c e he
      rw [hend.here] at hat
      cases hat
      rw [key_of_node hd] at hke
      cases hke
      have := bit_unique hb hnc
      cases c <;> cases this
    have hspot₂ : Spot s₂ p (some s.fresh) (.link s.fresh c) :=
      ⟨_, (hput.tag s.fresh).trans (if_pos rfl), by rw [hbit.2.2]⟩
    have hnew₂ : s₂.node s₂.fresh = none :=
      node_eq_none_iff.mpr ((hput.sound h.sound).fresh _ le_rfl)
    obtain ⟨s₃, hrun₃, hleaf⟩ := getLeaf_put hnew₂ hspot₂ ⟨_, hkey, hc⟩ hnone
    refine ⟨s₂.fresh, { s₃ with count := s₃.count + 1 }, ?_, hput.placed_below h hleaf ?_⟩
    · simp [run_bind, hrun₃, addCount]
    · rw [hlink]
      rfl

theorem getLeaf_placed (h : Inv s) (hspot : Spot s p lastMatch place)
    (hend : Ended s p place none) :
    ∃ id s', (getLeaf lastMatch p).run s = .ok id s' ∧ Placed s s' p id := by
  have hnew : s.node s.fresh = none := node_eq_none_iff.mpr (h.sound.fresh _ le_rfl)
  obtain ⟨s', hrun, hput⟩ := getLeaf_put hnew hspot hend.path hend.here
  exact ⟨s.fresh, s', hrun, hput.placed h rfl⟩

theorem Placed.got (hplaced : Placed s s' p id) :
    ∃ s₂, (do addCount; routeLockNode id; pure id : Op α Nat).run s' = .ok id s₂ ∧ Inv s₂ ∧
      s₂.view.key id = some p.bits ∧ Got s s₂ id := by
  obtain ⟨n, hn, -⟩ := node_of_key hplaced.key
  obtain ⟨s₂, hrun, hinv, hview, htag⟩ :=
    Inv.lock_node hplaced.sound hplaced.tidy (isSome_iff_exists.mpr ⟨n, hn⟩)
  refine ⟨s₂, ?_, hinv, by rw [hview]; exact hplaced.key, ?_, ?_⟩
  · simp [run_bind, addCount, hrun]
  · intro j t ht
    rw [htag]
    by_cases hj : j = id
    · rw [hj, hplaced.fresh] at ht
      cases ht
    · rw [if_neg hj, if_neg hj]
      exact hplaced.old j t ht
  · intro j t hj ht
    rw [htag] at ht
    split at ht
    · obtain ⟨t', ht', rfl⟩ := map_eq_some_iff.mp ht
      exact hplaced.new j t' hj ht'
    · exact hplaced.new j t hj ht

theorem routeNodeGet_spec (h : Inv s) (p : Prefix) :
    ∃ id s', (routeNodeGet p).run s = .ok id s' ∧ Inv s' ∧ s'.view.key id = some p.bits ∧
      Got s s' id := by
  have hfuel : Fuel s p (p.prefixlen + 2) s.top := ⟨by omega, fun _ _ _ _ => by omega⟩
  have htop : Spot s p none .top := rfl
  rcases getLoop_spec h.sound.trie htop trivial rfl hfuel with
    ⟨id, hloop, hkey⟩ | ⟨m, d, place, hloop, hspot, hend⟩
  · obtain ⟨n, hn, -⟩ := node_of_key hkey
    obtain ⟨s₁, hrun, hinv, hview, htag⟩ :=
      h.lock_live (isSome_iff_exists.mpr ⟨n, hn⟩)
    have hwalk : (loop fun s => getLoop s p (p.prefixlen + 2) none s.top : Op α Walk).run s =
        .ok (.found id) s := run_loop hloop
    refine ⟨id, s₁, ?_, hinv, by rw [hview]; exact hkey, ?_, ?_⟩
    · simp only [routeNodeGet, run_bind, hwalk, hrun, run_pure]
    · intro j t ht
      rw [htag, ht]
      split <;> rfl
    · intro j t hj ht
      rw [htag, hj] at ht
      split at ht <;> cases ht
  · have hwalk : (loop fun s => getLoop s p (p.prefixlen + 2) none s.top : Op α Walk).run s =
        .ok (.stop m d) s := run_loop hloop
    simp only [routeNodeGet, run_bind, hwalk]
    cases d with
    | none =>
      obtain ⟨id, s₁, hrun, hplaced⟩ := getLeaf_placed h hspot hend
      obtain ⟨s₂, hrun₂, hinv⟩ := hplaced.got
      exact ⟨id, s₂, by rw [run_bind, hrun]; exact hrun₂, hinv⟩
    | some d =>
      obtain ⟨id, s₁, hrun, hplaced⟩ := getSplit_placed h hspot hend
      obtain ⟨s₂, hrun₂, hinv⟩ := hplaced.got
      exact ⟨id, s₂, by rw [run_bind, hrun]; exact hrun₂, hinv⟩

end Mp2mp.Lib
