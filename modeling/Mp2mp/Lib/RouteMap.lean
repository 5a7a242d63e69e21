import Mp2mp.Lib.RouteLocks

/-!
# The route table as a map

A user sees the route table as a map from prefixes to contents: what is assigned to `info` of the
node for a prefix is found there again, and the longest of the prefixes that contain an address.

* `lookupLoop_spec`, `matchLoop_spec`: the walks that look for contents.
* `routeTable_map`: lookups agree with a map that is kept beside the table.
* `tableStep_returns`: the operations that the rules allow do not stop.
-/

namespace Mp2mp.Lib

open Kit Kit.BitTrie RouteTable EStateM Option

variable {α : Type} {place : Place Nat} {id : Nat} {t : RouteTable α}

/-! ## Looking for contents -/

variable {n : RouteNode α}

section

variable {s : RouteTable α} {p : Prefix} {node matched : Option Nat}

theorem Ended.absent (h : Ok s.view) (hend : Ended s p place node) (hn : s.node id = some n) :
    n.p.bits ≠ p.bits := by
  intro heq
  have hkey := heq ▸ key_of_node hn
  obtain ⟨d, kd, hd, hkd, hpre⟩ := h.search_at hend.path hkey
  obtain ⟨m, hm, rfl⟩ := node_of_key hkd
  exact hend.apart d m (hend.here.symm.trans hd) hm hpre

theorem lookupLoop_spec (h : Ok s.view) {fuel : Nat}
    (hpath : OnPath s.view p.bits place) (hat : s.view.at place = node)
    (hfuel : Fuel s p fuel node) :
    ∃ r, lookupLoop s p fuel node = some r ∧
      (∀ id, r = some id → ∃ n, s.node id = some n ∧ n.p.bits = p.bits ∧ n.info.isSome) ∧
      (r = none → ∀ id n, s.node id = some n → n.p.bits = p.bits → n.info = none) := by
  induction fuel generalizing node place with
  | zero => exact absurd hfuel.1 (lt_irrefl 0)
  | succ fuel ih =>
    cases node with
    | none =>
      have hend : Ended s p place none := ⟨hpath, hat, nofun⟩
      exact ⟨none, rfl, nofun, fun _ id n hn heq => absurd heq (hend.absent h hn)⟩
    | some d =>
      obtain ⟨n, hn⟩ := node_at h hpath hat
      simp only [lookupLoop, hn, bind_eq_bind, bind_some]
      by_cases hcov : covers n p = true
      · rw [if_pos hcov]
        rw [covers_iff] at hcov
        rcases walk_step h hn hcov hfuel with ⟨hlen, hbits⟩ | ⟨hlen, hpath', hat', hfuel'⟩
        · rw [if_pos hlen]
          by_cases hinfo : n.info.isSome
          · rw [if_pos hinfo]
            refine ⟨some d, rfl, fun id hid => ?_, nofun⟩
            cases hid
            exact ⟨n, hn, hbits, hinfo⟩
          · rw [if_neg hinfo]
            refine ⟨none, rfl, nofun, fun _ id m hm heq => ?_⟩
            obtain rfl := h.inj (heq ▸ key_of_node hm) (hbits ▸ key_of_node hn)
            rw [hn] at hm
            cases hm
            exact not_isSome_iff_eq_none.mp hinfo
        · rw [if_neg hlen]
          exact ih hpath' hat' hfuel'
      · rw [if_neg hcov]
        rw [covers_iff] at hcov
        have hend : Ended s p place (some d) := by
          refine ⟨hpath, hat, fun d' n' hd hn' => ?_⟩
          cases hd
          rw [hn] at hn'
          cases hn'
          exact hcov
        exact ⟨none, rfl, nofun, fun _ id m hm heq => absurd heq (hend.absent h hm)⟩

/-- A node with contents whose prefix contains `p`. -/
def Contains (s : RouteTable α) (p : Prefix) (id : Nat) (n : RouteNode α) : Prop :=
  s.node id = some n ∧ n.p.bits <+: p.bits ∧ n.info.isSome

/-- The longest match that the walk to `p` has found when it is at a place: only nodes it has not
come to yet can be longer. -/
structure Best (s : RouteTable α) (p : Prefix) (place : Place Nat) (matched : Option Nat) : Prop where
  found : ∀ id, matched = some id → ∃ n, Contains s p id n
  above : ∀ id n d m, matched = some id → s.node id = some n → s.view.at place = some d →
    s.node d = some m → n.p.prefixlen ≤ m.p.prefixlen
  rest : ∀ j m, Contains s p j m →
    (∃ id n, matched = some id ∧ s.node id = some n ∧ m.p.prefixlen ≤ n.p.prefixlen) ∨
      OnPath s.view m.p.bits place

/-- The longest match. -/
structure Longest (s : RouteTable α) (p : Prefix) (r : Option Nat) : Prop where
  found : ∀ id, r = some id → ∃ n, Contains s p id n
  longest : ∀ j m, Contains s p j m →
    ∃ id n, r = some id ∧ s.node id = some n ∧ m.p.prefixlen ≤ n.p.prefixlen

/-- Where the walk ends, the best match is the longest. -/
theorem Best.longest (h : Ok s.view)
    (hbest : Best s p place matched) (hend : Ended s p place node) : Longest s p matched := by
  refine ⟨hbest.found, fun j m hm => ?_⟩
  rcases hbest.rest j m hm with hdone | hpath
  · exact hdone
  · obtain ⟨hj, hpre, -⟩ := hm
    obtain ⟨d, kd, hd, hkd, hpre'⟩ := h.search_at hpath (key_of_node hj)
    obtain ⟨nd, hnd, rfl⟩ := node_of_key hkd
    exact absurd (hpre'.trans hpre) (hend.apart d nd (hend.here.symm.trans hd) hnd)

theorem Best.step (h : Ok s.view) {d : Nat}
    (hbest : Best s p place matched) (hat : s.view.at place = some d)
    (hn : s.node d = some n) (hcov : n.p.bits <+: p.bits) :
    let matched' := if n.info.isSome then some d else matched
    (∀ id, matched' = some id → ∃ m, Contains s p id m ∧ m.p.prefixlen ≤ n.p.prefixlen) ∧
      ∀ j m, Contains s p j m →
        (∃ id m', matched' = some id ∧ s.node id = some m' ∧ m.p.prefixlen ≤ m'.p.prefixlen) ∨
          ∃ b, n.p.bits ++ [b] <+: m.p.bits := by
  dsimp only
  refine ⟨fun id hid => ?_, fun j m hm => ?_⟩
  · split at hid
    · rename_i hinfo
      cases hid
      exact ⟨n, ⟨hn, hcov, hinfo⟩, le_rfl⟩
    · obtain ⟨m, hm⟩ := hbest.found id hid
      exact ⟨m, hm, hbest.above id m d n hid hm.1 hat hn⟩
  · rcases hbest.rest j m hm with ⟨id, m', hid, hm', hle⟩ | hpath
    · left
      by_cases hinfo : n.info.isSome
      · rw [if_pos hinfo]
        exact ⟨d, n, rfl, hn, hle.trans (hbest.above id m' d n hid hm' hat hn)⟩
      · rw [if_neg hinfo]
        exact ⟨id, m', hid, hm', hle⟩
    · obtain ⟨hj, -, hinfo⟩ := hm
      obtain ⟨d', kd, hd', hkd, hpre⟩ := h.search_at hpath (key_of_node hj)
      rw [hat] at hd'
      cases hd'
      rw [key_of_node hn] at hkd
      cases hkd
      by_cases heq : n.p.bits = m.p.bits
      · left
        obtain rfl := h.inj (key_of_node hn) (heq ▸ key_of_node hj)
        rw [hn] at hj
        cases hj
        rw [if_pos hinfo]
        exact ⟨d, n, rfl, hn, le_rfl⟩
      · exact .inr (exists_bit hpre heq)

theorem matchLoop_spec (h : Ok s.view) {fuel : Nat}
    (hbest : Best s p place matched) (hpath : OnPath s.view p.bits place)
    (hat : s.view.at place = node) (hfuel : Fuel s p fuel node) :
    ∃ r, matchLoop s p fuel matched node = some r ∧ Longest s p r := by
  induction fuel generalizing matched node place with
  | zero => exact absurd hfuel.1 (lt_irrefl 0)
  | succ fuel ih =>
    cases node with
    | none => exact ⟨matched, rfl, hbest.longest h ⟨hpath, hat, nofun⟩⟩
    | some d =>
      obtain ⟨n, hn⟩ := node_at h hpath hat
      simp only [matchLoop, hn, bind_eq_bind, bind_some]
      by_cases hcov : covers n p = true
      · rw [if_pos hcov]
        rw [covers_iff] at hcov
        obtain ⟨hfound, hrest⟩ := hbest.step h hat hn hcov
        generalize (if n.info.isSome then some d else matched) = matched' at hfound hrest
        rcases walk_step h hn hcov hfuel with ⟨hlen, hbits⟩ | ⟨hlen, hpath', hat', hfuel'⟩
        · rw [if_pos hlen]
          refine ⟨matched', rfl, fun id hid => ?_, fun j m hm => ?_⟩
          · obtain ⟨m, hm, -⟩ := hfound id hid
            exact ⟨m, hm⟩
          · rcases hrest j m hm with hdone | ⟨b, hb⟩
            · exact hdone
            · have hlt := length_lt_of_bit (hb.trans hm.2.1)
              rw [hbits] at hlt
              exact absurd hlt (lt_irrefl _)
        · rw [if_neg hlen]
          refine ih ⟨fun id hid => ?_, fun id m c mc hid hm hc hmc => ?_, fun j m hm => ?_⟩
            hpath' hat' hfuel'
          · obtain ⟨m, hm, -⟩ := hfound id hid
            exact ⟨m, hm⟩
          · obtain ⟨m', ⟨hm', -⟩, hle⟩ := hfound id hid
            rw [hm] at hm'
            cases hm'
            obtain ⟨-, kc, hkc, hlong⟩ := h.child (key_of_node hn) hc
            rw [key_of_node hmc] at hkc
            cases hkc
            have hlt := length_lt_of_bit hlong
            rw [bits_length, bits_length] at hlt
            omega
          · rcases hrest j m hm with hdone | ⟨b, hb⟩
            · exact .inl hdone
            · obtain ⟨kd, hkd, hbit⟩ := hpath'
              rw [key_of_node hn] at hkd
              cases hkd
              rw [bit_unique (hb.trans hm.2.1) hbit] at hb
              exact .inr ⟨_, key_of_node hn, hb⟩
      · rw [if_neg hcov]
        rw [covers_iff] at hcov
        refine ⟨matched, rfl, hbest.longest h ⟨hpath, hat, fun d' n' hd hn' => ?_⟩⟩
        cases hd
        rw [hn] at hn'
        cases hn'
        exact hcov

theorem lockFound_run (h : Inv s) (hn : s.node id = some n) :
    ∃ s', (do routeLockNode id; pure (some id) : Op α (Option Nat)).run s = .ok (some id) s' := by
  obtain ⟨s', hrun, -⟩ := h.lock_live (by rw [hn]; rfl : (s.node id).isSome)
  exact ⟨s', by simp only [run_bind, hrun, run_pure]⟩

theorem routeNodeLookup_spec (h : Inv s) (p : Prefix) :
    ∃ r s', (routeNodeLookup p).run s = .ok r s' ∧
      (∀ id, r = some id → ∃ n, s.node id = some n ∧ n.p.bits = p.bits ∧ n.info.isSome) ∧
      (r = none → ∀ id n, s.node id = some n → n.p.bits = p.bits → n.info = none) := by
  have hfuel : Fuel s p (p.prefixlen + 2) s.top := ⟨by omega, fun _ _ _ _ => by omega⟩
  have hpath : OnPath s.view p.bits .top := trivial
  obtain ⟨r, hr, hsome, hnone⟩ := lookupLoop_spec h.sound.trie hpath rfl hfuel
  have hloop : (loop fun s => lookupLoop s p (p.prefixlen + 2) s.top : Op α _).run s = .ok r s :=
    run_loop hr
  simp only [routeNodeLookup, run_bind, hloop]
  cases r with
  | none => exact ⟨none, s, rfl, hsome, hnone⟩
  | some id =>
    obtain ⟨n, hn, -⟩ := hsome id rfl
    obtain ⟨s', hrun⟩ := lockFound_run h hn
    exact ⟨some id, s', hrun, hsome, hnone⟩

theorem routeNodeMatch_spec (h : Inv s) (p : Prefix) :
    ∃ r s', (routeNodeMatch p).run s = .ok r s' ∧ Longest s p r := by
  have hfuel : Fuel s p (p.prefixlen + 2) s.top := ⟨by omega, fun _ _ _ _ => by omega⟩
  have hpath : OnPath s.view p.bits .top := trivial
  have hbest : Best s p .top none := ⟨nofun, nofun, fun _ _ _ => .inr trivial⟩
  obtain ⟨r, hr, hlongest⟩ := matchLoop_spec h.sound.trie hbest hpath rfl hfuel
  have hloop : (loop fun s => matchLoop s p (p.prefixlen + 2) none s.top : Op α _).run s =
      .ok r s := run_loop hr
  simp only [routeNodeMatch, run_bind, hloop]
  cases r with
  | none => exact ⟨none, s, rfl, hlongest⟩
  | some id =>
    obtain ⟨n, hn⟩ := hlongest.found id rfl
    obtain ⟨s', hrun⟩ := lockFound_run h hn.1
    exact ⟨some id, s', hrun, hlongest⟩

end

/-! ## The map beside the table -/

/-- A table and the map that its users have in mind. -/
structure Tracked (α : Type) where
  table : RouteTable α := {}
  map : List Bool → Option α := fun _ => none

/-- Only assignments to `info` change the map, at the prefix of their node. -/
def record (s : Tracked α) : TableEvent α → List Bool → Option α
  | .setInfo id v =>
    match s.table.node id with
    | some n => Function.update s.map n.p.bits v
    | none => s.map
  | _ => s.map

def trackStep (e : TableEvent α) : EStateM Fault (Tracked α) Unit := fun s =>
  match (tableStep e).run s.table with
  | .ok _ t => .ok () ⟨t, record s e⟩
  | .error f t => .error f { s with table := t }

/-- The map holds what the nodes hold. -/
structure Reflects (s : Tracked α) : Prop where
  inv : Inv s.table
  map : ∀ k v, s.map k = some v ↔ ∃ id p, s.table.held id = some (p, v) ∧ p.bits = k

variable {e : TableEvent α}

section

variable {s s' : Tracked α}

theorem held_iff {p : Prefix} {v : α} :
    t.held id = some (p, v) ↔ ∃ n, t.node id = some n ∧ n.p = p ∧ n.info = some v := by
  simp [RouteTable.held, RouteTable.tag, bind_eq_some_iff, and_comm]

theorem Reflects.info (h : Reflects s) (hn : s.table.node id = some n) :
    n.info = s.map n.p.bits := by
  refine ext fun v => ⟨fun hv => ?_, fun hv => ?_⟩
  · exact (h.map _ v).mpr ⟨id, n.p, held_iff.mpr ⟨n, hn, rfl, hv⟩, rfl⟩
  · obtain ⟨j, p, hj, hp⟩ := (h.map _ v).mp hv
    obtain ⟨m, hm, rfl, hinfo⟩ := held_iff.mp hj
    obtain rfl := h.inv.sound.trie.inj (hp ▸ key_of_node hm) (key_of_node hn)
    rw [hn] at hm
    cases hm
    exact hinfo

/-- A prefix with contents in the map has a node. -/
theorem Reflects.node (h : Reflects s) {k : List Bool} (hk : (s.map k).isSome) :
    ∃ id n, s.table.node id = some n ∧ n.p.bits = k ∧ n.info.isSome := by
  obtain ⟨v, hv⟩ := isSome_iff_exists.mp hk
  obtain ⟨id, p, hid, rfl⟩ := (h.map k v).mp hv
  obtain ⟨n, hn, rfl, hinfo⟩ := held_iff.mp hid
  exact ⟨id, n, hn, rfl, by rw [hinfo]; rfl⟩

theorem Reflects.setInfo (h : Reflects s) {v : Option α}
    (hn : s.table.node id = some n) (hv : v.isSome → 0 < n.lock) :
    Reflects ⟨s.table.adjust id ({ · with info := v }), Function.update s.map n.p.bits v⟩ := by
  refine ⟨(setInfo_spec h.inv hn hv).1, fun k w => ?_⟩
  have hnode : ∀ j m, (s.table.adjust id ({ · with info := v })).node j = some m ↔
      if j = id then { n with info := v } = m else s.table.node j = some m := by
    intro j m
    rw [adjust_node]
    split
    · rename_i heq
      rw [heq, hn]
      simp
    · rfl
  dsimp only
  by_cases hk : k = n.p.bits
  · subst hk
    rw [Function.update_self]
    constructor
    · intro hw
      exact ⟨id, n.p, held_iff.mpr ⟨_, (hnode id _).mpr ((if_pos rfl).mpr rfl), rfl, hw⟩, rfl⟩
    · rintro ⟨j, p, hj, hp⟩
      obtain ⟨m, hm, rfl, hinfo⟩ := held_iff.mp hj
      rw [hnode] at hm
      split at hm
      · subst hm
        exact hinfo
      · rename_i hne
        exact absurd (h.inv.sound.trie.inj (hp ▸ key_of_node hm) (key_of_node hn)) hne
  · rw [Function.update_of_ne hk, h.map]
    constructor
    · rintro ⟨j, p, hj, rfl⟩
      obtain ⟨m, hm, rfl, hinfo⟩ := held_iff.mp hj
      refine ⟨j, m.p, held_iff.mpr ⟨m, (hnode j m).mpr ?_, rfl, hinfo⟩, rfl⟩
      rw [if_neg, hm]
      rintro rfl
      rw [hn] at hm
      cases hm
      exact hk rfl
    · rintro ⟨j, p, hj, rfl⟩
      obtain ⟨m, hm, rfl, hinfo⟩ := held_iff.mp hj
      rw [hnode] at hm
      split at hm
      · subst hm
        exact absurd rfl hk
      · exact ⟨j, m.p, held_iff.mpr ⟨m, hm, rfl, hinfo⟩, rfl⟩

theorem run_trackStep : (trackStep e).run s = .ok () s' ↔
      ∃ t, (tableStep e).run s.table = .ok () t ∧ s' = ⟨t, record s e⟩ := by
  change (match (tableStep e).run s.table with
    | .ok _ t => EStateM.Result.ok () (⟨t, record s e⟩ : Tracked α)
    | .error f t => .error f { s with table := t }) = _ ↔ _
  cases (tableStep e).run s.table with
  | ok u t => simp [eq_comm]
  | error f t => simp

theorem Reflects.step (h : Reflects s) (hmay : mayDo s.table e = true)
    (hrun : (trackStep e).run s = .ok () s') : Reflects s' := by
  obtain ⟨t, ht, rfl⟩ := run_trackStep.mp hrun
  by_cases he : ∃ id v, e = .setInfo id v
  · obtain ⟨id, v, rfl⟩ := he
    obtain ⟨n, hn, rfl⟩ := setInfo_ok ht
    have hmap : record s (.setInfo id v) = Function.update s.map n.p.bits v := by
      simp [record, hn]
    rw [hmap]
    exact h.setInfo hn (mayDo_setInfo hmay hn)
  · push Not at he
    obtain ⟨hinv, hheld⟩ := tableStep_held he h.inv ht
    have hmap : record s e = s.map := by
      cases e with
      | setInfo id v => exact absurd rfl (he id v)
      | _ => rfl
    refine ⟨hinv, fun k v => ?_⟩
    rw [hmap, h.map, hheld]

theorem reflects_empty : Reflects ({} : Tracked α) :=
  ⟨inv_empty, fun k v => ⟨nofun, by rintro ⟨id, p, hid, -⟩; cases hid⟩⟩

/-- What the rules allow is done without a fault. -/
theorem tableStep_returns (h : Inv t)
    (hmay : mayDo t e = true) : ∃ t', (tableStep e).run t = .ok () t' := by
  have hnext : ∀ id limit, mayUnlock t id = true →
      ∃ t', (do let _ ← routeNextUntil id limit : Op α Unit).run t = .ok () t' := by
    intro id limit hmay
    obtain ⟨n, hn, -⟩ := mayUnlock_iff.mp hmay
    obtain ⟨r, hrun, hlive, -⟩ := routeNextUntil_run h.sound.trie hn limit
    obtain ⟨t', hmove⟩ := moveTo_returns h hmay hlive
    exact ⟨t', by rw [run_bind, hrun, hmove]; rfl⟩
  replace hmay : keepsRules t e = true := (Bool.and_eq_true_iff.mp hmay).1
  cases e with
  | get p =>
    obtain ⟨id, t', hrun, -⟩ := routeNodeGet_spec h p
    exact ⟨t', by rw [tableStep, run_bind, hrun]; rfl⟩
  | lookup p =>
    obtain ⟨r, t', hrun, -⟩ := routeNodeLookup_spec h p
    exact ⟨t', by rw [tableStep, run_bind, hrun]; rfl⟩
  | longest p =>
    obtain ⟨r, t', hrun, -⟩ := routeNodeMatch_spec h p
    exact ⟨t', by rw [tableStep, run_bind, hrun]; rfl⟩
  | lock id =>
    obtain ⟨n, hn⟩ := isSome_iff_exists.mp hmay
    exact ⟨_, run_modifyNode hn _⟩
  | unlock id =>
    obtain ⟨n, hn, hlock, hinfo⟩ := mayUnlock_iff.mp hmay
    obtain ⟨t', hrun, -⟩ := routeUnlockNode_spec h hn hlock hinfo
    exact ⟨t', hrun⟩
  | setInfo id v =>
    cases hn : t.node id with
    | none => simp [keepsRules, hn] at hmay
    | some n => exact ⟨_, run_modifyNode hn _⟩
  | top =>
    cases htop : t.top with
    | none => exact ⟨t, by simp [tableStep, routeTop, run_bind, htop]⟩
    | some id =>
      obtain ⟨-, k, hk⟩ := h.sound.trie.top htop
      obtain ⟨n, hn, -⟩ := node_of_key hk
      obtain ⟨t', hrun⟩ := lockFound_run h hn
      refine ⟨t', ?_⟩
      simp only [tableStep, routeTop, run_bind, run_get, htop] at hrun ⊢
      rw [hrun]
      rfl
  | next id => exact hnext id none hmay
  | nextUntil id limit => exact hnext id limit hmay

/-- Whatever the users of a table do, within the rules, the operations return, a lookup finds what
the map has for the prefix, and a match what it has for the longest prefix that contains the
address. -/
theorem routeTable_map {tr : List (TableEvent α)}
    (h : Run trackStep ({} : Tracked α) (fun s e => mayDo s.table e = true) tr s) :
    (∀ e, mayDo s.table e = true → ∃ s', (trackStep e).run s = .ok () s') ∧
    (∀ p, ∃ r t, (routeNodeLookup p).run s.table = .ok r t ∧ (r.isSome ↔ (s.map p.bits).isSome) ∧
      ∀ id, r = some id → ∃ n, s.table.node id = some n ∧ n.p.bits = p.bits ∧
        n.info = s.map p.bits) ∧ ∀ p, ∃ r t, (routeNodeMatch p).run s.table = .ok r t ∧
      (r.isSome ↔ ∃ k, k <+: p.bits ∧ (s.map k).isSome) ∧
      ∀ id, r = some id → ∃ n, s.table.node id = some n ∧ n.p.bits <+: p.bits ∧
        n.info.isSome ∧ n.info = s.map n.p.bits ∧
        ∀ k, k <+: p.bits → (s.map k).isSome → k.length ≤ n.p.prefixlen := by
  have hs : Reflects s := by
    refine h.invariant (I := Reflects) reflects_empty ?_
    intro s e s' hs hmay hrun
    exact hs.step hmay hrun
  refine ⟨fun e he => ?_, fun p => ?_, fun p => ?_⟩
  · obtain ⟨t, ht⟩ := tableStep_returns hs.inv he
    exact ⟨_, run_trackStep.mpr ⟨t, ht, rfl⟩⟩
  · obtain ⟨r, t, hrun, hsome, hnone⟩ := routeNodeLookup_spec hs.inv p
    refine ⟨r, t, hrun, ⟨fun hr => ?_, fun hk => ?_⟩, fun id hid => ?_⟩
    · obtain ⟨id, hid⟩ := isSome_iff_exists.mp hr
      obtain ⟨n, hn, hbits, hinfo⟩ := hsome id hid
      rwa [hs.info hn, hbits] at hinfo
    · obtain ⟨id, n, hn, hbits, hinfo⟩ := hs.node hk
      by_contra hr
      rw [hnone (not_isSome_iff_eq_none.mp hr) id n hn hbits] at hinfo
      cases hinfo
    · obtain ⟨n, hn, hbits, -⟩ := hsome id hid
      exact ⟨n, hn, hbits, hbits ▸ hs.info hn⟩
  · obtain ⟨r, t, hrun, hlongest⟩ := routeNodeMatch_spec hs.inv p
    refine ⟨r, t, hrun, ⟨fun hr => ?_, ?_⟩, fun id hid => ?_⟩
    · obtain ⟨id, hid⟩ := isSome_iff_exists.mp hr
      obtain ⟨n, hn, hpre, hinfo⟩ := hlongest.found id hid
      exact ⟨n.p.bits, hpre, hs.info hn ▸ hinfo⟩
    · rintro ⟨k, hpre, hk⟩
      obtain ⟨id, n, hn, rfl, hinfo⟩ := hs.node hk
      obtain ⟨j, m, rfl, -⟩ := hlongest.longest id n ⟨hn, hpre, hinfo⟩
      rfl
    · obtain ⟨n, hn, hpre, hinfo⟩ := hlongest.found id hid
      refine ⟨n, hn, hpre, hinfo, hs.info hn, fun k hk hmap => ?_⟩
      obtain ⟨j, m, hm, rfl, hinfo'⟩ := hs.node hmap
      obtain ⟨id', n', hid', hn', hle⟩ := hlongest.longest j m ⟨hm, hk, hinfo'⟩
      rw [hid] at hid'
      cases hid'
      rw [hn] at hn'
      cases hn'
      rwa [bits_length]

/-- Two nested prefixes; the longer one is given up again. -/
def nested : List (TableEvent Nat) :=
  [.get ⟨8, [10]⟩, .setInfo 0 (some 1), .get ⟨16, [10, 1]⟩, .setInfo 1 (some 2),
    .get ⟨16, [10, 2]⟩, .setInfo 1 none, .unlock 1]

theorem nested_plays : (play trackStep (fun s e => mayDo s.table e = true) nested {}).isSome := by
  decide +kernel

theorem nested_match :
    ∃ s, Run trackStep ({} : Tracked Nat) (fun s e => mayDo s.table e = true) nested s ∧
      s.map (Prefix.bits ⟨8, [10]⟩) = some 1 ∧
      ∃ r t, (routeNodeMatch ⟨32, [10, 1, 2, 3]⟩).run s.table = .ok r t ∧
        (r.isSome ↔ ∃ k, k <+: Prefix.bits ⟨32, [10, 1, 2, 3]⟩ ∧ (s.map k).isSome) := by
  obtain ⟨-, -, hmatch⟩ := routeTable_map (Run.of_play nested_plays)
  obtain ⟨r, t, hrun, hiff, -⟩ := hmatch ⟨32, [10, 1, 2, 3]⟩
  exact ⟨_, Run.of_play nested_plays, by decide +kernel, r, t, hrun, hiff⟩

end

end Mp2mp.Lib
