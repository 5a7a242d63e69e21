import Mp2mp.Lib.RouteMap

/-!
# The order of iteration

`table.c`: the order in which an iteration comes by the nodes, as a comparison of prefixes, and
the search for the node that comes after a prefix.

* `iterCmp_spec`: the order is that of the bit strings.
* `nextLoop_spec`: the search for what comes after a prefix, which may not be in the table.
* `routeTableGetNext_spec`: `route_table_get_next` returns that node, locked.
-/

namespace Mp2mp.Lib

open Kit Kit.BitTrie RouteTable EStateM

variable {α : Type} {p₁ p₂ : Prefix} {n : RouteNode α} {id : Nat} {k : List Bool}

/-! ## Comparing prefixes -/

/-- `route_table_prefix_iter_cmp`; nothing where an `assert` fails. -/
def routeTablePrefixIterCmp (p₁ p₂ : Prefix) : Option Int :=
  if p₁.prefixlen ≤ p₂.prefixlen ∧ prefixMatch p₁ p₂ = true then
    some (if p₁.prefixlen = p₂.prefixlen then 0 else -1)
  else if ¬p₁.prefixlen ≤ p₂.prefixlen ∧ prefixMatch p₂ p₁ = true then some 1
  else
    let common := routeCommon p₁ p₂
    if common.prefixlen < p₁.prefixlen ∧ common.prefixlen < p₂.prefixlen then
      if prefixBit p₁ common.prefixlen = true then
        if prefixBit p₂ common.prefixlen = true then none else some 1
      else if prefixBit p₂ common.prefixlen = true then some (-1)
      else none
    else none

/-- Prefixes are compared as their bit strings are, and no `assert` fails. -/
theorem iterCmp_spec (p₁ p₂ : Prefix) :
    (p₁.bits < p₂.bits ∧ routeTablePrefixIterCmp p₁ p₂ = some (-1)) ∨
      (p₁.bits = p₂.bits ∧ routeTablePrefixIterCmp p₁ p₂ = some 0) ∨
      (p₂.bits < p₁.bits ∧ routeTablePrefixIterCmp p₁ p₂ = some 1) := by
  unfold routeTablePrefixIterCmp
  by_cases h₁₂ : p₁.prefixlen ≤ p₂.prefixlen ∧ prefixMatch p₁ p₂ = true
  · rw [if_pos h₁₂]
    have hpre := prefixMatch_iff.mp h₁₂.2
    by_cases hlen : p₁.prefixlen = p₂.prefixlen
    · rw [if_pos hlen]
      exact .inr (.inl ⟨hpre.eq_of_length (by simpa using hlen), rfl⟩)
    · rw [if_neg hlen]
      refine .inl ⟨?_, rfl⟩
      exact lt_of_bit (bits_bit_iff.mpr ⟨hpre, Nat.lt_of_le_of_ne h₁₂.1 hlen, rfl⟩)
  · rw [if_neg h₁₂]
    have hnot₁₂ : ¬p₁.bits <+: p₂.bits := fun hpre =>
      h₁₂ ⟨(bits_prefix_iff.mp hpre).1, prefixMatch_iff.mpr hpre⟩
    by_cases h₂₁ : ¬p₁.prefixlen ≤ p₂.prefixlen ∧ prefixMatch p₂ p₁ = true
    · rw [if_pos h₂₁]
      refine .inr (.inr ⟨?_, rfl⟩)
      exact lt_of_bit (bits_bit_iff.mpr ⟨prefixMatch_iff.mp h₂₁.2, Nat.lt_of_not_le h₂₁.1, rfl⟩)
    · rw [if_neg h₂₁]
      dsimp only
      obtain ⟨⟨b, hb⟩, heq | ⟨c, hc, hnc⟩⟩ := routeCommon_fork hnot₁₂
      · rw [heq] at hb
        have hlt := (bits_bit_iff.mp hb).2.1
        exact absurd ⟨Nat.not_le_of_lt hlt, prefixMatch_iff.mpr (prefix_of_bit hb)⟩ h₂₁
      · obtain ⟨-, hlt₂, hbit₂⟩ := bits_bit_iff.mp hc
        obtain ⟨-, hlt₁, hbit₁⟩ := bits_bit_iff.mp hnc
        rw [if_pos ⟨hlt₁, hlt₂⟩, hbit₁, hbit₂]
        cases c with
        | true => exact .inl ⟨lt_of_fork hnc hc, rfl⟩
        | false => exact .inr (.inr ⟨lt_of_fork hc hnc, rfl⟩)

theorem iterCmp_lt : routeTablePrefixIterCmp p₁ p₂ = some (-1) ↔ p₁.bits < p₂.bits := by
  rcases iterCmp_spec p₁ p₂ with ⟨h, hcmp⟩ | ⟨h, hcmp⟩ | ⟨h, hcmp⟩
  · simp [h, hcmp]
  · simp [h, hcmp]
  · simp [hcmp, lt_asymm h]

theorem iterCmp_eq : routeTablePrefixIterCmp p₁ p₂ = some 0 ↔ p₁.bits = p₂.bits := by
  rcases iterCmp_spec p₁ p₂ with ⟨h, hcmp⟩ | ⟨h, hcmp⟩ | ⟨h, hcmp⟩
  · simp [hcmp, h.ne]
  · simp [h, hcmp]
  · simp [hcmp, h.ne']

theorem iterCmp_gt : routeTablePrefixIterCmp p₁ p₂ = some 1 ↔ p₂.bits < p₁.bits := by
  rcases iterCmp_spec p₁ p₂ with ⟨h, hcmp⟩ | ⟨h, hcmp⟩ | ⟨h, hcmp⟩
  · simp [hcmp, lt_asymm h]
  · simp [h, hcmp]
  · simp [h, hcmp]

/-! ## What comes after a prefix -/

/-- How the search for what comes after a prefix ends. -/
inductive Search
  | present (id : Nat)
  | ended (node : Option Nat)
deriving DecidableEq, Repr

/-- The loop of `route_table_get_next_internal`. -/
def nextLoop (s : RouteTable α) (p : Prefix) : Nat → Option Nat → Option Search
  | 0, _ => none
  | _ + 1, none => some (.ended none)
  | fuel + 1, some id => do
    let node ← s.node id
    let isMatch :=
      if node.p.prefixlen < p.prefixlen then prefixMatch node.p p else prefixMatch p node.p
    if isMatch = true then
      if node.p.prefixlen = p.prefixlen then some (.present id)
      else if node.p.prefixlen > p.prefixlen then some (.ended (some id))
      else
        match node.link (prefixBit p node.p.prefixlen) with
        | some child => nextLoop s p fuel (some child)
        | none =>
          if node.right.isSome then some (.ended node.right)
          else (upLoop s none (node.p.prefixlen + 1) id).map .ended
    else do
      let cmp ← routeTablePrefixIterCmp node.p p
      if cmp > 0 then some (.ended (some id))
      else if cmp < 0 then (upLoop s none (node.p.prefixlen + 1) id).map .ended
      else none

def routeTableGetNextInternal (p : Prefix) : Op α (Option Nat) := do
  match ← loop fun s => nextLoop s p (p.prefixlen + 2) s.top with
  | .present id => do
    routeLockNode id
    let next ← routeNext id
    match next with
    | some m => do routeUnlockNode m; pure (some m)
    | none => pure none
  | .ended node => pure node

def routeTableGetNext (p : Prefix) : Op α (Option Nat) := do
  match ← routeTableGetNextInternal p with
  | some id => do
    let node ← deref id
    match routeTablePrefixIterCmp node.p p with
    | some cmp =>
      if cmp > 0 then do routeLockNode id; pure (some id)
      else throw .assertion
    | none => throw .assertion
  | none => pure none

/-- The node that comes next after a key, or none if there is no more. -/
structure NextIn (t : Trie Nat) (k : List Bool) (r : Option Nat) : Prop where
  least : ∀ m, r = some m → Least t k m
  last : r = none → Last t k

section

variable {s : RouteTable α} {p : Prefix}

theorem NextIn.some_of_least {t : Trie Nat} {m : Nat} (h : Least t k m) : NextIn t k (some m) := by
  refine ⟨fun m' hm => ?_, nofun⟩
  cases hm
  exact h

/-- The climb from a node where nothing more can be below. -/
theorem upLoop_next (h : Ok s.view) (hn : s.node id = some n) (hclimb : Climb s.view k id) :
    ∃ r, (upLoop s none (n.p.prefixlen + 1) id).map Search.ended = some (.ended r) ∧
      NextIn s.view k r := by
  obtain ⟨r, hr, -, hnext⟩ := upLoop_spec h none (k := k) hn (Nat.lt_succ_self n.p.prefixlen)
  obtain ⟨hleast, hlast⟩ := hnext rfl hclimb
  exact ⟨r, by rw [hr]; rfl, hleast, hlast⟩

/-- The search ends at the node for `p`, or with what comes after it. -/
theorem nextLoop_spec (h : Ok s.view) {fuel d : Nat} {place : Place Nat}
    (hpath : OnPath s.view p.bits place) (hat : s.view.at place = some d)
    (hfuel : Fuel s p fuel (some d)) :
    (∃ id, nextLoop s p fuel (some d) = some (.present id) ∧ s.view.key id = some p.bits) ∨
      ∃ r, nextLoop s p fuel (some d) = some (.ended r) ∧ NextIn s.view p.bits r := by
  induction fuel generalizing d place with
  | zero => exact absurd hfuel.1 (lt_irrefl 0)
  | succ fuel ih =>
    obtain ⟨n, hn⟩ := node_at h hpath hat
    simp only [nextLoop, hn, Option.bind_eq_bind, Option.bind_some]
    generalize hmatch : (if n.p.prefixlen < p.prefixlen then prefixMatch n.p p
      else prefixMatch p n.p) = isMatch
    cases isMatch with
    | true =>
      rw [if_pos rfl]
      rcases Nat.lt_trichotomy n.p.prefixlen p.prefixlen with hlt | heq | hgt
      · -- `p` is below the node
        rw [if_pos hlt, prefixMatch_iff] at hmatch
        rw [if_neg hlt.ne, if_neg (by omega)]
        rcases walk_step h hn hmatch hfuel with ⟨hlen, -⟩ | ⟨-, hpath', hat', hfuel'⟩
        · exact absurd hlen hlt.ne
        · have hbit := bits_bit_iff.mpr ⟨hmatch, hlt, rfl⟩
          cases hlink : n.link (prefixBit p n.p.prefixlen) with
          | some c =>
            rw [hlink] at hat' hfuel'
            exact ih hpath' hat' hfuel'
          | none =>
            right
            have hno := (link_of_node hn _).trans hlink
            dsimp only
            by_cases hr : n.right.isSome
            · rw [if_pos hr]
              refine ⟨n.right, rfl, fun m hm => ?_, fun hnone => ?_⟩
              · have hr' := (link_of_node hn true).trans hm
                cases hb : prefixBit p n.p.prefixlen with
                | true =>
                  rw [hb, hr'] at hno
                  cases hno
                | false =>
                  rw [hb] at hbit hno
                  exact h.least_gap (key_of_node hn) hbit hno hr'
              · rw [hnone] at hr
                cases hr
            · rw [if_neg hr]
              have hright := (link_of_node hn true).trans (Option.not_isSome_iff_eq_none.mp hr)
              exact upLoop_next h hn (Climb.of_gap h (key_of_node hn) hbit hno hright)
      · rw [if_neg (by omega), prefixMatch_iff] at hmatch
        rw [if_pos heq]
        refine .inl ⟨d, rfl, ?_⟩
        rw [key_of_node hn, hmatch.eq_of_length (by simpa using heq.symm)]
      · -- the node is below `p`
        rw [if_neg (by omega), prefixMatch_iff] at hmatch
        rw [if_neg hgt.ne', if_pos hgt]
        refine .inr ⟨some d, rfl, NextIn.some_of_least ?_⟩
        exact h.least_at hpath hat (key_of_node hn)
          (lt_of_bit (bits_bit_iff.mpr ⟨hmatch, hgt, rfl⟩))
    | false =>
      rw [if_neg Bool.false_ne_true]
      right
      have hout : ¬n.p.bits <+: p.bits := by
        intro hpre
        have hle := (bits_prefix_iff.mp hpre).1
        split at hmatch
        · rw [prefixMatch_iff.mpr hpre] at hmatch
          cases hmatch
        · have hlen : n.p.bits.length = p.bits.length := by
            simp only [bits_length]
            omega
          have hself : p.bits <+: n.p.bits := by rw [hpre.eq_of_length hlen]
          rw [prefixMatch_iff.mpr hself] at hmatch
          cases hmatch
      rcases iterCmp_spec n.p p with ⟨hlt, hcmp⟩ | ⟨heq, -⟩ | ⟨hgt, hcmp⟩
      · rw [hcmp]
        exact upLoop_next h hn (Climb.of_before h hpath hat (key_of_node hn) hlt hout)
      · rw [heq] at hout
        exact absurd (List.prefix_refl _) hout
      · rw [hcmp]
        exact ⟨some d, rfl, NextIn.some_of_least (h.least_at hpath hat (key_of_node hn) hgt)⟩

/-- A lock that is dropped without the node being deleted. -/
theorem unlock_kept (hn : s.node id = some n) (hlock : 0 < n.lock)
    (hkeep : n.lock = 1 → n.left.isSome ∧ n.right.isSome ∧ n.info = none) :
    (routeUnlockNode id).run s = .ok () (s.adjust id fun n => { n with lock := n.lock - 1 }) := by
  have hn' : (s.adjust id fun n => { n with lock := n.lock - 1 }).node id =
      some { n with lock := n.lock - 1 } := by
    rw [adjust_node, if_pos rfl, hn]
    rfl
  simp only [routeUnlockNode, run_bind, run_deref hn]
  rw [if_neg (by omega)]
  simp only [run_bind, run_modifyNode hn]
  by_cases hone : n.lock = 1
  · obtain ⟨hleft, hright, hinfo⟩ := hkeep hone
    rw [if_pos hone]
    simp only [routeNodeDelete, run_bind, run_deref hn']
    rw [if_neg (by simp [hone, hinfo]), if_pos ⟨hleft, hright⟩]
    rfl
  · rw [if_neg hone]
    rfl

theorem adjust_adjust (s : RouteTable α) (id : Nat) (f g : RouteNode α → RouteNode α) :
    (s.adjust id f).adjust id g = s.adjust id fun n => g (f n) := by
  simp [adjust, Function.comp_def]

theorem adjust_self {f : RouteNode α → RouteNode α} (s : RouteTable α) (x : Nat)
    (h : ∀ n, f n = n) : s.adjust x f = s := by
  have hf : f = id := funext h
  simp [adjust, hf]

theorem adjust_comm (s : RouteTable α) {j : Nat} (hne : id ≠ j) (f g : RouteNode α → RouteNode α) :
    (s.adjust id f).adjust j g = (s.adjust j g).adjust id f := by
  simp only [adjust, Function.update_of_ne hne.symm, Function.update_of_ne hne,
    Function.update_comm hne]

theorem relock (s : RouteTable α) (id : Nat) :
    ((s.adjust id fun n => { n with lock := n.lock + 1 }).adjust id
      fun n => { n with lock := n.lock - 1 }) = s := by
  rw [adjust_adjust]
  exact adjust_self s id fun _ => rfl

theorem routeTableGetNextInternal_spec (h : Inv s) (p : Prefix) :
    ∃ r, (routeTableGetNextInternal p).run s = .ok r s ∧ NextIn s.view p.bits r := by
  have hok := h.sound.trie
  have hspec : (∃ id, nextLoop s p (p.prefixlen + 2) s.top = some (.present id) ∧
      s.view.key id = some p.bits) ∨
      ∃ r, nextLoop s p (p.prefixlen + 2) s.top = some (.ended r) ∧ NextIn s.view p.bits r := by
    cases htop : s.top with
    | none =>
      refine .inr ⟨none, rfl, nofun, fun _ m km hm _ => ?_⟩
      obtain ⟨d, kd, hd, -⟩ := hok.least hm
      cases htop.symm.trans hd
    | some d =>
      have hfuel : Fuel s p (p.prefixlen + 2) (some d) := ⟨by omega, fun _ _ _ _ => by omega⟩
      have hpath : OnPath s.view p.bits .top := trivial
      exact nextLoop_spec hok hpath htop hfuel
  rcases hspec with ⟨id, hloop, hkey⟩ | ⟨r, hloop, hnext⟩
  · have hrun : (loop fun s => nextLoop s p (p.prefixlen + 2) s.top : Op α _).run s =
        .ok (.present id) s := run_loop hloop
    obtain ⟨n, hn, hbits⟩ := node_of_key hkey
    have hkeep : ∀ j m, s.node j = some m → m.lock + 1 = 1 →
        m.left.isSome ∧ m.right.isSome ∧ m.info = none := by
      intro j m hm hone
      exact h.wellStructured.unlocked j m hm (by omega)
    have hview := view_lock s id (· + 1)
    have hn₁ : (s.adjust id fun n => { n with lock := n.lock + 1 }).node id =
        some { n with lock := n.lock + 1 } := by
      rw [adjust_node, if_pos rfl, hn]
      rfl
    obtain ⟨r, hmove, -, hnext⟩ := routeNextUntil_run (hview ▸ hok) hn₁ none
    obtain ⟨hleast, hlast⟩ := hnext rfl
    rw [hview] at hleast hlast
    dsimp only at hleast hlast
    rw [hbits] at hleast hlast
    refine ⟨r, ?_, hleast, hlast⟩
    simp only [routeTableGetNextInternal, run_bind, hrun, routeLockNode, run_modifyNode hn,
      routeNext, hmove]
    cases r with
    | none =>
      have hunlock := unlock_kept hn₁ (Nat.succ_pos _) (hkeep id n hn)
      rw [relock] at hunlock
      simp only [moveTo, run_bind, hunlock, run_pure]
    | some m =>
      obtain ⟨km, hkm, hlt, -⟩ := hleast m rfl
      obtain ⟨nm, hnm, rfl⟩ := node_of_key hkm
      have hne : m ≠ id := by
        rintro rfl
        rw [hnm] at hn
        cases hn
        exact hlt.ne hbits.symm
      have hnm₁ : (s.adjust id fun n => { n with lock := n.lock + 1 }).node m = some nm := by
        rw [adjust_node, if_neg hne, hnm]
      have hn₂ : ((s.adjust id fun n => { n with lock := n.lock + 1 }).adjust m
          fun n => { n with lock := n.lock + 1 }).node id = some { n with lock := n.lock + 1 } := by
        rw [adjust_node, if_neg hne.symm, hn₁]
      have hunlock := unlock_kept hn₂ (Nat.succ_pos _) (hkeep id n hn)
      rw [adjust_comm _ hne.symm, relock] at hunlock
      have hnm₂ : (s.adjust m fun n => { n with lock := n.lock + 1 }).node m =
          some { nm with lock := nm.lock + 1 } := by
        rw [adjust_node, if_pos rfl, hnm]
        rfl
      have hunlock' := unlock_kept hnm₂ (Nat.succ_pos _) (hkeep m nm hnm)
      rw [relock] at hunlock'
      simp only [moveTo, routeLockNode, run_bind, run_modifyNode hnm₁, run_pure]
      rw [adjust_comm _ hne.symm, hunlock]
      simp only [run_bind, hunlock', run_pure]
  · have hrun : (loop fun s => nextLoop s p (p.prefixlen + 2) s.top : Op α _).run s =
        .ok (.ended r) s := run_loop hloop
    exact ⟨r, by simp only [routeTableGetNextInternal, run_bind, hrun, run_pure], hnext⟩

theorem routeTableGetNext_spec (h : Inv s) (p : Prefix) :
    ∃ r s', (routeTableGetNext p).run s = .ok r s' ∧ NextIn s.view p.bits r ∧ Inv s' ∧
      ∀ m n, r = some m → s.node m = some n → ∃ l v, s'.tag m = some (n.p, l, v) ∧ 0 < l := by
  obtain ⟨r, hrun, hnext⟩ := routeTableGetNextInternal_spec h p
  simp only [routeTableGetNext, run_bind, hrun]
  cases r with
  | none => exact ⟨none, s, rfl, hnext, h, nofun⟩
  | some m =>
    obtain ⟨km, hkm, hlt, -⟩ := hnext.least m rfl
    obtain ⟨n, hn, rfl⟩ := node_of_key hkm
    obtain ⟨s', hlock, hinv, -, htag⟩ := h.lock_live (by rw [hn]; rfl : (s.node m).isSome)
    refine ⟨some m, s', ?_, hnext, hinv, fun m' n' hm hn' => ?_⟩
    · simp [run_bind, run_deref hn, iterCmp_gt.mpr hlt, hlock]
    · cases hm
      rw [hn] at hn'
      cases hn'
      rw [htag, if_pos rfl, tag_of_node hn]
      exact ⟨_, _, rfl, Nat.succ_pos _⟩

end

end Mp2mp.Lib
