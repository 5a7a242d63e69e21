import Mp2mp.Bgpd.Damping

/-!
# Prefix counts are exact

`pcount` of a peer is changed by `bgp_pcount_adjust` only, together with the `COUNTED` flag of
a path.  `Counted t but` says that the count is the number of counted paths and that a path is
counted if and only if it can be used, but for the path at `but`, whose flags have been
changed without an adjustment.

* `Counted.infoFlag`: `bgp_info_set_flag` and `bgp_info_unset_flag` leave no path behind.
* `counted_kept`: the flag that `bgp_info_restore` sets past the adjustment is accounted for
  before the update is over.
* `pcount_exact`: the count in every reachable state.
-/

namespace Mp2mp.Bgpd

open Kit List Option Table Bgpd.Path Rib Flags

variable {p ri : Path} {t : Table} {cfg : DampConfig} {uid : Nat} {f : Path → Path}
  {attrChange : Bool} {but : Option Nat}

/-- A path that has been counted for a peer and an address family. -/
def Path.countedFor (peer family : Nat) (p : Path) : Bool :=
  p.peer == peer && p.family == family && p.flags.counted

theorem Path.countedFor_of_ne {peer family : Nat}
    (differ : ¬(peer = p.peer ∧ family = p.family)) : p.countedFor peer family = false := by
  rw [← Bool.not_eq_true]
  intro counted
  simp only [countedFor, Bool.and_eq_true, beq_iff_eq] at counted
  exact differ ⟨counted.1.1.symm, counted.1.2.symm⟩

structure Counted (t : Table) (but : Option Nat) : Prop where
  nodup : (t.paths.map Path.uid).Nodup
  pcount : ∀ peer family, t.isSelf peer = false →
    t.pcount peer family = t.paths.countP (Path.countedFor peer family)
  tight : ∀ p ∈ t.paths, but ≠ some p.uid → t.isSelf p.peer = false →
    p.flags.counted = !p.flags.holddown
  /-- What is not in the table any more has been removed. -/
  gone : ∀ p ∈ t.paths, p.linked = false → p.flags.removed = true

/-! ## Paths of a table -/

theorem countP_modify {paths : List Path} (nodup : (paths.map Path.uid).Nodup)
    (mem : ri ∈ paths) (f : Path → Path) (q : Path → Bool) :
    (paths.map fun p => if p.uid = ri.uid then f p else p).countP q + (q ri).toNat =
      paths.countP q + (q (f ri)).toNat := by
  induction paths with
  | nil => exact absurd mem (by simp)
  | cons p paths ih =>
    rw [map_cons, nodup_cons] at nodup
    rw [map_cons, countP_cons, countP_cons]
    rcases mem_cons.mp mem with rfl | mem
    · have rest : paths.map (fun p => if p.uid = ri.uid then f p else p) = paths := by
        rw [map_congr_left, List.map_id]
        intro p hp
        have differ : p.uid ≠ ri.uid := fun same => nodup.1 (same ▸ List.mem_map_of_mem hp)
        rw [if_neg differ, id]
      rw [rest, if_pos rfl]
      cases q ri <;> cases q (f ri) <;> simp
    · have differ : p.uid ≠ ri.uid := fun same => nodup.1 (same ▸ List.mem_map_of_mem mem)
      have rest := ih nodup.2 mem
      rw [if_neg differ]
      omega

namespace Table

variable {status : DampStatus}

theorem mem_modify (mem : p ∈ (t.modify uid f).paths) :
    ∃ q ∈ t.paths, p = if q.uid = uid then f q else q := by
  obtain ⟨q, hq, rfl⟩ := List.mem_map.mp mem
  exact ⟨q, hq, rfl⟩

/-- The addresses of the paths and which of them are in the table. -/
def keys (t : Table) : List (Nat × Bool) := t.paths.map fun p => (p.uid, p.linked)

theorem modify_keys (t : Table) (uid : Nat) (keeps : ∀ p, (f p).uid = p.uid ∧ (f p).linked = p.linked) :
    (t.modify uid f).keys = t.keys := by
  rw [keys, keys, modify, List.map_map]
  apply map_congr_left
  intro p _
  rw [Function.comp_apply]
  split
  · rw [(keeps p).1, (keeps p).2]
  · rfl

theorem setFlags_keys (t : Table) (uid : Nat) (f : Flags → Flags) :
    (t.setFlags uid f).keys = t.keys :=
  t.modify_keys uid fun _ => ⟨rfl, rfl⟩

theorem uids_of_keys {t' : Table} (same : t'.keys = t.keys) :
    t'.paths.map Path.uid = t.paths.map Path.uid := by
  have := congrArg (List.map Prod.fst) same
  rwa [keys, keys, List.map_map, List.map_map] at this

theorem linked_of_keys {t' : Table} (same : t'.keys = t.keys) (mem : p ∈ t'.paths) :
    ∃ q ∈ t.paths, q.uid = p.uid ∧ q.linked = p.linked := by
  have here : (p.uid, p.linked) ∈ t.keys := same ▸ List.mem_map_of_mem mem
  obtain ⟨q, hq, eq⟩ := List.mem_map.mp here
  exact ⟨q, hq, congrArg Prod.fst eq, congrArg Prod.snd eq⟩

end Table

theorem bgpPcountAdjust_keys (t : Table) (uid : Nat) : (bgpPcountAdjust t uid).keys = t.keys := by
  unfold bgpPcountAdjust
  split
  · rfl
  · split
    · rfl
    · split
      · exact t.setFlags_keys uid (.setCounted false)
      · split
        · exact t.setFlags_keys uid (.setCounted true)
        · rfl

theorem bgpInfoSetFlag_keys {t : Table} {uid : Nat} (f : Flags → Flags) :
    (bgpInfoSetFlag t uid f).keys = t.keys :=
  (bgpPcountAdjust_keys _ uid).trans (t.setFlags_keys uid f)

theorem bgpInfoDelete_keys (t : Table) (uid : Nat) : (bgpInfoDelete t uid).keys = t.keys :=
  (setFlags_keys _ uid _).trans (bgpInfoSetFlag_keys _)

/-- An adjustment changes no flag but one. -/
theorem mem_bgpPcountAdjust (mem : p ∈ (bgpPcountAdjust t uid).paths) :
    ∃ q ∈ t.paths, ∃ counted, p = { q with flags := q.flags.setCounted counted } := by
  have same : p ∈ t.paths → ∃ q ∈ t.paths, ∃ counted,
      p = { q with flags := q.flags.setCounted counted } :=
    fun mem => ⟨p, mem, p.flags.counted, rfl⟩
  have changed : ∀ counted, p ∈ (t.setFlags uid (.setCounted counted)).paths →
      ∃ q ∈ t.paths, ∃ counted, p = { q with flags := q.flags.setCounted counted } := by
    intro counted mem
    obtain ⟨q, hq, rfl⟩ := mem_modify mem
    split
    · exact ⟨q, hq, counted, rfl⟩
    · exact ⟨q, hq, q.flags.counted, rfl⟩
  unfold bgpPcountAdjust at mem
  split at mem
  · exact same mem
  · split at mem
    · exact same mem
    · split at mem
      · exact changed false mem
      · split at mem
        · exact changed true mem
        · exact same mem

/-! ## Flags -/

namespace Counted

theorem weaken (h : Counted t none) (uid : Nat) : Counted t (some uid) :=
  ⟨h.nodup, h.pcount, fun p hp _ => h.tight p hp (by simp), h.gone⟩

section

variable (h : Counted t but)

include h

theorem unique {q : Path} (hp : p ∈ t.paths) (hq : q ∈ t.paths) (same : p.uid = q.uid) : p = q :=
  inj_on_of_nodup_map h.nodup hp hq same

theorem find (mem : p ∈ t.paths) : t.find p.uid = some p := by
  cases found : t.find p.uid with
  | none => exact absurd rfl (find_none found mem)
  | some q => rw [h.unique (find_mem found) mem (find_uid found)]

theorem modify (keeps : ∀ p, (f p).uid = p.uid ∧ (f p).linked = p.linked ∧ (f p).peer = p.peer ∧
      (f p).family = p.family ∧ (f p).flags.counted = p.flags.counted)
    (tight : ∀ p ∈ t.paths, p.uid = uid → but ≠ some uid → (f p).flags.holddown = p.flags.holddown)
    (gone : ∀ p ∈ t.paths, p.uid = uid → p.linked = false → (f p).flags.removed = true) :
    Counted (t.modify uid f) but := by
  refine ⟨?_, fun peer family other => ?_, fun p hp => ?_, fun p hp => ?_⟩
  · rw [uids_of_keys (t.modify_keys uid fun p => ⟨(keeps p).1, (keeps p).2.1⟩)]
    exact h.nodup
  · refine (h.pcount peer family other).trans ?_
    rw [Table.modify, countP_map]
    apply countP_congr
    intro p _
    rw [Function.comp_apply]
    split
    · obtain ⟨-, -, hpeer, hfamily, hcounted⟩ := keeps p
      rw [countedFor, countedFor, hpeer, hfamily, hcounted]
    · exact Iff.rfl
  · obtain ⟨q, hq, rfl⟩ := mem_modify hp
    split
    · next here =>
      obtain ⟨huid, -, hpeer, -, hcounted⟩ := keeps q
      rw [huid, hpeer, hcounted]
      intro apart other
      rw [tight q hq here (here ▸ apart)]
      exact h.tight q hq apart other
    · exact h.tight q hq
  · obtain ⟨q, hq, rfl⟩ := mem_modify hp
    split
    · next here =>
      rw [(keeps q).2.1]
      exact gone q hq here
    · exact h.gone q hq

theorem modify_of_flags
    (keeps : ∀ p, (f p).uid = p.uid ∧ (f p).linked = p.linked ∧ (f p).peer = p.peer ∧
      (f p).family = p.family ∧ (f p).flags = p.flags) :
    Counted (t.modify uid f) but := by
  apply h.modify
  · intro p
    obtain ⟨huid, hlinked, hpeer, hfamily, hflags⟩ := keeps p
    exact ⟨huid, hlinked, hpeer, hfamily, by rw [hflags]⟩
  · intro p _ _ _
    rw [(keeps p).2.2.2.2]
  · intro p hp _ unlinked
    rw [(keeps p).2.2.2.2]
    exact h.gone p hp unlinked

theorem setDampInfo (a : Option Nat) : Counted (t.setDampInfo uid a) but :=
  h.modify_of_flags fun _ => ⟨rfl, rfl, rfl, rfl, rfl⟩

theorem setFlags {f : Flags → Flags} (keeps : ∀ flags, (f flags).counted = flags.counted ∧
      (f flags).holddown = flags.holddown ∧ (f flags).removed = flags.removed) :
    Counted (t.setFlags uid f) but := by
  apply h.modify
  · exact fun p => ⟨rfl, rfl, rfl, rfl, (keeps p.flags).1⟩
  · exact fun p _ _ _ => (keeps p.flags).2.1
  · exact fun p hp _ unlinked => (keeps p.flags).2.2.trans (h.gone p hp unlinked)

end

section

variable (h : Counted t (some uid))

include h

/-- The path at `uid` is counted or no longer counted, as it should be. -/
theorem recount (mem : ri ∈ t.paths) (here : ri.uid = uid)
    {counted : Bool} (should : counted = !ri.flags.holddown) {pcount : Nat → Nat → Nat}
    (step : ∀ peer family, t.isSelf peer = false →
      pcount peer family + (ri.countedFor peer family).toNat =
        t.pcount peer family +
          (countedFor peer family { ri with flags := ri.flags.setCounted counted }).toNat) :
    Counted { t.setFlags uid (.setCounted counted) with pcount } none := by
  subst here
  refine ⟨?_, fun peer family other => ?_, fun p hp _ => ?_, fun p hp => ?_⟩
  · rw [uids_of_keys (t.setFlags_keys ri.uid _)]
    exact h.nodup
  · have total : (t.setFlags ri.uid (.setCounted counted)).paths.countP
        (countedFor peer family) + _ = _ :=
      countP_modify h.nodup mem _ (countedFor peer family)
    have one := step peer family other
    have before := h.pcount peer family other
    show pcount peer family = (t.setFlags ri.uid (.setCounted counted)).paths.countP _
    omega
  · obtain ⟨q, hq, rfl⟩ := mem_modify hp
    split
    · next same =>
      rw [h.unique hq mem same]
      intro _
      exact should
    · next differ => exact h.tight q hq (by simpa using Ne.symm differ)
  · obtain ⟨q, hq, rfl⟩ := mem_modify hp
    split <;> exact h.gone q hq

theorem adjust : Counted (bgpPcountAdjust t uid) none := by
  unfold bgpPcountAdjust
  split
  · next missing =>
    refine ⟨h.nodup, h.pcount, fun p hp _ => h.tight p hp ?_, h.gone⟩
    simpa using Ne.symm (find_none missing hp)
  · next ri found =>
    have mem := find_mem found
    have here := find_uid found
    -- nothing is to be done when the path is counted as it should be
    have settled : (t.isSelf ri.peer = false → ri.flags.counted = !ri.flags.holddown) →
        Counted t none := by
      intro right
      refine ⟨h.nodup, h.pcount, fun p hp _ => ?_, h.gone⟩
      by_cases same : p.uid = uid
      · rw [h.unique hp mem (same.trans here.symm)]
        exact right
      · exact h.tight p hp (by simpa using Ne.symm same)
    split
    · next self => exact settled fun other => absurd other (by simp [self])
    · next other =>
      split
      · next down =>
        obtain ⟨holddown, counted⟩ := Bool.and_eq_true_iff.mp down
        refine h.recount mem here (by simp [holddown]) fun peer family hpeer => ?_
        rw [adjustPcount]
        split
        · next same =>
          obtain ⟨rfl, rfl⟩ := same
          have this : ri.countedFor ri.peer ri.family = true := by
            simp [countedFor, counted]
          have positive := countP_pos_iff.mpr ⟨ri, mem, this⟩
          rw [← h.pcount _ _ hpeer] at positive
          have after : countedFor ri.peer ri.family
              { ri with flags := ri.flags.setCounted false } = false := by
            simp [countedFor, setCounted]
          rw [this, after, Bool.toNat_true, Bool.toNat_false]
          omega
        · next differ =>
          rw [countedFor_of_ne differ, countedFor_of_ne]
          exact differ
      · split
        · next up =>
          obtain ⟨holddown, counted⟩ : ri.flags.holddown = false ∧
            ri.flags.counted = false := by simpa using up
          refine h.recount mem here (by simp [holddown]) fun peer family hpeer => ?_
          rw [adjustPcount]
          split
          · next same =>
            obtain ⟨rfl, rfl⟩ := same
            simp [countedFor, setCounted, counted]
          · next differ =>
            rw [countedFor_of_ne differ, countedFor_of_ne]
            exact differ
        · next down up =>
          apply settled
          intro _
          cases holddown : ri.flags.holddown <;> cases counted : ri.flags.counted <;>
            simp_all

/-- A flag is changed with the adjustment that goes with it. -/
theorem infoFlag {f : Flags → Flags} (counted : ∀ flags, (f flags).counted = flags.counted)
    (gone : ∀ p ∈ t.paths, p.uid = uid → p.linked = false → (f p.flags).removed = true) :
    Counted (bgpInfoSetFlag t uid f) none := by
  apply adjust
  apply h.modify
  · exact fun p => ⟨rfl, rfl, rfl, rfl, counted p.flags⟩
  · exact fun p _ _ apart => absurd rfl apart
  · exact gone

theorem infoFlag_of_removed {f : Flags → Flags}
    (keeps : ∀ flags, ((f flags).counted, (f flags).removed) = (flags.counted, flags.removed)) :
    Counted (bgpInfoSetFlag t uid f) none :=
  h.infoFlag (fun flags => (Prod.mk.inj (keeps flags)).1) fun p hp _ unlinked =>
    (Prod.mk.inj (keeps p.flags)).2.trans (h.gone p hp unlinked)

end

/-- The flag that `bgp_info_delete` clears past the adjustment makes no difference. -/
theorem delete (h : Counted t none) (uid : Nat) : Counted (bgpInfoDelete t uid) none := by
  have removed : Counted (bgpInfoSetFlag t uid fun flags => { flags with removed := true }) none :=
    (h.weaken uid).infoFlag (fun _ => rfl) fun _ _ _ _ => rfl
  apply removed.modify
  · exact fun p => ⟨rfl, rfl, rfl, rfl, rfl⟩
  · intro p hp here _
    -- the path is unusable as it is removed
    obtain ⟨q, hq, counted, rfl⟩ := mem_bgpPcountAdjust hp
    obtain ⟨r, -, rfl⟩ := mem_modify hq
    split at here <;> simp_all [holddown, unuseable, setCounted]
  · intro p hp _ unlinked
    exact removed.gone p hp unlinked

/-- A path of the table that comes back is not accounted for. -/
theorem restore (h : Counted t none) (mem : ri ∈ t.paths) (linked : ri.linked = true) :
    Counted (bgpInfoRestore t ri.uid) (some ri.uid) := by
  have unset : Counted (bgpInfoSetFlag t ri.uid fun flags => { flags with removed := false })
      none := by
    refine (h.weaken ri.uid).infoFlag (fun _ => rfl) fun p hp same unlinked => ?_
    rw [h.unique hp mem same, linked] at unlinked
    exact absurd unlinked (by simp)
  apply (unset.weaken ri.uid).modify
  · exact fun p => ⟨rfl, rfl, rfl, rfl, rfl⟩
  · exact fun p _ _ apart => absurd rfl apart
  · intro p hp _ unlinked
    exact unset.gone p hp unlinked

end Counted

/-! ## Dampening -/

theorem Rib.onDamp_table {s s' : Rib} {f : Damp → Option Damp} (run : s.onDamp f = some s') :
    s'.table = s.table := by
  obtain ⟨d, -, rfl⟩ := map_eq_some_iff.mp run
  rfl

section

variable {s s' : Rib} {a : Nat} {tNow : Int}

theorem bgpDampInfoFree_counted (h : Counted s.table none) {withdraw : Bool}
    (run : bgpDampInfoFree s a withdraw = some s') :
    Counted s'.table none ∧ s'.table.keys = s.table.keys := by
  simp only [bgpDampInfoFree, bind_eq_bind, bind_eq_some_iff] at run
  obtain ⟨bdi, -, binfo, -, s₁, unlinked, last⟩ := run
  have same := onDamp_table unlinked
  have detached : Counted s₁.table none := by
    rw [same]
    exact h.setDampInfo none
  have keys : s₁.table.keys = s.table.keys := by
    rw [same]
    exact s.table.modify_keys bdi.binfo fun _ => ⟨rfl, rfl⟩
  have unset : Counted (bgpInfoSetFlag s₁.table bdi.binfo
      fun flags => { flags with history := false, damped := false }) none :=
    (detached.weaken bdi.binfo).infoFlag_of_removed fun _ => rfl
  cases last
  dsimp only
  split
  · exact ⟨unset.delete bdi.binfo, (bgpInfoDelete_keys _ _).trans
      ((bgpInfoSetFlag_keys _).trans keys)⟩
  · exact ⟨unset, (bgpInfoSetFlag_keys _).trans keys⟩

theorem bgpReuseVisit_counted (h : Counted s.table none)
    (run : bgpReuseVisit cfg tNow s a = some s') : Counted s'.table none := by
  simp only [bgpReuseVisit, bind_eq_bind, bind_eq_some_iff] at run
  obtain ⟨bdi, -, binfo, -, run⟩ := run
  split at run
  · have reused : Counted (bgpInfoSetFlag s.table bdi.binfo
        fun flags => { flags with damped := false }) none :=
      (h.weaken bdi.binfo).infoFlag_of_removed fun _ => rfl
    have again : Counted (bgpInfoSetFlag (bgpInfoSetFlag s.table bdi.binfo
        fun flags => { flags with damped := false }) bdi.binfo
          fun flags => { flags with history := false }) none :=
      (reused.weaken bdi.binfo).infoFlag_of_removed fun _ => rfl
    split at run
    · refine (bgpDampInfoFree_counted ?_ run).1
      split
      · exact again
      · exact reused
    · rw [onDamp_table run]
      split
      · exact again
      · exact reused
  · rw [onDamp_table run]
    exact h

theorem bgpReuseLoop_counted {rounds : Nat} {cur : Option Nat} (h : Counted s.table none)
    (run : bgpReuseLoop cfg tNow rounds cur s = some s') : Counted s'.table none := by
  induction rounds generalizing cur s with
  | zero =>
    cases cur with
    | none =>
      cases run
      exact h
    | some a => cases run
  | succ rounds ih =>
    cases cur with
    | none =>
      cases run
      exact h
    | some a =>
      simp only [bgpReuseLoop, bind_eq_bind, bind_eq_some_iff] at run
      obtain ⟨s₁, visited, rest⟩ := run
      exact ih (bgpReuseVisit_counted h visited) rest

theorem dampPenalty_counted {addr last : Nat} (h : Counted s.table but)
    (run : dampPenalty cfg s ri attrChange tNow addr = some (a, last, s')) :
    Counted s'.table but := by
  unfold dampPenalty at run
  split at run
  · split at run
    · cases run
    · simp only [bind_eq_bind, bind_eq_some_iff, Option.some.injEq, Prod.mk.injEq] at run
      obtain ⟨s₁, added, -, -, rfl⟩ := run
      rw [onDamp_table added]
      exact h.setDampInfo (some addr)
  · simp only [bind_eq_bind, bind_eq_some_iff, Option.some.injEq, Prod.mk.injEq] at run
    obtain ⟨bdi, -, -, -, rfl⟩ := run
    exact h

/-- A withdraw accounts for its path, whatever was done to it before. -/
theorem bgpDampWithdraw_counted {addr : Nat} (h : Counted s.table (some uid))
    (run : bgpDampWithdraw cfg s uid attrChange tNow addr = some (status, s')) :
    Counted s'.table none := by
  simp only [bgpDampWithdraw, bind_eq_bind, bind_eq_some_iff] at run
  obtain ⟨ri, -, ⟨a, last, s₁⟩, penalty, bdi, -, run⟩ := run
  have history : Counted (bgpInfoSetFlag s₁.table uid
      fun flags => { flags with history := true }) none :=
    (dampPenalty_counted h penalty).infoFlag_of_removed fun _ => rfl
  split at run
  · cases run
  · split at run
    · split at run
      · simp only [bind_eq_some_iff, Option.some.injEq, Prod.mk.injEq] at run
        obtain ⟨s₂, deleted, s₃, added, -, rfl⟩ := run
        rw [onDamp_table added, onDamp_table deleted]
        exact history
      · cases run
        exact history
    · split at run
      · simp only [bind_eq_some_iff, Option.some.injEq, Prod.mk.injEq] at run
        obtain ⟨s₂, deleted, s₃, added, -, rfl⟩ := run
        rw [onDamp_table added, onDamp_table deleted]
        exact (history.weaken uid).infoFlag_of_removed fun _ => rfl
      · cases run
        exact history

theorem dampReuse_counted {bdi : DampInfo} (h : Counted s.table none)
    (run : dampReuse cfg s uid a bdi = some (status, s')) : Counted s'.table none := by
  simp only [dampReuse, bind_eq_bind, bind_eq_some_iff] at run
  obtain ⟨binfo, -, run⟩ := run
  split at run
  · cases run
    exact h
  · split at run
    · simp only [bind_eq_some_iff, Option.some.injEq, Prod.mk.injEq] at run
      obtain ⟨s₁, deleted, s₂, added, -, rfl⟩ := run
      show Counted s₂.table none
      rw [onDamp_table added, onDamp_table deleted]
      exact (h.weaken uid).infoFlag_of_removed fun _ => rfl
    · cases run
      exact h

/-- An update accounts for its path, unless there is no dampening information; then it does
nothing and the path may be used. -/
theorem bgpDampUpdate_counted (h : Counted s.table (some uid))
    (run : bgpDampUpdate cfg s uid tNow = some (status, s')) :
    Counted s'.table none ∨ (s' = s ∧ status = .used) := by
  simp only [bgpDampUpdate, bind_eq_bind, bind_eq_some_iff] at run
  obtain ⟨ri, -, run⟩ := run
  split at run
  · cases run
    exact .inr ⟨rfl, rfl⟩
  · next a _ =>
    simp only [bind_eq_some_iff] at run
    obtain ⟨bdi, -, ⟨status', s₁⟩, reused, bdi', -, run⟩ := run
    have unset : Counted (bgpInfoSetFlag s.table uid
        fun flags => { flags with history := false }) none :=
      h.infoFlag_of_removed fun _ => rfl
    have decided : Counted s₁.table none := dampReuse_counted unset reused
    left
    split at run
    · cases run
      exact decided
    · simp only [bind_eq_some_iff, Option.some.injEq, Prod.mk.injEq] at run
      obtain ⟨s₂, freed, -, rfl⟩ := run
      exact (bgpDampInfoFree_counted decided freed).1

theorem bgpDampScan_counted (h : Counted s.table none)
    (run : bgpDampScan cfg s uid tNow = some s') : Counted s'.table none := by
  simp only [bgpDampScan, bind_eq_bind, bind_eq_some_iff] at run
  obtain ⟨ri, -, a, -, bdi, -, run⟩ := run
  split at run
  · split at run
    · simp only [bind_eq_some_iff, Option.some.injEq] at run
      obtain ⟨s₁, deleted, s₂, added, rfl⟩ := run
      show Counted s₂.table none
      rw [onDamp_table added, onDamp_table deleted]
      exact (h.weaken uid).infoFlag_of_removed fun _ => rfl
    · cases run
      exact h
  · split at run
    · exact (bgpDampInfoFree_counted (by exact h) run).1
    · cases run
      exact h

end

/-! ## Updates and withdraws -/

theorem bgpRibRemove_counted (h : Counted t none) (uid : Nat) :
    Counted (bgpRibRemove t uid) none := by
  unfold bgpRibRemove
  split
  · exact h
  · exact h.delete uid

theorem Counted.add (h : Counted t none) {new : Path} (fresh : t.find new.uid = none)
    (uncounted : new.flags.counted = false) (linked : new.linked = true) :
    Counted { t with paths := new :: t.paths } (some new.uid) := by
  refine ⟨?_, fun peer family other => ?_, ?_, ?_⟩
  · rw [map_cons, nodup_cons]
    refine ⟨fun again => ?_, h.nodup⟩
    obtain ⟨p, hp, same⟩ := List.mem_map.mp again
    exact find_none fresh hp same
  · rw [countP_cons_of_neg (by simp [countedFor, uncounted])]
    exact h.pcount peer family other
  · refine forall_mem_cons.mpr ⟨fun apart => absurd rfl apart, fun p hp _ => ?_⟩
    exact h.tight p hp (by simp)
  · exact forall_mem_cons.mpr ⟨fun unlinked => absurd unlinked (by simp [linked]), h.gone⟩

theorem counted_kept : Kept cfg fun but s => Counted s.table but where
  weaken uid h := h.weaken uid
  remove uid h := bgpRibRemove_counted h uid
  withdraw := bgpDampWithdraw_counted
  update := bgpDampUpdate_counted
  check _ h := h.infoFlag_of_removed fun _ => rfl
  flags _ h keeps := h.setFlags fun flags =>
    ⟨(keeps flags).1, (keeps flags).2.1, (keeps flags).2.2.1⟩
  restore h mem linked := h.restore mem linked
  replace _ h := h.modify_of_flags fun _ => ⟨rfl, rfl, rfl, rfl, rfl⟩
  add _ h fresh := h.add fresh rfl rfl

/-! ## Processing -/

section

variable {s s' : Rib}

theorem Counted.process (h : Counted t none) (r : Reads) (node : Nat) :
    Counted (t.process r node) none := by
  have flags : ∀ p ∈ t.paths, t.flagsOf p.uid = p.flags := by
    intro p hp
    rw [flagsOf, h.find hp]
    rfl
  have use := bgpProcessMain_sameUse r.bgp (r.infos t node) t.flagsOf r.mpathChanged
  refine ⟨?_, fun peer family other => ?_, fun p hp _ => ?_, fun p hp => ?_⟩
  · have same : (t.process r node).paths.map uid = t.paths.map uid := by
      rw [Table.process, List.map_map]
      apply map_congr_left
      intro p _
      rw [Function.comp_apply]
      split <;> rfl
    rw [same]
    exact h.nodup
  · refine (h.pcount peer family other).trans ?_
    rw [Table.process, countP_map]
    apply countP_congr
    intro p hp
    rw [Function.comp_apply]
    split
    · rw [countedFor, countedFor, use.counted, flags p hp]
    · exact Iff.rfl
  · obtain ⟨q, hq, rfl⟩ := List.mem_map.mp hp
    split
    · dsimp only
      rw [use.counted, use.holddown, flags q hq]
      exact h.tight q hq (by simp)
    · exact h.tight q hq (by simp)
  · obtain ⟨q, hq, rfl⟩ := List.mem_map.mp hp
    split
    · next here =>
      dsimp only
      intro reaped
      rw [use.removed]
      refine bgpProcessMain_reaped r.bgp (r.info q) ?_ (by simpa using reaped)
      exact List.mem_map_of_mem (mem_filter.mpr ⟨hq, here⟩)
    · exact h.gone q hq

theorem bgpInfoUnlock_counted (h : Counted s.table none)
    (run : bgpInfoUnlock s uid = some s') : Counted s'.table none := by
  simp only [bgpInfoUnlock, bind_eq_bind, bind_eq_some_iff] at run
  obtain ⟨ri, found, run⟩ := run
  split at run
  · cases run
    exact h
  · next unlinked =>
    simp only [bind_eq_some_iff] at run
    obtain ⟨s₁, freed, last⟩ := run
    have kept : Counted s₁.table none ∧ s₁.table.keys = s.table.keys := by
      unfold bgpInfoExtraFree at freed
      split at freed
      · exact bgpDampInfoFree_counted h freed
      · cases freed
        exact ⟨h, rfl⟩
    obtain ⟨counted, keys⟩ := kept
    -- the path that goes is not in the table, so it is removed and not counted
    have gone : ∀ p ∈ s₁.table.paths, p.uid = uid → p.flags.removed = true := by
      intro p hp here
      apply counted.gone p hp
      obtain ⟨q, hq, same, linked⟩ := linked_of_keys keys hp
      have whole := find_uid found
      rw [← linked, h.unique hq (find_mem found) (same.trans (here.trans whole.symm))]
      simpa using unlinked
    cases last
    refine ⟨?_, fun peer family other => ?_, fun p hp => ?_, fun p hp => ?_⟩
    · exact counted.nodup.sublist (filter_sublist.map Path.uid)
    · refine (counted.pcount peer family other).trans ?_
      rw [countP_filter]
      apply countP_congr
      intro p hp
      rw [Bool.and_eq_true]
      refine ⟨fun this => ⟨this, ?_⟩, fun both => both.1⟩
      rw [decide_eq_true_iff]
      intro here
      simp only [countedFor, Bool.and_eq_true, beq_iff_eq] at this
      have tight := counted.tight p hp (by simp) (this.1.1 ▸ other)
      rw [this.2, holddown_of_removed (gone p hp here)] at tight
      exact absurd tight (by simp)
    · exact counted.tight p (mem_of_mem_filter hp)
    · exact counted.gone p (mem_of_mem_filter hp)

theorem processMain_counted {r : Reads} {node : Nat} (h : Counted s.table none)
    (run : s.processMain r node = some s') : Counted s'.table none :=
  foldlM_keeps (fun _ _ _ => bgpInfoUnlock_counted) _ (h.process r node) run

end

/-! ## Every reachable state -/

theorem RibEvent.counted {s s' : Rib} {e : RibEvent}
    (h : Counted s.table none) (run : e.next cfg s = some s') : Counted s'.table none := by
  cases e with
  | update u => exact bgpUpdateMain_keeps counted_kept h run
  | withdraw u => exact bgpWithdraw_keeps counted_kept h run
  | dampWithdraw uid attrChange tNow addr =>
    obtain ⟨⟨status, s₁⟩, withdrawn, rfl⟩ := map_eq_some_iff.mp run
    exact bgpDampWithdraw_counted (h.weaken uid) withdrawn
  | dampUpdate uid tNow =>
    obtain ⟨⟨status, s₁⟩, updated, rfl⟩ := map_eq_some_iff.mp run
    rcases bgpDampUpdate_counted (h.weaken uid) updated with counted | ⟨rfl, -⟩
    · exact counted
    · exact h
  | dampScan uid tNow => exact bgpDampScan_counted h run
  | dampInfoFree a gone => exact (bgpDampInfoFree_counted h run).1
  | reuseTimer tNow rounds => exact bgpReuseLoop_counted (by exact h) run
  | process r node => exact processMain_counted h run
  | unlock uid => exact bgpInfoUnlock_counted h run

theorem Counted.empty (isSelf : Nat → Bool) : Counted (Rib.empty isSelf).table none :=
  ⟨nodup_nil, fun _ _ _ => rfl, fun _ mem => absurd mem (by simp [Rib.empty]),
    fun _ mem => absurd mem (by simp [Rib.empty])⟩

/-- In every reachable state the prefix count of a peer other than `peer_self` is the number of
its paths in the table that are valid and neither historical, damped nor removed. -/
theorem pcount_exact {cfg : DampConfig} {isSelf : Nat → Bool} {s : Rib}
    (reached : Reachable (ribStep cfg) (Rib.empty isSelf) s) {peer : Nat}
    (other : s.table.isSelf peer = false) (family : Nat) :
    s.table.pcount peer family = s.table.paths.countP fun p =>
      p.linked && p.peer == peer && p.family == family && p.flags.valid &&
        !p.flags.history && !p.flags.damped && !p.flags.removed := by
  have counted : Counted s.table none := by
    apply Reachable.invariant (I := fun s => Counted s.table none) _ _ reached
    · exact Counted.empty isSelf
    · exact fun s e s' h run => RibEvent.counted h (ribStep_run.mp run)
  refine (counted.pcount peer family other).trans ?_
  apply countP_congr
  intro p hp
  rw [countedFor, Bool.and_eq_true, Bool.and_eq_true]
  constructor
  · rintro ⟨⟨hpeer, hfamily⟩, this⟩
    rw [counted.tight p hp (by simp) (by rwa [beq_iff_eq.mp hpeer])] at this
    have usable := usable_of_not_holddown (by simpa using this)
    have linked : p.linked = true := by
      by_contra unlinked
      have removed := counted.gone p hp (by simpa using unlinked)
      rw [usable.2.2.2] at removed
      exact absurd removed (by simp)
    simp [linked, hpeer, hfamily, usable]
  · intro usable
    simp only [Bool.and_eq_true, Bool.not_eq_true'] at usable
    obtain ⟨⟨⟨⟨⟨⟨-, hpeer⟩, hfamily⟩, valid⟩, history⟩, damped⟩, removed⟩ := usable
    refine ⟨⟨hpeer, hfamily⟩, ?_⟩
    rw [counted.tight p hp (by simp) (by rwa [beq_iff_eq.mp hpeer])]
    simp [holddown, unuseable, valid, history, damped, removed]

/-- Two prefixes are announced and one of them is withdrawn. -/
def withdrawnTrace : List RibEvent :=
  [.update (news 1 0 1), .update (news 2 0 2), .withdraw (news 1 0 3)]

theorem withdrawnTrace_plays : (play (ribStep quickDecay) (fun _ _ => True) withdrawnTrace
      (empty fun _ => false)).isSome := by
  decide +kernel

theorem withdrawn_pcount_exact : ∃ s, Reachable (ribStep quickDecay) (Rib.empty fun _ => false) s ∧
      s.table.isSelf 1 = false ∧ s.table.pcount 1 0 = 1 ∧
      s.table.pcount 1 0 = s.table.paths.countP fun p =>
        p.linked && p.peer == 1 && p.family == 0 && p.flags.valid &&
          !p.flags.history && !p.flags.damped && !p.flags.removed := by
  have reached := (Run.of_play withdrawnTrace_plays).reachable
  exact ⟨_, reached, by decide +kernel, by decide +kernel,
    pcount_exact reached (by decide +kernel) 0⟩

end Mp2mp.Bgpd
