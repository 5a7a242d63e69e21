import Mp2mp.Kit.Dll
import Mp2mp.Kit.Exec
import Mp2mp.Bgpd.Selection

/-!
# Paths of the main tables, prefix counts and route dampening

`bgp_update_main` and `bgp_withdraw` of `bgp_route.c` with the flags of a path and the prefix
count of its peer, and `bgp_damp.c`, whose lists link the dampening information of the paths.

Paths and dampening information are known by the address they were allocated at.  An access
through a pointer to memory that has been freed is undefined behaviour, here `none`.  What is
passed on is left out (aggregates, announcements, the queue of nodes to process), and so are
the tables of route server clients, which are not counted.
-/

namespace Mp2mp.Bgpd

open Kit

variable {uid : Nat}

/-! ## Paths and prefix counts -/

/-- `struct bgp_info` in a main table.  `kind` stands for its type and sub type, `family` for
the address family of its table and `attr` for the interned attributes. -/
structure Path where
  uid : Nat
  node : Nat
  family : Nat
  peer : Nat
  kind : Nat
  attr : Nat
  flags : Flags
  dampInfo : Option Nat
  /-- The path is in its table.  One that has been reaped lives on while an advertisement
  holds it. -/
  linked : Bool
deriving DecidableEq

/-- The paths, newest first, and `pcount` of each peer and address family. -/
structure Table where
  paths : List Path
  pcount : Nat → Nat → Nat
  /-- The peers that are the `peer_self` of their instance. -/
  isSelf : Nat → Bool

/-- The flags of a new path. -/
def Flags.clear : Flags where
  igpChanged := false
  damped := false
  history := false
  selected := false
  valid := false
  attrChanged := false
  dmedCheck := false
  dmedSelected := false
  stale := false
  removed := false
  counted := false

namespace Table

def find (t : Table) (uid : Nat) : Option Path := t.paths.find? fun p => p.uid == uid

def flagsOf (t : Table) (uid : Nat) : Flags := ((t.find uid).map Path.flags).getD .clear

def lookup (t : Table) (node peer kind : Nat) : Option Path :=
  t.paths.find? fun p => p.linked && p.node == node && p.peer == peer && p.kind == kind

def modify (t : Table) (uid : Nat) (f : Path → Path) : Table :=
  { t with paths := t.paths.map fun p => if p.uid = uid then f p else p }

/-- `SET_FLAG` and `UNSET_FLAG` -/
def setFlags (t : Table) (uid : Nat) (f : Flags → Flags) : Table :=
  t.modify uid fun p => { p with flags := f p.flags }

def setDampInfo (t : Table) (uid : Nat) (a : Option Nat) : Table :=
  t.modify uid fun p => { p with dampInfo := a }

variable {t : Table} {p : Path}

theorem find_uid (found : t.find uid = some p) : p.uid = uid := by
  simpa using List.find?_some found

theorem find_mem (found : t.find uid = some p) : p ∈ t.paths :=
  List.mem_of_find?_eq_some found

theorem find_none (missing : t.find uid = none) (mem : p ∈ t.paths) : p.uid ≠ uid := by
  simpa using List.find?_eq_none.mp missing p mem

end Table

def Flags.setCounted (b : Bool) (flags : Flags) : Flags := { flags with counted := b }

/-- Change the count of one peer and address family. -/
def adjustPcount (pcount : Nat → Nat → Nat) (ri : Path) (f : Nat → Nat) : Nat → Nat → Nat :=
  fun peer family =>
    if peer = ri.peer ∧ family = ri.family then f (pcount peer family) else pcount peer family

def bgpPcountAdjust (t : Table) (uid : Nat) : Table :=
  match t.find uid with
  | none => t
  | some ri =>
    if t.isSelf ri.peer then t
    else if ri.flags.holddown && ri.flags.counted then
      { t.setFlags uid (.setCounted false) with
        pcount := adjustPcount t.pcount ri (· - 1) }
    else if !ri.flags.holddown && !ri.flags.counted then
      { t.setFlags uid (.setCounted true) with
        pcount := adjustPcount t.pcount ri (· + 1) }
    else t

/-- `bgp_info_set_flag` and `bgp_info_unset_flag`, of flags that decide whether a path can be
used. -/
def bgpInfoSetFlag (t : Table) (uid : Nat) (f : Flags → Flags) : Table :=
  bgpPcountAdjust (t.setFlags uid f) uid

def bgpInfoDelete (t : Table) (uid : Nat) : Table :=
  (bgpInfoSetFlag t uid fun flags => { flags with removed := true }).setFlags uid
    fun flags => { flags with valid := false }

def bgpInfoRestore (t : Table) (uid : Nat) : Table :=
  (bgpInfoSetFlag t uid fun flags => { flags with removed := false }).setFlags uid
    fun flags => { flags with valid := true }

/-! ## Dampening information and its lists -/

/-- `lastrecord` -/
inductive Record
  | update
  | withdraw
deriving DecidableEq, Repr

/-- `struct bgp_damp_info` without its links. -/
structure DampInfo where
  penalty : Nat
  tUpdated : Int
  suppressTime : Int
  /-- The path it belongs to. -/
  binfo : Nat
  /-- The reuse list it is on; read for damped paths only. -/
  index : Nat
  lastrecord : Record
deriving DecidableEq, Repr

/-- `struct bgp_damp_config`.  `reuseIndex` is the table of offsets in the circular list of
reuse lists, and `decay` may be any function that does not raise a penalty. -/
structure DampConfig where
  suppressValue : Nat
  reuseLimit : Nat
  maxSuppressTime : Int
  ceiling : Nat
  reuseListSize : Nat
  reuseIndex : Nat → Nat
  decay : Int → Nat → Nat
  decay_le : ∀ tdiff penalty, decay tdiff penalty ≤ penalty

/-- A list of dampening information: a reuse list, or `no_reuse_list`. -/
abbrev Slot := Option Nat

/-- All dampening information, with the heads of the lists. -/
structure Damp where
  infos : Nat → Option DampInfo
  links : Links Nat
  reuseList : Nat → Option Nat
  reuseOffset : Nat
  noReuseList : Option Nat

namespace Damp

def alive (d : Damp) (a : Nat) : Bool := (d.infos a).isSome

def setInfo (d : Damp) (a : Nat) (bdi : Option DampInfo) : Damp :=
  { d with infos := Function.update d.infos a bdi }

def head (d : Damp) : Slot → Option Nat
  | some index => d.reuseList index
  | none => d.noReuseList

def setHead (d : Damp) (slot : Slot) (head : Option Nat) : Damp :=
  match slot with
  | some index => { d with reuseList := Function.update d.reuseList index head }
  | none => { d with noReuseList := head }

/-- `BGP_INFO_ADD`: the pointers of the element and of the first one are written. -/
def listAdd (d : Damp) (slot : Slot) (a : Nat) : Option Damp :=
  if d.alive a ∧ ∀ b ∈ d.head slot, d.alive b then
    some { d.setHead slot (some a) with links := d.links.push (d.head slot) a }
  else none

/-- `BGP_INFO_DEL`: the pointers of the elements before and after are written. -/
def listDel (d : Damp) (slot : Slot) (a : Nat) : Option Damp :=
  if d.alive a ∧ (∀ b ∈ d.links.next a, d.alive b) ∧ ∀ b ∈ d.links.prev a, d.alive b then
    some { d.setHead slot (d.links.unlink (d.head slot) a).2 with
      links := (d.links.unlink (d.head slot) a).1 }
  else none

end Damp

def bgpDampListAdd (d : Damp) (a : Nat) : Option Damp := d.listAdd none a

def bgpDampListDel (d : Damp) (a : Nat) : Option Damp := d.listDel none a

def bgpReuseIndex (cfg : DampConfig) (d : Damp) (penalty : Nat) : Nat :=
  (d.reuseOffset + cfg.reuseIndex penalty) % cfg.reuseListSize

def bgpReuseListAdd (cfg : DampConfig) (d : Damp) (a : Nat) : Option Damp := do
  let bdi ← d.infos a
  let index := bgpReuseIndex cfg d bdi.penalty
  (d.setInfo a (some { bdi with index })).listAdd (some index) a

def bgpReuseListDelete (d : Damp) (a : Nat) : Option Damp := do
  let bdi ← d.infos a
  d.listDel (some bdi.index) a

/-! ## Dampening -/

structure Rib where
  table : Table
  damp : Damp

namespace Rib

def empty (isSelf : Nat → Bool) : Rib where
  table := ⟨[], fun _ _ => 0, isSelf⟩
  damp := ⟨fun _ => none, ⟨fun _ => none, fun _ => none⟩, fun _ => none, 0, none⟩

/-- `bgp_info_set_flag` and `bgp_info_unset_flag` -/
def infoFlag (s : Rib) (uid : Nat) (f : Flags → Flags) : Rib :=
  { s with table := bgpInfoSetFlag s.table uid f }

def setInfo (s : Rib) (a : Nat) (bdi : DampInfo) : Rib :=
  { s with damp := s.damp.setInfo a (some bdi) }

def onDamp (s : Rib) (f : Damp → Option Damp) : Option Rib :=
  (f s.damp).map fun damp => { s with damp }

end Rib

def bgpDampInfoFree (s : Rib) (a : Nat) (withdraw : Bool) : Option Rib := do
  let bdi ← s.damp.infos a
  let binfo ← s.table.find bdi.binfo
  let s := { s with table := s.table.setDampInfo bdi.binfo none }
  let s ← s.onDamp fun d =>
    if binfo.flags.damped then bgpReuseListDelete d a else bgpDampListDel d a
  let s := s.infoFlag bdi.binfo fun flags => { flags with history := false, damped := false }
  let table := if bdi.lastrecord = .withdraw ∧ withdraw then bgpInfoDelete s.table bdi.binfo
    else s.table
  some ⟨table, s.damp.setInfo a none⟩

/-- What the reuse timer does with one path of the list. -/
def bgpReuseVisit (cfg : DampConfig) (tNow : Int) (s : Rib) (a : Nat) : Option Rib := do
  let bdi ← s.damp.infos a
  let _ ← s.table.find bdi.binfo
  let penalty := cfg.decay (tNow - bdi.tUpdated) bdi.penalty
  let bdi := { bdi with penalty, tUpdated := tNow }
  if penalty < cfg.reuseLimit then do
    -- reuse the route
    let s := s.infoFlag bdi.binfo fun flags => { flags with damped := false }
    let s := s.setInfo a { bdi with suppressTime := 0 }
    let s := if bdi.lastrecord = .update then
        s.infoFlag bdi.binfo fun flags => { flags with history := false }
      else s
    if 2 * penalty ≤ cfg.reuseLimit then bgpDampInfoFree s a true
    else s.onDamp fun d => bgpDampListAdd d a
  else (s.setInfo a bdi).onDamp fun d => bgpReuseListAdd cfg d a

/-- The loop of the reuse timer.  A list that has been made to lead back to itself is walked
for ever, here until the rounds run out. -/
def bgpReuseLoop (cfg : DampConfig) (tNow : Int) : Nat → Option Nat → Rib → Option Rib
  | _, none, s => some s
  | 0, some _, _ => none
  | rounds + 1, some a, s => do
      let next := s.damp.links.next a
      let s ← bgpReuseVisit cfg tNow s a
      bgpReuseLoop cfg tNow rounds next s

def bgpReuseTimer (cfg : DampConfig) (tNow : Int) (rounds : Nat) (s : Rib) : Option Rib :=
  let bdi := s.damp.reuseList s.damp.reuseOffset
  let damp := s.damp.setHead (some s.damp.reuseOffset) none
  let damp := { damp with reuseOffset := (damp.reuseOffset + 1) % cfg.reuseListSize }
  bgpReuseLoop cfg tNow rounds bdi { s with damp }

/-- `BGP_DAMP_USED` and `BGP_DAMP_SUPPRESSED` -/
inductive DampStatus
  | used
  | suppressed
deriving DecidableEq, Repr

/-- `DEFAULT_PENALTY`, or half of it when only the attributes have changed -/
def defaultPenalty (attrChange : Bool) : Nat := if attrChange then 1000 / 2 else 1000

/-- The information of a withdrawn path with its new penalty, allocated at `addr` if there is
none, and the penalty it had. -/
def dampPenalty (cfg : DampConfig) (s : Rib) (ri : Path) (attrChange : Bool) (tNow : Int)
    (addr : Nat) : Option (Nat × Nat × Rib) :=
  match ri.dampInfo with
  | none =>
    if s.damp.alive addr then none
    else do
      let s := s.setInfo addr ⟨defaultPenalty attrChange, 0, 0, ri.uid, 0, .withdraw⟩
      let s := { s with table := s.table.setDampInfo ri.uid (some addr) }
      let s ← s.onDamp fun d => bgpDampListAdd d addr
      some (addr, 0, s)
  | some a => do
      let bdi ← s.damp.infos a
      let penalty := min cfg.ceiling
        (cfg.decay (tNow - bdi.tUpdated) bdi.penalty + defaultPenalty attrChange)
      some (a, bdi.penalty, s.setInfo a { bdi with penalty })

def bgpDampWithdraw (cfg : DampConfig) (s : Rib) (uid : Nat) (attrChange : Bool) (tNow : Int)
    (addr : Nat) : Option (DampStatus × Rib) := do
  let ri ← s.table.find uid
  let (a, lastPenalty, s) ← dampPenalty cfg s ri attrChange tNow addr
  let bdi ← s.damp.infos a
  if bdi.binfo ≠ uid then none
  else
    let bdi := { bdi with lastrecord := .withdraw, tUpdated := tNow }
    let s := s.setInfo a bdi
    let s := s.infoFlag uid fun flags => { flags with history := true }
    if ri.flags.damped then
      if bdi.penalty ≠ lastPenalty then do
        let s ← s.onDamp fun d => bgpReuseListDelete d a
        let s ← s.onDamp fun d => bgpReuseListAdd cfg d a
        some (.suppressed, s)
      else some (.suppressed, s)
    else if bdi.penalty ≥ cfg.suppressValue then do
      let s := s.infoFlag uid fun flags => { flags with damped := true }
      let s := s.setInfo a { bdi with suppressTime := tNow }
      let s ← s.onDamp fun d => bgpDampListDel d a
      let s ← s.onDamp fun d => bgpReuseListAdd cfg d a
      some (.used, s)
    else some (.used, s)

/-- The part of `bgp_damp_update` that decides whether the path is used. -/
def dampReuse (cfg : DampConfig) (s : Rib) (uid a : Nat) (bdi : DampInfo) :
    Option (DampStatus × Rib) := do
  let binfo ← s.table.find bdi.binfo
  if !binfo.flags.damped && decide (bdi.penalty < cfg.suppressValue) then some (.used, s)
  else if binfo.flags.damped && decide (bdi.penalty < cfg.reuseLimit) then do
    let s := s.infoFlag uid fun flags => { flags with damped := false }
    let s ← s.onDamp fun d => bgpReuseListDelete d a
    let s ← s.onDamp fun d => bgpDampListAdd d a
    some (.used, s.setInfo a { bdi with suppressTime := 0 })
  else some (.suppressed, s)

def bgpDampUpdate (cfg : DampConfig) (s : Rib) (uid : Nat) (tNow : Int) :
    Option (DampStatus × Rib) := do
  let ri ← s.table.find uid
  match ri.dampInfo with
  | none => some (.used, s)
  | some a => do
      let bdi ← s.damp.infos a
      let s := s.infoFlag uid fun flags => { flags with history := false }
      let penalty := cfg.decay (tNow - bdi.tUpdated) bdi.penalty
      let bdi := { bdi with lastrecord := .update, penalty }
      let (status, s) ← dampReuse cfg (s.setInfo a bdi) uid a bdi
      let bdi ← s.damp.infos a
      if 2 * penalty > cfg.reuseLimit then
        some (status, s.setInfo a { bdi with tUpdated := tNow })
      else do
        let s ← bgpDampInfoFree s a false
        some (status, s)

def bgpDampScan (cfg : DampConfig) (s : Rib) (uid : Nat) (tNow : Int) : Option Rib := do
  let ri ← s.table.find uid
  let a ← ri.dampInfo
  let bdi ← s.damp.infos a
  if ri.flags.damped then
    if tNow - bdi.suppressTime ≥ cfg.maxSuppressTime then do
      let s := s.infoFlag uid fun flags => { flags with damped := false }
      let s ← s.onDamp fun d => bgpReuseListDelete d a
      let s ← s.onDamp fun d => bgpDampListAdd d a
      some (s.setInfo a { bdi with
        penalty := cfg.reuseLimit, suppressTime := 0, tUpdated := tNow })
    else some s
  else
    let penalty := cfg.decay (tNow - bdi.tUpdated) bdi.penalty
    if 2 * penalty ≤ cfg.reuseLimit then bgpDampInfoFree (s.setInfo a { bdi with penalty }) a true
    else some (s.setInfo a { bdi with penalty, tUpdated := tNow })

/-! ## Updates and withdraws -/

def bgpRibRemove (t : Table) (uid : Nat) : Table :=
  -- keep historical information
  if (t.flagsOf uid).history then t else bgpInfoDelete t uid

/-- What an update or a withdraw is given: what the policy, the configuration and the check of the
next hop say about it, whether the route is known as received, if those are kept (`inAdjIn`), and
the addresses the allocator returns if it is asked. -/
structure UpdateArgs where
  node : Nat
  family : Nat
  peer : Nat
  kind : Nat
  attr : Nat
  filtered : Bool
  dampening : Bool
  reachable : Bool
  inAdjIn : Bool
  tNow : Int
  newUid : Nat
  newAddr : Nat

def bgpRibWithdraw (cfg : DampConfig) (s : Rib) (uid : Nat) (u : UpdateArgs) : Option Rib :=
  if u.dampening then do
    let (status, s) ← bgpDampWithdraw cfg s uid false u.tNow u.newAddr
    if status = .suppressed then some s else some { s with table := bgpRibRemove s.table uid }
  else some { s with table := bgpRibRemove s.table uid }

def bgpWithdraw (cfg : DampConfig) (s : Rib) (u : UpdateArgs) : Option Rib :=
  if !u.inAdjIn then some s
  else
    match s.table.lookup u.node u.peer u.kind with
    | some ri => if ri.flags.history then some s else bgpRibWithdraw cfg s ri.uid u
    | none => some s

/-- The last part of an update: whether the next hop is reachable. -/
def nexthopCheck (s : Rib) (uid : Nat) (reachable : Bool) : Rib :=
  s.infoFlag uid fun flags => { flags with valid := reachable }

/-- The dampening of an implicit withdraw. -/
def implicitWithdraw (cfg : DampConfig) (s : Rib) (ri : Path) (u : UpdateArgs) : Option Rib :=
  if u.dampening && !ri.flags.history then
    (bgpDampWithdraw cfg s ri.uid true u.tNow u.newAddr).map Prod.snd
  else some s

/-- The dampening of an update, and the check of the next hop if the path may be used. -/
def dampedCheck (cfg : DampConfig) (s : Rib) (ri : Path) (u : UpdateArgs) : Option Rib :=
  if u.dampening then do
    let (status, s) ← bgpDampUpdate cfg s ri.uid u.tNow
    if status = .suppressed then some s else some (nexthopCheck s ri.uid u.reachable)
  else some (nexthopCheck s ri.uid u.reachable)

/-- `bgp_update_main`, when there is a path that the update replaces -/
def bgpUpdateOld (cfg : DampConfig) (s : Rib) (ri : Path) (u : UpdateArgs) : Option Rib :=
  if !ri.flags.removed && ri.attr == u.attr then
    -- the same attribute comes in
    let table := s.table.setFlags ri.uid fun flags => { flags with attrChanged := false }
    if u.dampening && ri.flags.history then
      (bgpDampUpdate cfg { s with table } ri.uid u.tNow).map Prod.snd
    else
      some { s with table := table.setFlags ri.uid fun flags => { flags with stale := false } }
  else do
    -- withdrawn and announced before the withdraw was processed
    let table := if ri.flags.removed then bgpInfoRestore s.table ri.uid else s.table
    let table := table.setFlags ri.uid
      fun flags => { flags with stale := false, attrChanged := true }
    let s ← implicitWithdraw cfg { s with table } ri u
    let table := s.table.modify ri.uid fun p => { p with attr := u.attr }
    dampedCheck cfg { s with table } ri u

def bgpUpdateMain (cfg : DampConfig) (s : Rib) (u : UpdateArgs) : Option Rib :=
  match s.table.lookup u.node u.peer u.kind with
  | some ri =>
    if u.filtered then some { s with table := bgpRibRemove s.table ri.uid }
    else bgpUpdateOld cfg s ri u
  | none =>
    if u.filtered then some s
    else if (s.table.find u.newUid).isSome then none
    else
      let new : Path :=
        ⟨u.newUid, u.node, u.family, u.peer, u.kind, u.attr, .clear, none, true⟩
      let table := { s.table with paths := new :: s.table.paths }
      some (nexthopCheck { s with table } u.newUid u.reachable)

/-! ## Invariants of updates and withdraws -/

/-- An invariant that the parts of updates and withdraws keep, but for a path that is about to
be changed. -/
structure Kept (cfg : DampConfig) (I : Option Nat → Rib → Prop) : Prop where
  weaken {s} (uid) : I none s → I (some uid) s
  remove {s} (uid) : I none s → I none ⟨bgpRibRemove s.table uid, s.damp⟩
  withdraw {s s' uid change tNow addr status} : I (some uid) s →
    bgpDampWithdraw cfg s uid change tNow addr = some (status, s') → I none s'
  update {s s' uid tNow status} : I (some uid) s →
    bgpDampUpdate cfg s uid tNow = some (status, s') → I none s' ∨ s' = s ∧ status = .used
  check {s uid} (reachable) : I (some uid) s → I none (nexthopCheck s uid reachable)
  flags {s but f} (uid) : I but s → (∀ flags : Flags, (f flags).counted = flags.counted ∧
    (f flags).holddown = flags.holddown ∧ (f flags).removed = flags.removed ∧
    (f flags).damped = flags.damped) → I but ⟨s.table.setFlags uid f, s.damp⟩
  restore {s ri} : I none s → ri ∈ s.table.paths → ri.linked = true →
    I (some ri.uid) ⟨bgpInfoRestore s.table ri.uid, s.damp⟩
  replace {s uid} (attr) : I (some uid) s →
    I (some uid) ⟨s.table.modify uid fun p => { p with attr }, s.damp⟩
  add {s} (u : UpdateArgs) : I none s → s.table.find u.newUid = none →
    I (some u.newUid) ⟨{ s.table with paths := ⟨u.newUid, u.node, u.family, u.peer, u.kind, u.attr,
      .clear, none, true⟩ :: s.table.paths }, s.damp⟩

section

open Option

variable {cfg : DampConfig} {I : Option Nat → Rib → Prop} (k : Kept cfg I) {s s' : Rib}
  {ri : Path} {u : UpdateArgs}

include k

theorem bgpWithdraw_keeps (h : I none s) (run : bgpWithdraw cfg s u = some s') : I none s' := by
  unfold bgpWithdraw at run
  split at run
  · cases run
    exact h
  · split at run
    · next ri _ =>
      split at run
      · cases run
        exact h
      · unfold bgpRibWithdraw at run
        split at run
        · simp only [bind_eq_bind, bind_eq_some_iff] at run
          obtain ⟨⟨status, s₁⟩, damped, run⟩ := run
          have withdrawn := k.withdraw (k.weaken ri.uid h) damped
          split at run
          · cases run
            exact withdrawn
          · cases run
            exact k.remove ri.uid withdrawn
        · cases run
          exact k.remove ri.uid h
    · cases run
      exact h

theorem implicitWithdraw_keeps (h : I (some ri.uid) s)
    (run : implicitWithdraw cfg s ri u = some s') : I (some ri.uid) s' := by
  unfold implicitWithdraw at run
  split at run
  · obtain ⟨⟨status, s₁⟩, damped, rfl⟩ := map_eq_some_iff.mp run
    exact k.weaken ri.uid (k.withdraw h damped)
  · cases run
    exact h

/-- However the update ends, the invariant holds of its path. -/
theorem dampedCheck_keeps (h : I (some ri.uid) s)
    (run : dampedCheck cfg s ri u = some s') : I none s' := by
  unfold dampedCheck at run
  split at run
  · simp only [bind_eq_bind, bind_eq_some_iff] at run
    obtain ⟨⟨status, s₁⟩, damped, run⟩ := run
    rcases k.update h damped with updated | ⟨rfl, rfl⟩
    · split at run
      · cases run
        exact updated
      · cases run
        exact k.check u.reachable (k.weaken ri.uid updated)
    · cases run
      exact k.check u.reachable h
  · cases run
    exact k.check u.reachable h

theorem bgpUpdateOld_keeps (h : I none s) (mem : ri ∈ s.table.paths) (linked : ri.linked = true)
    (run : bgpUpdateOld cfg s ri u = some s') : I none s' := by
  unfold bgpUpdateOld at run
  split at run
  · have unset : I none ⟨s.table.setFlags ri.uid
        fun flags => { flags with attrChanged := false }, s.damp⟩ :=
      k.flags ri.uid h fun _ => ⟨rfl, rfl, rfl, rfl⟩
    split at run
    · obtain ⟨⟨status, s₁⟩, damped, rfl⟩ := map_eq_some_iff.mp run
      rcases k.update (k.weaken ri.uid unset) damped with updated | ⟨rfl, -⟩
      · exact updated
      · exact unset
    · cases run
      exact k.flags ri.uid unset fun _ => ⟨rfl, rfl, rfl, rfl⟩
  · simp only [bind_eq_bind, bind_eq_some_iff] at run
    obtain ⟨s₁, withdrawn, run⟩ := run
    have restored : I (some ri.uid) ⟨if ri.flags.removed = true then bgpInfoRestore s.table ri.uid
        else s.table, s.damp⟩ := by
      split
      · exact k.restore h mem linked
      · exact k.weaken ri.uid h
    refine dampedCheck_keeps k (k.replace u.attr ?_) run
    refine implicitWithdraw_keeps k ?_ withdrawn
    exact k.flags ri.uid restored fun _ => ⟨rfl, rfl, rfl, rfl⟩

theorem bgpUpdateMain_keeps (h : I none s) (run : bgpUpdateMain cfg s u = some s') :
    I none s' := by
  unfold bgpUpdateMain at run
  split at run
  · next ri found =>
    split at run
    · cases run
      exact k.remove ri.uid h
    · have linked := List.find?_some found
      simp only [Bool.and_eq_true] at linked
      exact bgpUpdateOld_keeps k h (List.mem_of_find?_eq_some found) linked.1.1.1 run
  · split at run
    · cases run
      exact h
    · split at run
      · cases run
      · next fresh =>
        cases run
        exact k.check u.reachable (k.add u h (by simpa using fresh))

end

/-! ## Processing -/

def bgpInfoExtraFree (s : Rib) (ri : Path) : Option Rib :=
  match ri.dampInfo with
  | some a => bgpDampInfoFree s a false
  | none => some s

/-- `bgp_info_unlock`, when it is the last reference but for that of the table: a path that has
been reaped is freed with its dampening information. -/
def bgpInfoUnlock (s : Rib) (uid : Nat) : Option Rib := do
  let ri ← s.table.find uid
  if ri.linked then some s
  else do
    let s ← bgpInfoExtraFree s ri
    some { s with table.paths := s.table.paths.filter fun p => p.uid ≠ uid }

/-- What processing a node reads through its paths, whether it finds that a multipath has changed,
and which paths an advertisement holds. -/
structure Reads where
  bgp : Bgp
  peers : Nat → Peer
  attrs : Nat → Attr
  subTypes : Nat → SubType
  igpmetric : Nat → Nat
  mpathChanged : Bool
  held : Nat → Bool

def Reads.info (r : Reads) (p : Path) : Info :=
  ⟨p.uid, r.peers p.peer, r.attrs p.attr, r.subTypes p.kind, r.igpmetric p.uid⟩

/-- The paths of a node as selection sees them. -/
def Reads.infos (r : Reads) (t : Table) (node : Nat) : List Info :=
  (t.paths.filter fun p => p.linked && p.node == node).map r.info

/-- The paths of a node once it has been processed; those that were reaped are not linked. -/
def Table.process (t : Table) (r : Reads) (node : Nat) : Table :=
  let out := bgpProcessMain r.bgp (r.infos t node) t.flagsOf r.mpathChanged
  { t with paths := t.paths.map fun p =>
      if p.linked && p.node == node then
        { p with flags := out.flags p.uid, linked := decide (r.info p ∈ out.paths) }
      else p }

/-- `bgp_process_main` on a node of a main table -/
def Rib.processMain (s : Rib) (r : Reads) (node : Nat) : Option Rib :=
  let uids := ((r.infos s.table node).map Info.uid).filter fun uid => !r.held uid
  uids.foldlM bgpInfoUnlock { s with table := s.table.process r node }

/-! ## What processing changes -/

/-- Flags that agree but for those of selection. -/
def SameUse (flags flags' : Nat → Flags) : Prop :=
  ∀ u, (flags' u).unmarked.settled = (flags u).unmarked.settled

namespace SameUse

variable {flags flags' : Nat → Flags}

section

variable (h : SameUse flags flags')

include h

theorem holddown (u : Nat) : (flags' u).holddown = (flags u).holddown := by
  have same := congrArg Flags.holddown (h u)
  exact same

theorem counted (u : Nat) : (flags' u).counted = (flags u).counted := by
  have same := congrArg Flags.counted (h u)
  exact same

theorem removed (u : Nat) : (flags' u).removed = (flags u).removed := by
  have same := congrArg Flags.removed (h u)
  exact same

theorem damped (u : Nat) : (flags' u).damped = (flags u).damped := by
  have same := congrArg Flags.damped (h u)
  exact same

end

theorem of_settled (h : ∀ u, (flags' u).settled = (flags u).settled) : SameUse flags flags' := by
  intro u
  have same := congrArg Flags.unmarked (h u)
  exact same

theorem of_marked (h : SameMarked flags flags') : SameUse flags flags' :=
  fun u => congrArg Flags.settled (h u)

theorem trans {flags₁ flags₂ flags₃ : Nat → Flags} (first : SameUse flags₁ flags₂)
    (second : SameUse flags₂ flags₃) : SameUse flags₁ flags₃ :=
  fun u => (second u).trans (first u)

end SameUse

section

variable (bgp : Bgp)

/-- The second pass changes marks only, and what it takes out has been removed. -/
theorem selectPass_frame (paths : List Info) (old new : Option Info) (flags : Nat → Flags) :
    SameMarked flags (selectPass bgp paths old new flags).flags ∧
      ∀ ri ∈ paths, ri ∉ (selectPass bgp paths old new flags).paths →
        (flags ri.uid).removed = true := by
  induction paths generalizing old new flags with
  | nil => exact ⟨.refl flags, by simp⟩
  | cons ri rest ih =>
    -- a path that stays, with marks changed or not
    have stays : ∀ {flags' : Nat → Flags} {left : Selection}, SameMarked flags flags' →
        (SameMarked flags' left.flags ∧
          ∀ x ∈ rest, x ∉ left.paths → (flags' x.uid).removed = true) →
        SameMarked flags left.flags ∧
          ∀ x ∈ ri :: rest, x ∉ ri :: left.paths → (flags x.uid).removed = true := by
      intro flags' left marks h
      refine ⟨marks.trans h.1, fun x hx out => ?_⟩
      rw [List.mem_cons, not_or] at out
      rw [← marks.removed]
      exact h.2 x ((List.mem_cons.mp hx).resolve_left out.1) out.2
    simp only [selectPass]
    generalize (if (flags ri.uid).selected = true then some ri else old) = old'
    split
    · split
      · next reaped =>
        refine ⟨(ih _ _ _).1, List.forall_mem_cons.mpr ⟨fun _ => reaped.1, ?_⟩⟩
        exact (ih _ _ _).2
      · exact stays (.refl flags) (ih _ _ _)
    · split
      · exact stays (.refl flags) (ih _ _ _)
      · split
        · exact stays (SameMarked.check _ _ _) (ih _ _ _)
        · exact stays ((SameMarked.check _ _ _).trans (SameMarked.select _ _ _)) (ih _ _ _)

theorem bgpBestSelection_frame (paths : List Info) (flags : Nat → Flags) :
    SameMarked flags (bgpBestSelection bgp paths flags).flags ∧
      ∀ ri ∈ paths, ri ∉ (bgpBestSelection bgp paths flags).paths →
        (flags ri.uid).removed = true := by
  rw [bgpBestSelection]
  split
  · have first : SameMarked flags (dmedPass bgp paths flags) := dmedPass_frame paths flags
    obtain ⟨marks, reaped⟩ := selectPass_frame bgp paths none none (dmedPass bgp paths flags)
    refine ⟨first.trans marks, fun ri mem out => ?_⟩
    rw [← first.removed]
    exact reaped ri mem out
  · exact selectPass_frame bgp paths none none flags

theorem bgpProcessMain_sameUse (paths : List Info) (flags : Nat → Flags) (mpathChanged : Bool) :
    SameUse flags (bgpProcessMain bgp paths flags mpathChanged).flags := by
  have marks := SameUse.of_marked (bgpBestSelection_frame bgp paths flags).1
  rw [bgpProcessMain]
  generalize bgpBestSelection bgp paths flags = sel at marks ⊢
  have aggregate := mpathAggregateUpdate_spec mpathChanged sel.new sel.flags
  split
  · exact marks.trans (.of_settled fun u => (aggregate u).1)
  · have unselect := unselectOld_spec sel.old (mpathAggregateUpdate mpathChanged sel.new sel.flags)
    have select := selectNew_spec sel.new
      (unselectOld sel.old (mpathAggregateUpdate mpathChanged sel.new sel.flags))
    exact marks.trans (.of_settled fun u =>
      (select u).1.trans ((unselect u).1.trans (aggregate u).1))

theorem bgpProcessMain_reaped {paths : List Info} {flags : Nat → Flags} {mpathChanged : Bool}
    (ri : Info) (mem : ri ∈ paths)
    (out : ri ∉ (bgpProcessMain bgp paths flags mpathChanged).paths) :
    (flags ri.uid).removed = true := by
  have use := bgpProcessMain_sameUse bgp paths flags mpathChanged
  have reaped := (bgpBestSelection_frame bgp paths flags).2 ri mem
  rw [bgpProcessMain] at out use
  generalize bgpBestSelection bgp paths flags = sel at out use reaped
  split at out
  · exact reaped out
  · next busy =>
    rw [if_neg busy] at use
    rw [mem_reapOld, not_and, Classical.not_imp, Bool.not_eq_false] at out
    by_cases kept : ri ∈ sel.paths
    · exact (use.removed ri.uid).symm.trans (out kept).2
    · exact reaped kept

end

/-! ## The system -/

inductive RibEvent
  | update (u : UpdateArgs)
  | withdraw (u : UpdateArgs)
  | dampWithdraw (uid : Nat) (attrChange : Bool) (tNow : Int) (addr : Nat)
  | dampUpdate (uid : Nat) (tNow : Int)
  | dampScan (uid : Nat) (tNow : Int)
  | dampInfoFree (a : Nat) (gone : Bool)
  | reuseTimer (tNow : Int) (rounds : Nat)
  | process (r : Reads) (node : Nat)
  /-- An advertisement lets go of its path. -/
  | unlock (uid : Nat)

def RibEvent.next (cfg : DampConfig) (s : Rib) : RibEvent → Option Rib
  | update u => bgpUpdateMain cfg s u
  | withdraw u => bgpWithdraw cfg s u
  | dampWithdraw uid attrChange tNow addr =>
    (bgpDampWithdraw cfg s uid attrChange tNow addr).map Prod.snd
  | dampUpdate uid tNow => (bgpDampUpdate cfg s uid tNow).map Prod.snd
  | dampScan uid tNow => bgpDampScan cfg s uid tNow
  | dampInfoFree a gone => bgpDampInfoFree s a gone
  | reuseTimer tNow rounds => bgpReuseTimer cfg tNow rounds s
  | process r node => s.processMain r node
  | unlock uid => bgpInfoUnlock s uid

/-- The events as statements; undefined behaviour is a fault. -/
def ribStep (cfg : DampConfig) (e : RibEvent) : EStateM Unit Rib Unit := fun s =>
  match e.next cfg s with
  | some s' => .ok () s'
  | none => .error () s

theorem ribStep_run {cfg : DampConfig} {e : RibEvent} {s s' : Rib} :
    (ribStep cfg e).run s = .ok () s' ↔ e.next cfg s = some s' := by
  rw [EStateM.run, ribStep]
  cases e.next cfg s <;> simp

/-- Penalties are gone after a second. -/
def quickDecay : DampConfig where
  suppressValue := 1000
  reuseLimit := 750
  maxSuppressTime := 3600
  ceiling := 12000
  reuseListSize := 4
  reuseIndex _ := 1
  decay tdiff penalty := if tdiff = 0 then penalty else 0
  decay_le tdiff penalty := by split <;> omega

/-- News of a reachable prefix from an external peer. -/
def news (node attr newUid : Nat) : UpdateArgs where
  node := node
  family := 0
  peer := 1
  kind := 0
  attr := attr
  filtered := false
  dampening := true
  reachable := true
  inAdjIn := true
  tNow := 0
  newUid := newUid
  newAddr := newUid

end Mp2mp.Bgpd
