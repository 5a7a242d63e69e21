import Mp2mp.Bgpd.Damping
import Mp2mp.Kit.Keyed

/-!
# The lists of dampening information

Every `bgp_damp_info` is to be on one list: a reuse list while its path is damped, and
`no_reuse_list` otherwise.  `Settled s pending` is that invariant for a state in which the
members of `pending` are on no list, as those of the list that the reuse timer has detached;
`Focus` is the invariant around one element and its path, wherever that element is.

* `bgpDampWithdraw_settled`, `bgpDampUpdate_settled`, `bgpDampScan_settled`,
  `bgpDampInfoFree_settled`: each function keeps the lists consistent.
* `bgpReuseTimer_settled`: so does the reuse timer, as long as it frees nothing.  To free a
  member of the detached list it is taken out of `no_reuse_list`, which it is not on.
* `dampLists_consistent`: the lists are consistent in every run in which the timer never does.
-/

namespace Mp2mp.Bgpd

open Kit Option Table Rib Damp
open Function (update update_of_ne comp_apply)

/-! ## Where dampening information belongs -/

/-- The list that dampening information is to be on. -/
def Rib.place (s : Rib) (a : Nat) : Option Slot :=
  (s.damp.infos a).map fun bdi =>
    if (s.table.flagsOf bdi.binfo).damped then some bdi.index else none

/-- Every list is well formed, and dampening information is on the list where it belongs and on
no other. -/
def Rib.ListsConsistent (s : Rib) : Prop := s.damp.links.Lists s.damp.head s.place

/-- What the dampening code reads of a path: its information, and whether it is damped. -/
def Table.dampView (t : Table) (uid : Nat) : Option (Option Nat × Bool) :=
  (t.find uid).map fun p => (p.dampInfo, p.flags.damped)

structure Settled (s : Rib) (pending : List Nat) : Prop where
  placed : s.damp.links.Lists s.damp.head fun b => if b ∈ pending then none else s.place b
  owned : ∀ a bdi, s.damp.infos a = some bdi →
    ∃ damped, s.table.dampView bdi.binfo = some (some a, damped)
  live : ∀ v a damped, s.table.dampView v = some (some a, damped) →
    ∃ bdi, s.damp.infos a = some bdi ∧ bdi.binfo = v
  clean : ∀ v damped, s.table.dampView v = some (none, damped) → damped = false
  due : ∀ b ∈ pending, ∃ index, s.place b = some (some index)

/-- The invariant around `a`, which is on the list `slot` if any, and the path `u`. -/
structure Focus (s : Rib) (pending : List Nat) (a u : Nat) (slot : Option Slot) : Prop where
  placed : s.damp.links.Lists s.damp.head fun b =>
    if b = a then slot else if b ∈ pending then none else s.place b
  owned : ∀ b bdi, b ≠ a → s.damp.infos b = some bdi →
    bdi.binfo ≠ u ∧ ∃ damped, s.table.dampView bdi.binfo = some (some b, damped)
  live : ∀ v b damped, v ≠ u → s.table.dampView v = some (some b, damped) →
    b ≠ a ∧ ∃ bdi, s.damp.infos b = some bdi ∧ bdi.binfo = v
  clean : ∀ v damped, v ≠ u → s.table.dampView v = some (none, damped) → damped = false
  due : ∀ b ∈ pending, b ≠ a → ∃ index, s.place b = some (some index)

/-! ## Views of the table -/

namespace Table

variable {t t' : Table} {uid v a rounds : Nat} {f : Flags → Flags} {cfg : DampConfig}
  {damped attrChange : Bool} {pending rest : List Nat} {slot slot' : Option Slot} {bdi : DampInfo}

section

variable (t : Table)

section

variable (uid v : Nat)

theorem flagsOf_damped : (t.flagsOf uid).damped = ((t.dampView uid).map Prod.snd).getD false := by
  rw [flagsOf, dampView]
  cases t.find uid <;> rfl

theorem find_modify {f : Path → Path} (keeps : ∀ p, (f p).uid = p.uid) :
    (t.modify uid f).find v = if v = uid then (t.find v).map f else t.find v := by
  rw [find, modify, List.find?_map]
  have same : ((fun p : Path => p.uid == v) ∘ fun p => if p.uid = uid then f p else p) =
      fun p => p.uid == v := by
    funext p
    rw [comp_apply]
    split
    · rw [keeps]
    · rfl
  rw [same]
  change (t.find v).map _ = _
  cases found : t.find v with
  | none => simp
  | some p =>
    have here := find_uid found
    simp only [map_some, here]
    split <;> rfl

theorem dampView_modify {f : Path → Path} (keeps : ∀ p, (f p).uid = p.uid) :
    (t.modify uid f).dampView v =
      if v = uid then (t.find v).map fun p => ((f p).dampInfo, (f p).flags.damped)
      else t.dampView v := by
  rw [dampView, find_modify t uid v keeps]
  split
  · rw [map_map]
    rfl
  · rfl

theorem dampView_setDampInfo {a : Option Nat} : (t.setDampInfo uid a).dampView v =
      if v = uid then (t.dampView v).map fun view => (a, view.2) else t.dampView v := by
  rw [setDampInfo, dampView_modify, dampView, map_map]
  · rfl
  · exact fun _ => rfl

/-- Flags other than `DAMPED` are not seen. -/
theorem dampView_setFlags (keeps : ∀ flags, (f flags).damped = flags.damped) :
    (t.setFlags uid f).dampView v = t.dampView v := by
  rw [setFlags, dampView_modify, dampView]
  · simp only [keeps, ite_self]
  · exact fun _ => rfl

theorem dampView_pcountAdjust : (bgpPcountAdjust t uid).dampView v = t.dampView v := by
  unfold bgpPcountAdjust
  split
  · rfl
  · split
    · rfl
    · split
      · exact t.dampView_setFlags uid v (f := Flags.setCounted false) fun _ => rfl
      · split
        · exact t.dampView_setFlags uid v (f := Flags.setCounted true) fun _ => rfl
        · rfl

theorem dampView_infoFlag (keeps : ∀ flags, (f flags).damped = flags.damped) :
    (bgpInfoSetFlag t uid f).dampView v = t.dampView v :=
  (dampView_pcountAdjust _ uid v).trans (t.dampView_setFlags uid v keeps)

theorem dampView_infoFlag_damped (sets : ∀ flags, (f flags).damped = damped) :
    (bgpInfoSetFlag t uid f).dampView v =
      if v = uid then (t.dampView v).map fun view => (view.1, damped) else t.dampView v := by
  rw [bgpInfoSetFlag, dampView_pcountAdjust, setFlags, dampView_modify, dampView, map_map]
  · simp only [sets]
    rfl
  · exact fun _ => rfl

theorem dampView_infoDelete : (bgpInfoDelete t uid).dampView v = t.dampView v := by
  rw [bgpInfoDelete, dampView_setFlags, dampView_infoFlag]
  · exact fun _ => rfl
  · exact fun _ => rfl

theorem dampView_infoRestore : (bgpInfoRestore t uid).dampView v = t.dampView v := by
  rw [bgpInfoRestore, dampView_setFlags, dampView_infoFlag]
  · exact fun _ => rfl
  · exact fun _ => rfl

theorem dampView_ribRemove : (bgpRibRemove t uid).dampView v = t.dampView v := by
  unfold bgpRibRemove
  split
  · rfl
  · exact t.dampView_infoDelete uid v

end

theorem dampView_process (r : Reads) (node v : Nat) :
    (t.process r node).dampView v = t.dampView v := by
  have use := bgpProcessMain_sameUse r.bgp (r.infos t node) t.flagsOf r.mpathChanged
  rw [dampView, dampView, find, process, List.find?_map]
  have same : ((fun p : Path => p.uid == v) ∘ fun p => if (p.linked && p.node == node) = true then
      { p with
        flags := (bgpProcessMain r.bgp (r.infos t node) t.flagsOf r.mpathChanged).flags p.uid
        linked := decide (r.info p ∈
          (bgpProcessMain r.bgp (r.infos t node) t.flagsOf r.mpathChanged).paths) }
      else p) = fun p => p.uid == v := by
    funext p
    rw [comp_apply]
    split <;> rfl
  rw [same]
  change ((t.find v).map _).map _ = _
  cases found : t.find v with
  | none => rfl
  | some p =>
    have here := find_uid found
    rw [map_some, map_some, map_some]
    split
    · have flags : t.flagsOf v = p.flags := by
        rw [flagsOf, found]
        rfl
      dsimp only
      rw [use.damped, here, flags]
    · rfl

end

end Table

variable {damp : Damp} {ri : Path} {status : DampStatus}

/-! ## The invariant around one element -/

section

variable {s : Rib} {u : Nat}

theorem Rib.place_congr {table : Table} {b : Nat} (same : ∀ bdi, s.damp.infos b = some bdi →
      table.dampView bdi.binfo = s.table.dampView bdi.binfo) :
    place ⟨table, s.damp⟩ b = s.place b := by
  rw [place, place]
  cases info : s.damp.infos b with
  | none => rfl
  | some bdi =>
    rw [map_some, map_some, flagsOf_damped, flagsOf_damped, same bdi info]

theorem Settled.congr (h : Settled s pending) {table : Table}
    (same : ∀ v, table.dampView v = s.table.dampView v) : Settled ⟨table, s.damp⟩ pending := by
  have place : ∀ b, place ⟨table, s.damp⟩ b = s.place b :=
    fun b => place_congr fun bdi _ => same bdi.binfo
  refine ⟨h.placed.congr fun b => ?_, fun b bdi info => ?_, fun v b damped view => ?_,
    fun v damped view => ?_, fun b mem => ?_⟩
  · rw [place]
  · rw [same]
    exact h.owned b bdi info
  · exact h.live v b damped ((same v).symm.trans view)
  · exact h.clean v damped ((same v).symm.trans view)
  · rw [place]
    exact h.due b mem

theorem Focus.table (h : Focus s pending a u slot) {table : Table}
    (same : ∀ v, v ≠ u → table.dampView v = s.table.dampView v) :
    Focus ⟨table, s.damp⟩ pending a u slot := by
  have place : ∀ b, b ≠ a → place ⟨table, s.damp⟩ b = s.place b :=
    fun b differ => place_congr fun bdi info => same _ (h.owned b bdi differ info).1
  refine ⟨h.placed.congr fun b => ?_, fun b bdi differ info => ?_, fun v b damped other view => ?_,
    fun v damped other view => ?_, fun b mem differ => ?_⟩
  · by_cases here : b = a
    · rw [if_pos here, if_pos here]
    · rw [if_neg here, if_neg here, place b here]
  · rw [same _ (h.owned b bdi differ info).1]
    exact h.owned b bdi differ info
  · exact h.live v b damped other ((same v other).symm.trans view)
  · exact h.clean v damped other ((same v other).symm.trans view)
  · rw [place b differ]
    exact h.due b mem differ

theorem Focus.renew (h : Focus s pending a u slot)
    (infos : ∀ b, b ≠ a → damp.infos b = s.damp.infos b)
    (placed : damp.links.Lists damp.head fun b => if b = a then slot' else
      if b ∈ pending then none else s.place b) : Focus ⟨s.table, damp⟩ pending a u slot' := by
  have place : ∀ b, b ≠ a → place ⟨s.table, damp⟩ b = s.place b := by
    intro b differ
    rw [place, place, infos b differ]
  refine ⟨placed.congr fun b => ?_, fun b bdi differ info => ?_, fun v b damped other view => ?_,
    h.clean, fun b mem differ => ?_⟩
  · by_cases here : b = a
    · rw [if_pos here, if_pos here]
    · rw [if_neg here, if_neg here, place b here]
  · exact h.owned b bdi differ ((infos b differ).symm.trans info)
  · obtain ⟨differ, bdi, info, own⟩ := h.live v b damped other view
    exact ⟨differ, bdi, (infos b differ).trans info, own⟩
  · rw [place b differ]
    exact h.due b mem differ

theorem Focus.setInfo (h : Focus s pending a u slot) (bdi : Option DampInfo) :
    Focus ⟨s.table, s.damp.setInfo a bdi⟩ pending a u slot :=
  h.renew (fun _ differ => update_of_ne differ _ _) h.placed

theorem Damp.head_setHead {d : Damp} {slot : Slot} {head : Option Nat} :
    (d.setHead slot head).head = update d.head slot head := by
  funext other
  cases slot <;> cases other <;> simp [setHead, Damp.head, Function.update_apply]

theorem Damp.infos_setHead (d : Damp) (slot : Slot) (head : Option Nat) :
    (d.setHead slot head).infos = d.infos := by
  cases slot <;> rfl

/-- The element `a` is moved by a list operation. -/
theorem Focus.move (h : Focus s pending a u slot) (infos : damp.infos = s.damp.infos)
    (placed : damp.links.Lists damp.head (update (fun b => if b = a then slot else
      if b ∈ pending then none else s.place b) a slot')) :
    Focus ⟨s.table, damp⟩ pending a u slot' := by
  refine h.renew (fun b _ => by rw [infos]) (placed.congr fun b => ?_)
  by_cases here : b = a
  · rw [if_pos here, here, Function.update_self]
  · rw [if_neg here, update_of_ne here, if_neg here]

theorem Focus.listAdd (h : Focus s pending a u none) {slot : Slot}
    (run : s.damp.listAdd slot a = some damp) :
    Focus ⟨s.table, damp⟩ pending a u (some slot) ∧ damp.infos = s.damp.infos ∧
      damp.links = s.damp.links.push (s.damp.head slot) a := by
  unfold Damp.listAdd at run
  split at run
  · cases run
    have infos := s.damp.infos_setHead slot (some a)
    refine ⟨h.move infos ?_, infos, rfl⟩
    have placed := h.placed.push (a := a) (if_pos rfl) slot
    rwa [← head_setHead] at placed
  · cases run

theorem Focus.listDel {slot : Slot} (h : Focus s pending a u (some slot))
    (run : s.damp.listDel slot a = some damp) :
    Focus ⟨s.table, damp⟩ pending a u none ∧ damp.infos = s.damp.infos := by
  unfold Damp.listDel at run
  split at run
  · cases run
    have infos := s.damp.infos_setHead slot (s.damp.links.unlink (s.damp.head slot) a).2
    refine ⟨h.move infos ?_, infos⟩
    have placed := h.placed.unlink (a := a) (if_pos rfl)
    rwa [← head_setHead] at placed
  · cases run

end

/-! ## Coming to and leaving an element -/

/-- The invariant around `a`, whose information is `bdi` and whose path is `damped` or not. -/
structure At (s : Rib) (pending : List Nat) (a : Nat) (bdi : DampInfo) (damped : Bool)
    (slot : Option Slot) : Prop extends Focus s pending a bdi.binfo slot where
  info : s.damp.infos a = some bdi
  view : s.table.dampView bdi.binfo = some (some a, damped)

section

variable {s s' : Rib}

theorem Rib.place_eq (info : s.damp.infos a = some bdi)
    (view : s.table.dampView bdi.binfo = some (some a, damped)) :
    s.place a = some (if damped then some bdi.index else none) := by
  rw [place, info, map_some, flagsOf_damped, view]
  rfl

theorem Settled.focus (h : Settled s pending) (rest : List Nat) (slot : Option Slot)
    (info : s.damp.infos a = some bdi) (sub : ∀ b ∈ rest, b ∈ pending)
    (placed : ∀ b, (if b = a then slot else if b ∈ rest then none else s.place b) =
      if b ∈ pending then none else s.place b) :
    ∃ damped, At s rest a bdi damped slot := by
  obtain ⟨damped, view⟩ := h.owned a bdi info
  refine ⟨damped, ⟨h.placed.congr placed, fun b bdi' differ other => ?_,
    fun v b damped' apart other => ?_, fun v damped' _ => h.clean v damped',
    fun b mem _ => h.due b (sub b mem)⟩, info, view⟩
  · obtain ⟨damped', view'⟩ := h.owned b bdi' other
    refine ⟨fun same => ?_, damped', view'⟩
    rw [same, view] at view'
    exact differ (by simpa using congrArg Prod.fst (some.inj view'.symm))
  · obtain ⟨bdi', info', own⟩ := h.live v b damped' other
    refine ⟨fun same => ?_, bdi', info', own⟩
    rw [same, info] at info'
    exact apart (by rw [← own, some.inj info'])

theorem At.flag (h : At s pending a bdi damped slot)
    (found : s.table.find bdi.binfo = some binfo) : binfo.flags.damped = damped := by
  have view := h.view
  rw [dampView, found] at view
  simpa using congrArg Prod.snd (some.inj view)

/-- An element is on the list where it belongs. -/
theorem Settled.at (h : Settled s []) (info : s.damp.infos a = some bdi) :
    ∃ damped, At s [] a bdi damped (some (if damped then some bdi.index else none)) := by
  obtain ⟨damped, here⟩ := h.focus [] (s.place a) info (by simp) fun b => by
    by_cases same : b = a
    · rw [if_pos same, same]
      rfl
    · rw [if_neg same]
  exact ⟨damped, place_eq info here.view ▸ here⟩

theorem Settled.at_path (h : Settled s []) (found : s.table.find uid = some ri)
    (has : ri.dampInfo = some a) (info : s.damp.infos a = some bdi) :
    bdi.binfo = uid ∧
      At s [] a bdi ri.flags.damped (some (if ri.flags.damped then some bdi.index else none)) := by
  have view : s.table.dampView uid = some (some a, ri.flags.damped) := by
    rw [dampView, found, ← has]
    rfl
  obtain ⟨bdi', info', own⟩ := h.live uid a _ view
  cases info.symm.trans info'
  obtain ⟨damped, here⟩ := h.at info
  rw [← own] at found
  exact ⟨own, here.flag found ▸ here⟩

theorem Settled.first (h : Settled s (a :: rest))
    (info : s.damp.infos a = some bdi) : At s rest a bdi true none := by
  obtain ⟨damped, here⟩ := h.focus rest none info (fun b mem => by simp [mem]) fun b => by
    by_cases same : b = a
    · rw [if_pos same, if_pos (by simp [same])]
    · simp [same]
  obtain ⟨index, place⟩ := h.due a (by simp)
  rw [place_eq info here.view] at place
  cases damped with
  | true => exact here
  | false => simp at place

theorem Settled.fresh (h : Settled s []) (free : s.damp.infos a = none) {u : Nat}
    (view : s.table.dampView u = some (none, damped)) : Focus s [] a u none := by
  refine ⟨h.placed.congr fun b => ?_, fun b bdi differ info => ?_, fun v b damped' _ other => ?_,
    fun v damped' _ => h.clean v damped', fun b mem _ => h.due b mem⟩
  · by_cases same : b = a
    · rw [if_pos same, same, place, free]
      rfl
    · rw [if_neg same]
  · obtain ⟨damped', own⟩ := h.owned b bdi info
    refine ⟨fun same => ?_, damped', own⟩
    rw [same, view] at own
    simp at own
  · obtain ⟨bdi, info, own⟩ := h.live v b damped' other
    refine ⟨fun same => ?_, bdi, info, own⟩
    rw [same, free] at info
    cases info

theorem At.settled (h : At s pending a bdi damped (some (if damped then some bdi.index else none)))
    (apart : a ∉ pending) : Settled s pending := by
  have place := place_eq h.info h.view
  refine ⟨h.placed.congr fun b => ?_, fun b bdi' info => ?_, fun v b damped' view => ?_,
    fun v damped' view => ?_, fun b mem => h.due b mem (ne_of_mem_of_not_mem mem apart)⟩
  · by_cases same : b = a
    · rw [if_pos same, same, if_neg apart, place]
    · rw [if_neg same]
  · by_cases same : b = a
    · rw [same, h.info] at info
      rw [same, ← some.inj info]
      exact ⟨damped, h.view⟩
    · exact (h.owned b bdi' same info).2
  · by_cases same : v = bdi.binfo
    · rw [same, h.view] at view
      obtain ⟨rfl, -⟩ : a = b ∧ damped = damped' := by simpa using view
      exact ⟨bdi, h.info, same.symm⟩
    · exact (h.live v b damped' same view).2
  · by_cases same : v = bdi.binfo
    · rw [same, h.view] at view
      simp at view
    · exact h.clean v damped' same view

/-- An element that has been freed, and whose path has none any more. -/
theorem Focus.settled {u : Nat} (h : Focus s [] a u none) (free : s.damp.infos a = none)
    (view : s.table.dampView u = some (none, false)) : Settled s [] := by
  refine ⟨h.placed.congr fun b => ?_, fun b bdi info => ?_, fun v b damped' other => ?_,
    fun v damped' other => ?_, by simp⟩
  · by_cases same : b = a
    · rw [if_pos same, same, place, free]
      simp
    · rw [if_neg same]
  · refine (h.owned b bdi (fun same => ?_) info).2
    rw [same, free] at info
    cases info
  · refine (h.live v b damped' (fun same => ?_) other).2
    rw [same, view] at other
    simp at other
  · by_cases same : v = u
    · rw [same, view] at other
      simpa using other.symm
    · exact h.clean v damped' same other

end

/-! ## Steps at an element -/

namespace At

variable {s s' : Rib}

section

variable (h : At s pending a bdi damped slot)

include h

theorem setHistory (b : Bool) :
    At (s.infoFlag bdi.binfo fun flags => { flags with history := b }) pending a bdi damped slot :=
  have same v := s.table.dampView_infoFlag bdi.binfo v
    (f := fun flags => { flags with history := b }) fun _ => rfl
  ⟨h.toFocus.table fun v _ => same v, h.info, (same bdi.binfo).trans h.view⟩

theorem setDamped (b : Bool) :
    At (s.infoFlag bdi.binfo fun flags => { flags with damped := b }) pending a bdi b slot := by
  have view v := s.table.dampView_infoFlag_damped bdi.binfo v
    (f := fun flags => { flags with damped := b }) fun _ => rfl
  refine ⟨h.toFocus.table fun v other => ?_, h.info, ?_⟩
  · exact (view v).trans (if_neg other)
  · refine (view bdi.binfo).trans ?_
    rw [if_pos rfl, h.view]
    rfl

theorem setInfo (bdi' : DampInfo)
    (same : bdi'.binfo = bdi.binfo) : At (s.setInfo a bdi') pending a bdi' damped slot := by
  refine ⟨?_, by simp [Rib.setInfo, Damp.setInfo], ?_⟩
  · rw [same]
    exact h.toFocus.setInfo (some bdi')
  · rw [same]
    exact h.view

end

theorem settled_setInfo (h : At s pending a bdi damped (some (if damped then some bdi.index else none)))
    (apart : a ∉ pending) {bdi' : DampInfo} (binfo : bdi'.binfo = bdi.binfo)
    (index : bdi'.index = bdi.index) : Settled (s.setInfo a bdi') pending := by
  have written := h.setInfo bdi' binfo
  rw [← index] at written
  exact written.settled apart

theorem dampListAdd (h : At s pending a bdi damped none)
    (run : s.onDamp (fun d => bgpDampListAdd d a) = some s') :
    At s' pending a bdi damped (some none) ∧
      (∀ b, b ≠ a → s'.damp.infos b = s.damp.infos b) ∧
      ∃ slot, s'.damp.links = s.damp.links.push (s.damp.head slot) a := by
  obtain ⟨d, added, rfl⟩ := map_eq_some_iff.mp run
  obtain ⟨here, infos, links⟩ := h.toFocus.listAdd added
  exact ⟨⟨here, infos.symm ▸ h.info, h.view⟩, fun b _ => congrFun infos b, none, links⟩

theorem dampListDel (h : At s pending a bdi damped (some none))
    (run : s.onDamp (fun d => bgpDampListDel d a) = some s') :
    At s' pending a bdi damped none := by
  obtain ⟨d, deleted, rfl⟩ := map_eq_some_iff.mp run
  obtain ⟨here, infos⟩ := h.toFocus.listDel deleted
  exact ⟨here, infos.symm ▸ h.info, h.view⟩

theorem reuseListAdd (h : At s pending a bdi damped none)
    (run : s.onDamp (fun d => bgpReuseListAdd cfg d a) = some s') :
    ∃ index, At s' pending a { bdi with index } damped (some (some index)) ∧
      (∀ b, b ≠ a → s'.damp.infos b = s.damp.infos b) ∧
      ∃ slot, s'.damp.links = s.damp.links.push (s.damp.head slot) a := by
  obtain ⟨d, added, rfl⟩ := map_eq_some_iff.mp run
  simp only [bgpReuseListAdd, bind_eq_bind, h.info, bind_some] at added
  set index := bgpReuseIndex cfg s.damp bdi.penalty
  have moved : At (s.setInfo a { bdi with index }) pending a { bdi with index } damped none :=
    h.setInfo _ rfl
  obtain ⟨here, infos, links⟩ := moved.toFocus.listAdd added
  refine ⟨index, ⟨here, infos.symm ▸ moved.info, h.view⟩, fun b differ => ?_, some index, links⟩
  exact (congrFun infos b).trans (update_of_ne differ _ _)

theorem reuseListDelete (h : At s pending a bdi damped (some (some bdi.index)))
    (run : s.onDamp (fun d => bgpReuseListDelete d a) = some s') :
    At s' pending a bdi damped none := by
  obtain ⟨d, deleted, rfl⟩ := map_eq_some_iff.mp run
  simp only [bgpReuseListDelete, bind_eq_bind, h.info, bind_some] at deleted
  obtain ⟨here, infos⟩ := h.toFocus.listDel deleted
  exact ⟨here, infos.symm ▸ h.info, h.view⟩

end At

/-! ## The functions -/

section

variable {s s' : Rib} {uid : Nat} {tNow : Int}

theorem bgpDampInfoFree_settled (h : Settled s []) {withdraw : Bool}
    (run : bgpDampInfoFree s a withdraw = some s') :
    Settled s' [] ∧ ∀ u damped, s.table.dampView u = some (some a, damped) →
      s'.table.dampView u = some (none, false) := by
  simp only [bgpDampInfoFree, bind_eq_bind, bind_eq_some_iff] at run
  obtain ⟨bdi, info, binfo, found, s₁, deleted, last⟩ := run
  obtain ⟨damped, here⟩ := h.at info
  have view : (s.table.setDampInfo bdi.binfo none).dampView bdi.binfo = some (none, damped) := by
    rw [dampView_setDampInfo, if_pos rfl, here.view]
    rfl
  have owner : Focus ⟨s.table.setDampInfo bdi.binfo none, s.damp⟩ [] a bdi.binfo
      (some (if damped then some bdi.index else none)) :=
    here.toFocus.table fun v other => by rw [dampView_setDampInfo, if_neg other]
  have off : Focus s₁ [] a bdi.binfo none ∧ s₁.table = s.table.setDampInfo bdi.binfo none := by
    rw [here.flag found] at deleted
    obtain ⟨d, unlinked, rfl⟩ := map_eq_some_iff.mp deleted
    refine ⟨?_, rfl⟩
    dsimp only at unlinked
    split at unlinked
    · next down =>
      rw [if_pos down] at owner
      simp only [bgpReuseListDelete, bind_eq_bind, info, bind_some] at unlinked
      exact (owner.listDel unlinked).1
    · next up =>
      rw [if_neg up] at owner
      exact (owner.listDel unlinked).1
  obtain ⟨off, table⟩ := off
  have cleared : ∀ v, (bgpInfoSetFlag s₁.table bdi.binfo
      fun flags => { flags with history := false, damped := false }).dampView v =
      if v = bdi.binfo then (s₁.table.dampView v).map fun view => (view.1, false)
      else s₁.table.dampView v :=
    fun v => s₁.table.dampView_infoFlag_damped bdi.binfo v fun _ => rfl
  cases last
  set table' := if bdi.lastrecord = .withdraw ∧ withdraw = true then
      bgpInfoDelete (bgpInfoSetFlag s₁.table bdi.binfo
        fun flags => { flags with history := false, damped := false }) bdi.binfo
    else bgpInfoSetFlag s₁.table bdi.binfo
      fun flags => { flags with history := false, damped := false } with htable
  have views : ∀ v, table'.dampView v =
      if v = bdi.binfo then (s₁.table.dampView v).map fun view => (view.1, false)
      else s₁.table.dampView v := by
    intro v
    rw [htable, ← cleared]
    split
    · exact dampView_infoDelete _ _ _
    · rfl
  have gone : table'.dampView bdi.binfo = some (none, false) := by
    rw [views, if_pos rfl, table, view]
    rfl
  have last : Focus ⟨table', s₁.damp⟩ [] a bdi.binfo none :=
    off.table fun v other => by rw [views, if_neg other]
  refine ⟨(last.setInfo none).settled (by simp [Damp.setInfo]) gone, fun u damped' owns => ?_⟩
  obtain ⟨bdi', info', own⟩ := h.live u a damped' owns
  cases info.symm.trans info'
  rw [← own]
  exact gone

theorem dampPenalty_at (h : Settled s []) (found : s.table.find uid = some ri) {addr last : Nat}
    (run : dampPenalty cfg s ri attrChange tNow addr = some (a, last, s')) :
    ∃ bdi, bdi.binfo = uid ∧ At s' [] a bdi ri.flags.damped
      (some (if ri.flags.damped then some bdi.index else none)) := by
  have view : s.table.dampView uid = some (ri.dampInfo, ri.flags.damped) := by
    rw [dampView, found]
    rfl
  have own := find_uid found
  unfold dampPenalty at run
  split at run
  · next new =>
    rw [new] at view
    have used : ri.flags.damped = false := h.clean uid _ view
    split at run
    · cases run
    · next free =>
      simp only [bind_eq_bind, bind_eq_some_iff, Option.some.injEq, Prod.mk.injEq] at run
      obtain ⟨s₁, added, rfl, -, rfl⟩ := run
      have fresh : Focus s [] addr uid none := h.fresh (by simpa [alive] using free) view
      rw [own] at added
      obtain ⟨d, pushed, rfl⟩ := map_eq_some_iff.mp added
      set bdi : DampInfo := ⟨defaultPenalty attrChange, 0, 0, uid, 0, .withdraw⟩
      have known : Focus ⟨s.table.setDampInfo uid (some addr), s.damp.setInfo addr (some bdi)⟩
          [] addr uid none :=
        (fresh.setInfo (some bdi)).table fun v other => by
          rw [dampView_setDampInfo, if_neg other]
      obtain ⟨here, infos, -⟩ := known.listAdd pushed
      refine ⟨bdi, rfl, ?_⟩
      rw [used]
      refine ⟨here, ?_, ?_⟩
      · show d.infos addr = some bdi
        rw [infos]
        simp [Damp.setInfo]
      · show (s.table.setDampInfo uid (some addr)).dampView uid = _
        rw [dampView_setDampInfo, if_pos rfl, view, used]
        rfl
  · next b has =>
    simp only [bind_eq_bind, bind_eq_some_iff, Option.some.injEq, Prod.mk.injEq] at run
    obtain ⟨bdi, info, rfl, -, rfl⟩ := run
    obtain ⟨binfo, here⟩ := h.at_path found has info
    exact ⟨{ bdi with
      penalty := min cfg.ceiling
        (cfg.decay (tNow - bdi.tUpdated) bdi.penalty + defaultPenalty attrChange) },
      binfo, here.setInfo _ rfl⟩

theorem bgpDampWithdraw_settled (h : Settled s []) {addr : Nat}
    (run : bgpDampWithdraw cfg s uid attrChange tNow addr = some (status, s')) :
    Settled s' [] := by
  simp only [bgpDampWithdraw, bind_eq_bind, bind_eq_some_iff] at run
  obtain ⟨ri, found, ⟨a, last, s₁⟩, penalty, bdi, info, run⟩ := run
  obtain ⟨bdi', binfo, here⟩ := dampPenalty_at h found penalty
  cases here.info.symm.trans info
  subst binfo
  split at run
  · cases run
  · -- the path is made historical
    have history := (here.setInfo { bdi with lastrecord := .withdraw, tUpdated := tNow }
      rfl).setHistory true
    split at run
    · next damped =>
      rw [damped] at history
      split at run
      · simp only [bind_eq_some_iff, Option.some.injEq, Prod.mk.injEq] at run
        obtain ⟨s₂, deleted, s₃, added, -, rfl⟩ := run
        obtain ⟨index, again, -⟩ := (history.reuseListDelete deleted).reuseListAdd added
        exact again.settled (by simp)
      · cases run
        exact history.settled (by simp)
    · next used =>
      rw [Bool.not_eq_true] at used
      rw [used] at history
      split at run
      · simp only [bind_eq_some_iff, Option.some.injEq, Prod.mk.injEq] at run
        obtain ⟨s₂, deleted, s₃, added, -, rfl⟩ := run
        have suppressed := (history.setDamped true).setInfo
          { bdi with lastrecord := .withdraw, tUpdated := tNow, suppressTime := tNow } rfl
        obtain ⟨index, again, -⟩ := (suppressed.dampListDel deleted).reuseListAdd added
        exact again.settled (by simp)
      · cases run
        exact history.settled (by simp)

/-- However it is decided, the element is where its path's flag says. -/
theorem dampReuse_at (h : At s [] a bdi damped (some (if damped then some bdi.index else none)))
    (run : dampReuse cfg s bdi.binfo a bdi = some (status, s')) :
    ∃ bdi' damped', bdi'.binfo = bdi.binfo ∧
      At s' [] a bdi' damped' (some (if damped' then some bdi'.index else none)) := by
  simp only [dampReuse, bind_eq_bind, bind_eq_some_iff] at run
  obtain ⟨binfo, found, run⟩ := run
  rw [h.flag found] at run
  split at run
  · cases run
    exact ⟨bdi, damped, rfl, h⟩
  · split at run
    · next reuse =>
      rw [Bool.and_eq_true] at reuse
      rw [reuse.1] at h
      simp only [bind_eq_some_iff, Option.some.injEq, Prod.mk.injEq] at run
      obtain ⟨s₁, deleted, s₂, added, -, rfl⟩ := run
      have cleared := h.setDamped false
      have moved := ((cleared.reuseListDelete deleted).dampListAdd added).1
      exact ⟨{ bdi with suppressTime := 0 }, false, rfl, moved.setInfo _ rfl⟩
    · cases run
      exact ⟨bdi, damped, rfl, h⟩

theorem bgpDampUpdate_settled (h : Settled s [])
    (run : bgpDampUpdate cfg s uid tNow = some (status, s')) : Settled s' [] := by
  simp only [bgpDampUpdate, bind_eq_bind, bind_eq_some_iff] at run
  obtain ⟨ri, found, run⟩ := run
  split at run
  · cases run
    exact h
  · next a has =>
    simp only [bind_eq_some_iff] at run
    obtain ⟨bdi, info, ⟨status', s₁⟩, reused, bdi', info', run⟩ := run
    obtain ⟨rfl, here⟩ := h.at_path found has info
    have updated := (here.setHistory false).setInfo { bdi with
        lastrecord := .update, penalty := cfg.decay (tNow - bdi.tUpdated) bdi.penalty } rfl
    obtain ⟨bdi₂, damped₂, same, decided⟩ := dampReuse_at updated reused
    cases decided.info.symm.trans info'
    split at run
    · cases run
      exact decided.settled_setInfo (by simp) rfl rfl
    · simp only [bind_eq_some_iff, Option.some.injEq, Prod.mk.injEq] at run
      obtain ⟨s₂, freed, -, rfl⟩ := run
      exact (bgpDampInfoFree_settled (decided.settled (by simp)) freed).1

theorem bgpDampScan_settled (h : Settled s []) (run : bgpDampScan cfg s uid tNow = some s') :
    Settled s' [] := by
  simp only [bgpDampScan, bind_eq_bind, bind_eq_some_iff] at run
  obtain ⟨ri, found, a, has, bdi, info, run⟩ := run
  obtain ⟨rfl, here⟩ := h.at_path found has info
  split at run
  · next damped =>
    rw [damped] at here
    split at run
    · simp only [bind_eq_some_iff, Option.some.injEq] at run
      obtain ⟨s₁, deleted, s₂, added, rfl⟩ := run
      have cleared := here.setDamped false
      have moved := ((cleared.reuseListDelete deleted).dampListAdd added).1
      exact moved.settled_setInfo (by simp) rfl rfl
    · cases run
      exact h
  · split at run
    · refine (bgpDampInfoFree_settled ?_ run).1
      exact here.settled_setInfo (by simp) rfl rfl
    · cases run
      exact here.settled_setInfo (by simp) rfl rfl

end

/-! ## The reuse timer -/

section

variable {s s' : Rib} {tNow : Int}

theorem bgpReuseVisit_settled (h : Settled s (a :: rest)) (apart : a ∉ rest)
    (stays : ∀ bdi, s.damp.infos a = some bdi →
      cfg.reuseLimit < 2 * cfg.decay (tNow - bdi.tUpdated) bdi.penalty)
    (run : bgpReuseVisit cfg tNow s a = some s') :
    Settled s' rest ∧ (∀ b, b ≠ a → s'.damp.infos b = s.damp.infos b) ∧
      ∃ slot, s'.damp.links = s.damp.links.push (s.damp.head slot) a := by
  simp only [bgpReuseVisit, bind_eq_bind, bind_eq_some_iff] at run
  obtain ⟨bdi, info, binfo, found, run⟩ := run
  have here := h.first info
  split at run
  · rw [if_neg (not_le.mpr (stays bdi info))] at run
    set bdi' : DampInfo := { bdi with
      penalty := cfg.decay (tNow - bdi.tUpdated) bdi.penalty
      tUpdated := tNow
      suppressTime := 0 }
    have cleared := (here.setDamped false).setInfo bdi' rfl
    -- whether the path is historical makes no difference here
    have reused : ∃ s₁ : Rib, At s₁ rest a bdi' false none ∧
        s₁.damp = s.damp.setInfo a (some bdi') ∧
        s₁.onDamp (fun d => bgpDampListAdd d a) = some s' := by
      split at run
      · exact ⟨_, cleared.setHistory false,
          rfl, run⟩
      · exact ⟨_, cleared, rfl, run⟩
    obtain ⟨s₁, ready, damp, added⟩ := reused
    obtain ⟨moved, infos, slot, links⟩ := ready.dampListAdd added
    rw [damp] at links infos
    refine ⟨moved.settled apart, fun b differ => ?_, slot, ?_⟩
    · exact (infos b differ).trans (update_of_ne differ _ _)
    · cases slot <;> exact links
  · have updated := here.setInfo { bdi with
      penalty := cfg.decay (tNow - bdi.tUpdated) bdi.penalty
      tUpdated := tNow } rfl
    obtain ⟨index, moved, infos, slot, links⟩ := updated.reuseListAdd run
    refine ⟨moved.settled apart, fun b differ => ?_, slot, ?_⟩
    · exact (infos b differ).trans (update_of_ne differ _ _)
    · cases slot <;> exact links

/-- The loop of the timer empties the detached list. -/
theorem bgpReuseLoop_settled {cur : Option Nat}
    (h : Settled s pending) (walk : s.damp.links.Walk cur pending)
    (stays : ∀ a ∈ pending, ∀ bdi, s.damp.infos a = some bdi →
      cfg.reuseLimit < 2 * cfg.decay (tNow - bdi.tUpdated) bdi.penalty)
    (run : bgpReuseLoop cfg tNow rounds cur s = some s') : Settled s' [] := by
  induction pending generalizing s cur rounds with
  | nil =>
    rw [show cur = none from walk] at run
    cases rounds <;> cases run <;> exact h
  | cons a rest ih =>
    obtain ⟨rfl, next⟩ := walk
    have whole : s.damp.links.Walk (some a) (a :: rest) := ⟨rfl, next⟩
    have apart : a ∉ rest := (List.nodup_cons.mp whole.nodup).1
    cases rounds with
    | zero => cases run
    | succ rounds =>
      simp only [bgpReuseLoop, bind_eq_bind, bind_eq_some_iff] at run
      obtain ⟨s₁, visited, run⟩ := run
      obtain ⟨settled, infos, slot, links⟩ :=
        bgpReuseVisit_settled h apart (stays a (by simp)) visited
      refine ih settled ?_ (fun b mem bdi info => ?_) run
      · rw [links]
        exact next.push apart
      · rw [infos b (ne_of_mem_of_not_mem mem apart)] at info
        exact stays b (by simp [mem]) bdi info

/-- No path that is due has a penalty so low that the timer frees its information. -/
def Rib.ReuseKeeps (cfg : DampConfig) (s : Rib) (tNow : Int) : Prop :=
  ∀ p ∈ s.table.paths, ∀ a ∈ p.dampInfo, ∀ bdi ∈ s.damp.infos a, p.flags.damped = true →
    bdi.index = s.damp.reuseOffset →
      cfg.reuseLimit < 2 * cfg.decay (tNow - bdi.tUpdated) bdi.penalty

theorem bgpReuseTimer_settled (h : Settled s []) (keeps : s.ReuseKeeps cfg tNow)
    (run : bgpReuseTimer cfg tNow rounds s = some s') : Settled s' [] := by
  obtain ⟨pending, walk, mem, placed⟩ := h.placed.detach (some s.damp.reuseOffset)
  simp only [List.not_mem_nil, if_false] at mem placed
  have settled : Settled ⟨s.table, { s.damp.setHead (some s.damp.reuseOffset) none with
      reuseOffset := (s.damp.reuseOffset + 1) % cfg.reuseListSize }⟩ pending := by
    refine ⟨?_, h.owned, h.live, h.clean, fun b due => ⟨_, (mem b).mp due⟩⟩
    rw [← head_setHead] at placed
    exact placed
  refine bgpReuseLoop_settled settled walk (fun a due bdi info => ?_) run
  -- the path that owns it is damped and due
  obtain ⟨damped, view⟩ := h.owned a bdi info
  have place := (mem a).mp due
  rw [place_eq (s := s) info view] at place
  cases damped with
  | false => simp at place
  | true =>
    have index : bdi.index = s.damp.reuseOffset := by simpa using place
    obtain ⟨p, found, same⟩ := map_eq_some_iff.mp view
    obtain ⟨own, flag⟩ := Prod.mk.inj same
    exact keeps p (find_mem found) a own bdi info flag index

end

/-! ## Updates, withdraws and processing -/

section

variable {s s' : Rib} (h : Settled s [])

include h

/-- A path without dampening information comes or goes. -/
theorem Settled.path {table : Table} (uid : Nat)
    (before : ∀ b damped, s.table.dampView uid ≠ some (some b, damped))
    (after : ∀ view, table.dampView uid = some view → view = (none, false))
    (same : ∀ v, v ≠ uid → table.dampView v = s.table.dampView v) :
    Settled ⟨table, s.damp⟩ [] := by
  have other : ∀ b bdi, s.damp.infos b = some bdi → bdi.binfo ≠ uid := by
    intro b bdi info here
    obtain ⟨damped, view⟩ := h.owned b bdi info
    exact before b damped (here ▸ view)
  refine ⟨h.placed.congr fun b => ?_, fun b bdi info => ?_, fun v b damped view => ?_,
    fun v damped view => ?_, by simp⟩
  · rw [place_congr fun bdi info => same _ (other b bdi info)]
  · rw [same _ (other b bdi info)]
    exact h.owned b bdi info
  · have apart : v ≠ uid := by
      intro here
      exact absurd (after _ (here ▸ view)) (by simp)
    exact h.live v b damped ((same v apart).symm.trans view)
  · by_cases here : v = uid
    · exact (Prod.mk.inj (after _ (here ▸ view))).2
    · exact h.clean v damped ((same v here).symm.trans view)

omit h in
theorem settled_kept : Kept cfg fun _ s => Settled s [] where
  weaken _ h := h
  remove _ h := h.congr (dampView_ribRemove _ _)
  withdraw h run := bgpDampWithdraw_settled h run
  update h run := .inl (bgpDampUpdate_settled h run)
  check _ h := h.congr fun v => dampView_infoFlag _ _ v fun _ => rfl
  flags uid h keeps := h.congr fun v =>
    dampView_setFlags _ uid v fun flags => (keeps flags).2.2.2
  restore h _ _ := h.congr fun v => dampView_infoRestore _ _ v
  replace _ h := by
    apply h.congr
    intro v
    rw [dampView_modify, dampView]
    · exact ite_self _
    · exact fun _ => rfl
  add u h fresh := by
    refine h.path u.newUid (fun b damped => ?_) (fun view => ?_) fun v other => ?_
    · rw [dampView, fresh]
      simp
    · rw [dampView, find, List.find?_cons_of_pos (by simp)]
      intro view
      exact (some.inj view).symm
    · rw [dampView, find, List.find?_cons_of_neg (by simpa using Ne.symm other)]
      rfl

theorem bgpInfoUnlock_settled {uid : Nat}
    (run : bgpInfoUnlock s uid = some s') : Settled s' [] := by
  simp only [bgpInfoUnlock, bind_eq_bind, bind_eq_some_iff] at run
  obtain ⟨ri, found, run⟩ := run
  split at run
  · cases run
    exact h
  · simp only [bind_eq_some_iff] at run
    obtain ⟨s₁, freed, last⟩ := run
    have freed : Settled s₁ [] ∧ ∀ b damped, s₁.table.dampView uid ≠ some (some b, damped) := by
      have view : s.table.dampView uid = some (ri.dampInfo, ri.flags.damped) := by
        rw [dampView, found]
        rfl
      unfold bgpInfoExtraFree at freed
      split at freed
      · next a has =>
        obtain ⟨settled, gone⟩ := bgpDampInfoFree_settled h freed
        refine ⟨settled, fun b damped => ?_⟩
        rw [gone uid _ (has ▸ view)]
        simp
      · next has =>
        cases freed
        refine ⟨h, fun b damped => ?_⟩
        rw [view, has]
        simp
    cases last
    have found : ∀ v, find { s₁.table with
        paths := s₁.table.paths.filter fun p => p.uid ≠ uid } v =
        if v = uid then none else s₁.table.find v :=
      fun v => Keyed.find?_filter_ne s₁.table.paths uid v
    refine freed.1.path uid freed.2 (fun view => ?_) fun v other => ?_
    · rw [dampView, found, if_pos rfl]
      simp
    · rw [dampView, found, if_neg other]
      rfl

theorem processMain_settled {r : Reads} {node : Nat}
    (run : s.processMain r node = some s') : Settled s' [] :=
  foldlM_keeps (I := (Settled · [])) (fun _ _ _ h step => bgpInfoUnlock_settled h step) _
    (h.congr (s.table.dampView_process r node)) run

end

/-! ## Every run -/

/-- The timer frees nothing. -/
def RibEvent.Keeps (cfg : DampConfig) (s : Rib) : RibEvent → Prop
  | reuseTimer tNow _ => s.ReuseKeeps cfg tNow
  | _ => True

instance (cfg : DampConfig) (s : Rib) (e : RibEvent) : Decidable (e.Keeps cfg s) := by
  cases e <;> unfold RibEvent.Keeps <;> try unfold Rib.ReuseKeeps
  all_goals infer_instance

theorem RibEvent.settled {s s' : Rib} {e : RibEvent} (h : Settled s [])
    (keeps : e.Keeps cfg s) (run : e.next cfg s = some s') : Settled s' [] := by
  cases e with
  | update u => exact bgpUpdateMain_keeps settled_kept h run
  | withdraw u => exact bgpWithdraw_keeps settled_kept h run
  | dampWithdraw uid attrChange tNow addr =>
    obtain ⟨⟨status, s₁⟩, withdrawn, rfl⟩ := map_eq_some_iff.mp run
    exact bgpDampWithdraw_settled h withdrawn
  | dampUpdate uid tNow =>
    obtain ⟨⟨status, s₁⟩, updated, rfl⟩ := map_eq_some_iff.mp run
    exact bgpDampUpdate_settled h updated
  | dampScan uid tNow => exact bgpDampScan_settled h run
  | dampInfoFree a gone => exact (bgpDampInfoFree_settled h run).1
  | reuseTimer tNow rounds => exact bgpReuseTimer_settled h keeps run
  | process r node => exact processMain_settled h run
  | unlock uid => exact bgpInfoUnlock_settled h run

theorem Settled.empty (isSelf : Nat → Bool) : Settled (empty isSelf) [] := by
  refine ⟨?_, fun a bdi info => ?_, fun v a damped view => ?_, fun v damped view => ?_, by simp⟩
  · have nothing : (Rib.empty isSelf).damp.head = fun _ => none := by
      funext slot
      cases slot <;> rfl
    rw [nothing]
    exact (Links.Lists.empty _).congr fun b => rfl
  · cases info
  · cases view
  · cases view

/-- In every run in which the timer finds no due path whose penalty has decayed to half the
reuse limit, the lists are consistent in every state reached. -/
theorem dampLists_consistent {cfg : DampConfig} {isSelf : Nat → Bool} {tr : List RibEvent} {s : Rib}
    (run : Run (ribStep cfg) (Rib.empty isSelf) (fun s e => e.Keeps cfg s) tr s) :
    s.ListsConsistent := by
  have settled : Settled s [] := by
    apply run.invariant (I := fun s => Settled s [])
    · exact Settled.empty isSelf
    · exact fun s e s' h keeps step => RibEvent.settled h keeps (ribStep_run.mp step)
  exact settled.placed.congr fun b => by simp

/-- Two paths are damped, and a third one is not. -/
def dampedTrace : List RibEvent :=
  [.update (news 1 0 1), .update (news 2 0 2), .update (news 3 0 3),
    .dampWithdraw 1 false 0 1, .dampWithdraw 2 false 0 2, .dampWithdraw 3 true 0 3]

theorem dampedTrace_plays : (play (ribStep quickDecay) (fun s e => e.Keeps quickDecay s)
      (dampedTrace ++ [.reuseTimer 0 8, .reuseTimer 0 8]) (empty fun _ => false)).isSome := by
  decide +kernel

theorem dampedTrace_consistent :
    ∃ s, Run (ribStep quickDecay) (Rib.empty fun _ => false) (fun s e => e.Keeps quickDecay s)
        (dampedTrace ++ [.reuseTimer 0 8, .reuseTimer 0 8]) s ∧
      s.place 1 = some (some 3) ∧ s.place 3 = some none ∧ s.ListsConsistent := by
  have run := Run.of_play dampedTrace_plays
  exact ⟨_, run, by decide +kernel, by decide +kernel, dampLists_consistent run⟩

/-- A second later their penalties are gone when the timer comes to them. -/
def forgottenTrace : List RibEvent := dampedTrace ++ [.reuseTimer 0 8, .reuseTimer 1 8]

theorem forgottenTrace_plays : (play (ribStep quickDecay) (fun _ _ => True) forgottenTrace
      (empty fun _ => false)).isSome := by
  decide +kernel

/-- The third path's information is on no list any more. -/
theorem forgottenTrace_inconsistent :
    ∃ s, Reachable (ribStep quickDecay) (Rib.empty fun _ => false) s ∧ ¬s.ListsConsistent := by
  refine ⟨_, (Run.of_play forgottenTrace_plays).reachable, ?_⟩
  generalize hs : (play (ribStep quickDecay) (fun _ _ => True) forgottenTrace
    (empty fun _ => false)).get forgottenTrace_plays = s
  have place : s.place 3 = some none := by
    rw [← hs]
    decide +kernel
  have head : s.damp.head none = none := by
    rw [← hs]
    decide +kernel
  rintro ⟨cells, chains, placed⟩
  have on : 3 ∈ cells none := (placed 3 none).mpr place
  have chain := chains none
  rw [head] at chain
  cases list : cells none with
  | nil => rw [list] at on; simp at on
  | cons b l =>
    rw [list] at chain
    exact absurd chain.1 (by simp)

end Mp2mp.Bgpd
