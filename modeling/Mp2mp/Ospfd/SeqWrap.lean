import Mp2mp.Ospfd.LsUpd

/-!
# The router-LSA after the last sequence number

`ospf_router_lsa_refresh` and `ospf_maxage_lsa_remover`.  A refresh of the router-LSA with the
last sequence number installs an instance that is flushed, and the remover then refreshes that
instance.  Its number is the last one again, so the new instance is flushed as well, and the
remover takes it, which it finds by its key, off the lists.  The body of the router-LSA and the
refresh of other LSAs are left out.

* `router_lsa_never_survives`: whatever acknowledgements arrive and however often the remover runs,
  the router-LSA in the database stays the flushed one.
-/

namespace Mp2mp.Ospfd

open Function

namespace Ospf

variable {n : Nat} (s : Ospf n)

/-- The key of the LSA of `ospf_router_lsa_new`. -/
def routerLsaKey : LsaKey := ⟨.router, s.routerId, s.routerId⟩

/-- The LSA of `ospf_router_lsa_new`. -/
def routerLsa (area : Nat) (seqnum : BitVec 32) : Lsa :=
  { key := s.routerLsaKey, seqnum, area, checksum := 0, age := 0, body := [], tvRecv := s.now
    oi := none, self := true, selfChecked := true, received := false, prematureAge := false
    localXlt := false }

def ospfRouterLsaNew (area : Nat) (seqnum : BitVec 32) : Ospf n :=
  { s with lsa := update s.lsa s.next (s.routerLsa area seqnum), next := s.next + 1 }

def ospfRouterLsaRefresh (p : Ptr) : Ospf n :=
  let area := (s.lsa p).area
  let new := s.next
  let s := s.ospfLsRetransmitDeleteNbrs area p
  let s := { s with lsaRefreshQueue := s.lsaRefreshQueue.erase p }
  let s := s.ospfRouterLsaNew area ((s.lsa p).seqnum + 1)
  (s.ospfLsaInstall new).2.ospfFloodThroughArea area none new

def ospfLsdbDelete (scope : Option Nat) (p : Ptr) : Ospf n :=
  let key := (s.lsa p).key
  if s.lsdb scope key = some p then
    { s with lsdb := update s.lsdb scope (update (s.lsdb scope) key none) }
  else s

/-- `lsa->retransmit_counter`. -/
def retransmitCounter (p : Ptr) : Nat :=
  (List.finRange n).countP fun j => (s.nbr j).lsRxmt (s.lsa p).key = some p

/-- `ospf_maxage_lsa_remover`, for one LSA.  The source reads `lsa->lsdb` after the refresh, which
may have freed the LSA; here it is what it was before. -/
def removeMaxage (p : Ptr) : Ospf n :=
  if p ∉ s.maxageLsa ∨ 0 < s.retransmitCounter p then s
  else
    let lsdb := s.scope p
    let s := if (s.lsa p).prematureAge && (s.lsa p).key.type = .router then s.ospfRouterLsaRefresh p
      else s
    (s.ospfDiscardFromDb lsdb p).ospfLsdbDelete lsdb p

/-- `ospf_maxage_lsa_remover`, which yields after `k` LSAs. -/
def ospfMaxageLsaRemover (k : Nat) : Ospf n :=
  if s.ospfCheckNbrStatus then (s.maxageLsa.take k).foldl removeMaxage s else s

inductive WrapEvent (n : Nat) where
  | tick (now : Nat)
  | acknowledged (nbr : Fin n) (p : Ptr)
  | remover (k : Nat)

def step (s : Ospf n) : WrapEvent n → Ospf n
  | .tick now => { s with now }
  | .acknowledged j p =>
    let nbr := update s.nbr j (s.ospfLsRetransmitDelete (s.nbr j) p)
    { s with nbr }
  | .remover k => s.ospfMaxageLsaRemover k

/-! ## The flushed instance -/

/-- An LSA is only aged prematurely at the last sequence number, and those to be removed exist. -/
structure Sound : Prop where
  premature : ∀ q, (s.lsa q).prematureAge → (s.lsa q).seqnum = ospfMaxSequenceNumber
  maxage : ∀ q ∈ s.maxageLsa, q < s.next

/-- The router-LSA in the database of the area is being flushed. -/
structure Flushed (area : Nat) (q : Ptr) : Prop where
  lsdb : s.lsdb (some area) s.routerLsaKey = some q
  key : (s.lsa q).key = s.routerLsaKey
  area : (s.lsa q).area = area
  seqnum : (s.lsa q).seqnum = ospfMaxSequenceNumber
  age : (s.lsa q).age = ospfLsaMaxage
  premature : (s.lsa q).prematureAge
  old : q < s.next

variable {s} {p q : Ptr} {area : Nat}

theorem install_maxage (mem : q ∈ (s.ospfLsaInstall p).2.maxageLsa) : q = p ∨ q ∈ s.maxageLsa := by
  have installed (s : Ospf n) (mem : q ∈ (s.installLsa p).2.maxageLsa) :
      q = p ∨ q ∈ s.maxageLsa := by
    have discarded : (s.ospfDiscardFromDb (s.scope p) p).maxageLsa ⊆ s.maxageLsa := by
      rw [ospfDiscardFromDb]
      split
      · exact List.Subset.refl _
      · exact List.erase_subset
    have stored : q ∈ (s.installLsa p).2.maxageLsa → q = p ∨ q ∈ (s.storeLsa p).maxageLsa := by
      rw [installLsa]
      dsimp only
      repeat' split
      all_goals first
        | exact List.mem_insert_iff.mp
        | exact .inr
    exact (stored mem).imp_right fun mem => discarded mem
  rw [ospfLsaInstall] at mem
  split at mem
  · split at mem
    · have aged := installed (s.setLsa p (s.prematurelyAge p)) mem
      exact aged
    · exact .inr mem
  · exact installed s mem

/-- The refresh of an LSA with the last sequence number installs an instance to be flushed. -/
theorem refresh_flushed (sound : s.Sound) (last : (s.lsa p).seqnum = ospfMaxSequenceNumber) :
    (s.ospfRouterLsaRefresh p).Sound ∧ (s.ospfRouterLsaRefresh p).Flushed (s.lsa p).area s.next ∧
    (s.ospfRouterLsaRefresh p).routerId = s.routerId ∧
    (s.ospfRouterLsaRefresh p).next = s.next + 1 ∧
    (∀ q ≠ s.next, (s.ospfRouterLsaRefresh p).lsa q = s.lsa q) ∧
    ∀ area ≠ (s.lsa p).area, (s.ospfRouterLsaRefresh p).lsdb (some area) = s.lsdb (some area) := by
  set area := (s.lsa p).area with area_eq
  set lsa := s.routerLsa area (ospfMaxSequenceNumber + 1) with lsa_eq
  have prepared : ∃ m : Ospf n, s.ospfRouterLsaRefresh p =
      (m.ospfLsaInstall s.next).2.ospfFloodThroughArea area none s.next ∧
      m.lsa = update s.lsa s.next lsa ∧ m.next = s.next + 1 ∧ m.lsdb = s.lsdb ∧
      m.maxageLsa = s.maxageLsa ∧ m.routerId = s.routerId ∧ m.now = s.now := by
    refine ⟨_, rfl, ?_, rfl, rfl, rfl, rfl, rfl⟩
    rw [lsa_eq, ← last]
    rfl
  obtain ⟨m, run, lsas, next, lsdb, maxage, routerId, now⟩ := prepared
  have here : m.lsa s.next = lsa := by rw [lsas, update_self]
  have accepted : ¬m.Refused s.next := by
    intro refused
    refine refused.2 ?_
    rw [ospfLsaIsSelfOriginated, here]
    rfl
  have wraps : (m.lsa s.next).seqnum - 1 = ospfMaxSequenceNumber := by
    rw [here]
    show ospfMaxSequenceNumber + 1 - 1 = _
    decide
  obtain ⟨routerIdIs, nextIs, lsdbIs, lsaIs⟩ := install_stores accepted
  rw [if_pos wraps, lsas, update_idem, update_self] at lsaIs
  have young : m.isLsaMaxage s.next = false := by
    rw [isLsaMaxage, lsAge, here, now, lsa_eq]
    simp [routerLsa, ospfLsaMaxage]
  have scope : m.scope s.next = some area := by
    rw [scope, here]
    rfl
  have key : (m.ospfLsaInstall s.next).2.routerLsaKey = lsa.key := by
    rw [routerLsaKey, routerIdIs, routerId]
    rfl
  rw [scope] at lsdbIs
  rw [run]
  set s' := (m.ospfLsaInstall s.next).2
  have stored : s'.lsa s.next = m.summed (m.prematurelyAge s.next lsa) := by
    rw [lsaIs, update_self]
  refine ⟨⟨fun q early => ?_, fun q mem => ?_⟩, ⟨?_, ?_, ?_, ?_, ?_, ?_, ?_⟩,
    routerIdIs.trans routerId, nextIs.trans next, fun q differ => ?_, fun other differ => ?_⟩
  · replace early : (s'.lsa q).prematureAge := early
    show (s'.lsa q).seqnum = _
    rw [lsaIs, update_apply] at early ⊢
    split at early
    · next same => rw [if_pos same]; rfl
    · next other => rw [if_neg other]; exact sound.premature q early
  · show q < s'.next
    rw [nextIs, next]
    rcases install_maxage mem with rfl | old
    · exact Nat.lt_succ_self _
    · exact Nat.lt_succ_of_lt (sound.maxage q (maxage ▸ old))
  · show s'.lsdb (some area) s'.routerLsaKey = _
    rw [lsdbIs, lsdbAdd_lsdb, key, here, if_pos ⟨rfl, rfl⟩]
  · show (s'.lsa s.next).key = s'.routerLsaKey
    rw [stored, key]
    rfl
  · show (s'.lsa s.next).area = area
    rw [stored]
    rfl
  · show (s'.lsa s.next).seqnum = _
    rw [stored]
    rfl
  · show (s'.lsa s.next).age = _
    rw [stored]
    rfl
  · show (s'.lsa s.next).prematureAge = true
    simp [stored, summed, prematurelyAge, young]
  · show s.next < s'.next
    rw [nextIs, next]
    exact Nat.lt_succ_self _
  · show s'.lsa q = _
    rw [lsaIs, update_of_ne differ]
  · funext key
    show s'.lsdb (some other) key = _
    rw [lsdbIs, lsdbAdd_lsdb, if_neg fun h => differ (Option.some.inj h.1), lsdb]

/-- An LSA that is not the one in the database is discarded. -/
theorem discarded_flushed (scope : Option Nat) (sound : s.Sound) (h : s.Flushed area q)
    (differ : q ≠ p) :
    ((s.ospfDiscardFromDb scope p).ospfLsdbDelete scope p).Sound ∧
    ((s.ospfDiscardFromDb scope p).ospfLsdbDelete scope p).Flushed area q := by
  have maxage : (s.ospfDiscardFromDb scope p).maxageLsa ⊆ s.maxageLsa := by
    rw [ospfDiscardFromDb]
    split
    · exact List.Subset.refl _
    · exact List.erase_subset
  obtain ⟨left, queue, frame⟩ := discardFromDb_frame s scope p
  rw [frame] at maxage ⊢
  have sound' : ({ s with nbr := _, maxageLsa := left, lsaRefreshQueue := queue } : Ospf n).Sound :=
    ⟨sound.premature, fun q mem => sound.maxage q (maxage mem)⟩
  rw [ospfLsdbDelete]
  dsimp only
  split
  · next here =>
    refine ⟨⟨sound.premature, sound'.maxage⟩, ?_, h.key, h.area, h.seqnum, h.age, h.premature, h.old⟩
    show update s.lsdb scope _ (some area) s.routerLsaKey = some q
    by_cases same : some area = scope
    · subst same
      rw [update_self, update_of_ne, h.lsdb]
      intro key
      rw [← key, h.lsdb] at here
      exact differ (Option.some.inj here)
    · rw [update_of_ne same, h.lsdb]
  · exact ⟨sound', h.lsdb, h.key, h.area, h.seqnum, h.age, h.premature, h.old⟩

/-- The remover puts another flushed instance in the place of the one it removes. -/
theorem removeMaxage_flushed (sound : s.Sound) (h : s.Flushed area q) :
    (s.removeMaxage p).Sound ∧ ∃ q, (s.removeMaxage p).Flushed area q := by
  rw [removeMaxage]
  split
  · exact ⟨sound, q, h⟩
  · next taken =>
    rw [not_or, not_not] at taken
    have old := sound.maxage p taken.1
    dsimp only
    split
    · next early =>
      rw [Bool.and_eq_true] at early
      obtain ⟨sound', new, routerId, next, lsa, lsdb⟩ :=
        refresh_flushed sound (sound.premature p early.1)
      by_cases same : (s.lsa p).area = area
      · subst same
        obtain ⟨sound, flushed⟩ := discarded_flushed (s.scope p) sound' new old.ne'
        exact ⟨sound, _, flushed⟩
      · have kept : (s.ospfRouterLsaRefresh p).Flushed area q := by
          have here := lsa q h.old.ne
          refine ⟨?_, ?_, ?_, ?_, ?_, ?_, next ▸ Nat.lt_succ_of_lt h.old⟩
          · rw [lsdb area fun eq => same eq.symm, routerLsaKey, routerId]
            exact h.lsdb
          · rw [here, routerLsaKey, routerId]
            exact h.key
          · rw [here, h.area]
          · rw [here, h.seqnum]
          · rw [here, h.age]
          · rw [here, h.premature]
        have differ : q ≠ p := fun eq => same (eq ▸ h.area)
        obtain ⟨sound, flushed⟩ := discarded_flushed (s.scope p) sound' kept differ
        exact ⟨sound, q, flushed⟩
    · next late =>
      have differ : q ≠ p := by
        rintro rfl
        rw [h.premature, h.key] at late
        exact late rfl
      obtain ⟨sound, flushed⟩ := discarded_flushed (s.scope p) sound h differ
      exact ⟨sound, q, flushed⟩

theorem step_flushed (sound : s.Sound) (h : s.Flushed area q) (e : WrapEvent n) :
    (s.step e).Sound ∧ ∃ q, (s.step e).Flushed area q := by
  cases e with
  | tick now =>
    exact ⟨⟨sound.premature, sound.maxage⟩, q, h.lsdb, h.key, h.area, h.seqnum, h.age, h.premature,
      h.old⟩
  | acknowledged j p =>
    exact ⟨⟨sound.premature, sound.maxage⟩, q, h.lsdb, h.key, h.area, h.seqnum, h.age, h.premature,
      h.old⟩
  | remover k =>
    rw [step, ospfMaxageLsaRemover]
    split
    · next idle =>
      clear idle
      generalize s.maxageLsa.take k = lsas
      induction lsas generalizing s q with
      | nil => exact ⟨sound, q, h⟩
      | cons p lsas ih =>
        obtain ⟨sound, q, h⟩ := removeMaxage_flushed (p := p) sound h
        exact ih sound h
    · exact ⟨sound, q, h⟩

/-- After the refresh of the router-LSA with the last sequence number there is never again a
router-LSA in the database that is not being flushed. -/
theorem router_lsa_never_survives (sound : s.Sound)
    (last : (s.lsa p).seqnum = ospfMaxSequenceNumber) (events : List (WrapEvent n)) :
    ¬∃ q, (events.foldl step (s.ospfRouterLsaRefresh p)).lsdb (some (s.lsa p).area)
        (events.foldl step (s.ospfRouterLsaRefresh p)).routerLsaKey = some q ∧
      (¬(events.foldl step (s.ospfRouterLsaRefresh p)).isLsaMaxage q ∨
        ((events.foldl step (s.ospfRouterLsaRefresh p)).lsa q).seqnum = ospfInitialSequenceNumber) := by
  obtain ⟨sound, flushed, -⟩ := refresh_flushed sound last
  have run : ∃ q, (events.foldl step (s.ospfRouterLsaRefresh p)).Flushed (s.lsa p).area q := by
    generalize s.ospfRouterLsaRefresh p = s' at sound flushed
    generalize s.next = q at flushed
    generalize (s.lsa p).area = area at flushed
    induction events generalizing s' q with
    | nil => exact ⟨q, flushed⟩
    | cons e events ih =>
      obtain ⟨sound, q, flushed⟩ := step_flushed sound flushed e
      exact ih _ sound q flushed
  obtain ⟨q, flushed⟩ := run
  rintro ⟨q', here, survives⟩
  rw [flushed.lsdb, Option.some.injEq] at here
  subst here
  rcases survives with young | first
  · refine young ?_
    rw [isLsaMaxage, lsAge, flushed.age]
    simp
  · rw [flushed.seqnum] at first
    exact absurd first (by decide)

/-- A router with two neighbours whose router-LSA has the last sequence number. -/
def lastSample : Ospf 2 :=
  { sampleRouter (some 1) ospfMaxSequenceNumber 0 with
    routerId := 9
    lsa := fun _ => { sampleLsa ospfMaxSequenceNumber 0 0 with self := true, selfChecked := true } }

/-- Both neighbours acknowledge the flush, and the remover runs. -/
def wrapEvents : List (WrapEvent 2) :=
  [.acknowledged firstNbr 2, .acknowledged secondNbr 2, .remover 1]

theorem lastSample_never_survives :
    ¬∃ q, (wrapEvents.foldl step (lastSample.ospfRouterLsaRefresh 1)).lsdb (some 0)
        (wrapEvents.foldl step (lastSample.ospfRouterLsaRefresh 1)).routerLsaKey = some q ∧
      (¬(wrapEvents.foldl step (lastSample.ospfRouterLsaRefresh 1)).isLsaMaxage q ∨
        ((wrapEvents.foldl step (lastSample.ospfRouterLsaRefresh 1)).lsa q).seqnum =
          ospfInitialSequenceNumber) :=
  router_lsa_never_survives ⟨fun _ early => absurd early Bool.false_ne_true,
    fun _ mem => absurd mem List.not_mem_nil⟩ rfl wrapEvents

/-- The instance in the database is to be flushed, but on none of the lists. -/
theorem wrapped_routerLsa_stuck : let s := wrapEvents.foldl step (lastSample.ospfRouterLsaRefresh 1)
    (lastSample.ospfRouterLsaRefresh 1).retransmitCounter 2 = 2 ∧
    s.lsdb (some 0) sampleKey = some 3 ∧ s.isLsaMaxage 3 ∧ s.retransmitCounter 3 = 0 ∧
    s.lsaRefreshQueue = [] ∧ s.maxageLsa = [] := by
  decide +kernel

end Ospf

end Mp2mp.Ospfd
