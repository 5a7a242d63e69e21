import Mp2mp.Kit.Exec

/-!
# The meta queue of the RIB

A route node whose entries have changed waits in the sub-queues of the meta queue, one for each
kind of protocol (`zebra_rib.c`).  Whether it waits in a sub-queue is also kept as a flag of its
dest, and the dest is freed by `rib_gc_dest` when the node has no entries left, whatever the
flags say.

What `rib_process` decides about the selected entry is not part of the model; it reaps the
removed entries, may mark the dest for the forwarding plane manager, and frees it.

* `metaQueue_exact_iff`: as long as no dest is freed whose node waits in another sub-queue too,
  a node waits at most once in each sub-queue, exactly where its flags say.
-/

namespace Mp2mp.Zebra.MetaQueue

open Kit List Function

/-- `ZEBRA_ROUTE_*`. -/
inductive RouteType
  | system
  | kernel
  | connect
  | static
  | rip
  | ripng
  | ospf
  | ospf6
  | isis
  | bgp
  | pim
  | hsls
  | olsr
  | babel
  | ldp
  deriving DecidableEq, Repr

abbrev mqSize : Nat := 5

/-- `meta_queue_map`; it says nothing of the last types, so they have sub-queue 0. -/
def metaQueueMap : RouteType → Fin mqSize
  | .system | .hsls => 4
  | .kernel | .connect => 0
  | .static => 1
  | .rip | .ripng | .ospf | .ospf6 | .isis | .babel => 2
  | .bgp => 3
  | .pim | .olsr | .ldp => 0

/-- `struct rib`, known by its address; `removed` is `RIB_ENTRY_REMOVED`. -/
structure RibEntry where
  addr : Nat
  type : RouteType
  removed : Bool
  deriving DecidableEq, Repr

/-- `rib_dest_t`; `queued i` is `RIB_ROUTE_QUEUED(i)`. -/
structure Dest where
  routes : List RibEntry
  queued : Fin mqSize → Bool
  sentToFpm : Bool
  updateFpm : Bool

/-- The dests of the route nodes, and `struct meta_queue`. -/
structure Queue (α : Type) where
  dest : α → Option Dest
  subq : Fin mqSize → List α
  size : Nat

open Queue

variable {α : Type}

def Queue.empty : Queue α := ⟨fun _ => none, fun _ => [], 0⟩

variable [DecidableEq α]

namespace Queue

variable (s : Queue α)

def setDest (rn : α) (d : Option Dest) : Queue α := { s with dest := update s.dest rn d }

def ribCanDeleteDest (d : Dest) : Bool := d.routes.isEmpty && !d.updateFpm && !d.sentToFpm

def ribGcDest (rn : α) (d : Dest) : Queue α :=
  s.setDest rn (if ribCanDeleteDest d then none else some d)

/-- The dest as `rib_process` leaves it to `rib_gc_dest`; `triggered` says that
`zfpm_trigger_update` was called and the connection is up. -/
def reap (triggered : Bool) (d : Dest) : Dest :=
  { d with routes := d.routes.filter (!·.removed), updateFpm := d.updateFpm || triggered }

def ribProcess (triggered : Bool) (rn : α) : Queue α :=
  match s.dest rn with
  | none => s
  | some d => s.ribGcDest rn (reap triggered d)

/-- `UNSET_FLAG` of `RIB_ROUTE_QUEUED(i)`, if there is a dest. -/
def unsetQueued (i : Fin mqSize) (rn : α) : Queue α :=
  s.setDest rn ((s.dest rn).map fun d => { d with queued := update d.queued i false })

/-- The sub-queue that `meta_queue_process` takes the next node from. -/
def next : Option (Fin mqSize) := (List.finRange mqSize).find? fun i => !(s.subq i).isEmpty

/-- `meta_queue_process`, with `process_subq`. -/
def metaQueueProcess (triggered : Bool) : Queue α :=
  match s.next with
  | none => s
  | some i =>
    match s.subq i with
    | [] => s
    | rn :: rest =>
      let s := (s.ribProcess triggered rn).unsetQueued i rn
      { s with subq := update s.subq i rest, size := s.size - 1 }

/-- The body of the loop of `rib_meta_queue_add`. -/
def enqueue (rn : α) (i : Fin mqSize) : Queue α :=
  match s.dest rn with
  | none => s
  | some d =>
    if d.queued i then s
    else
      { dest := update s.dest rn (some { d with queued := update d.queued i true })
        subq := update s.subq i (s.subq i ++ [rn])
        size := s.size + 1 }

/-- `rib_queue_add`, with `rib_meta_queue_add`; a node without entries is not queued. -/
def ribQueueAdd (rn : α) : Queue α :=
  match s.dest rn with
  | none => s
  | some d => (d.routes.map fun rib => metaQueueMap rib.type).foldl (fun s i => s.enqueue rn i) s

def ribLink (rn : α) (rib : RibEntry) : Queue α :=
  let d := (s.dest rn).getD ⟨[], fun _ => false, false, false⟩
  (s.setDest rn (some { d with routes := rib :: d.routes })).ribQueueAdd rn

/-- Write `RIB_ENTRY_REMOVED` of an entry. -/
def setRemoved (rn : α) (addr : Nat) (removed : Bool) : Queue α :=
  s.setDest rn ((s.dest rn).map fun d =>
    { d with routes := d.routes.map fun rib => if rib.addr = addr then { rib with removed } else rib })

def ribAddnode (rn : α) (rib : RibEntry) : Queue α :=
  if rib.removed then s.setRemoved rn rib.addr false else s.ribLink rn rib

def ribDelnode (rn : α) (addr : Nat) : Queue α := (s.setRemoved rn addr true).ribQueueAdd rn

end Queue

/-- The calls, and the writes of the forwarding plane manager to its flags. -/
inductive QueueEvent (α : Type)
  | addnode (rn : α) (rib : RibEntry)
  | delnode (rn : α) (addr : Nat)
  | queueAdd (rn : α)
  | process (triggered : Bool)
  | fpm (rn : α) (sent update : Bool)

def handle (s : Queue α) : QueueEvent α → Queue α
  | .addnode rn rib => s.ribAddnode rn rib
  | .delnode rn addr => s.ribDelnode rn addr
  | .queueAdd rn => s.ribQueueAdd rn
  | .process triggered => s.metaQueueProcess triggered
  | .fpm rn sent update =>
    s.setDest rn ((s.dest rn).map fun d => { d with sentToFpm := sent, updateFpm := update })

def step (e : QueueEvent α) : EStateM Empty (Queue α) Unit := modify (handle · e)

/-- The size is right, and the flags say where a node waits, which is once at most in each
sub-queue. -/
structure Exact (s : Queue α) : Prop where
  size : s.size = ∑ i, (s.subq i).length
  nodup : ∀ i, (s.subq i).Nodup
  flags : ∀ i rn, rn ∈ s.subq i ↔ ∃ d, s.dest rn = some d ∧ d.queued i

/-- The node that is processed next keeps its dest, or waits in no other sub-queue. -/
def Spares (s : Queue α) : QueueEvent α → Prop
  | .process triggered =>
    ∀ i ∈ s.next, ∀ rn ∈ (s.subq i).head?, ∀ d ∈ s.dest rn,
      Queue.ribCanDeleteDest (Queue.reap triggered d) → ∀ j, j ≠ i → rn ∉ s.subq j
  | _ => True

/-! ## Steps -/

variable {s : Queue α} {rn : α}

omit [DecidableEq α] in
theorem sum_length_update (q : Fin mqSize → List α) (i : Fin mqSize) (l : List α) :
    ∑ j, (update q i l j).length + (q i).length = ∑ j, (q j).length + l.length := by
  have hupdate := Finset.sum_update_of_mem (Finset.mem_univ i) (fun j => (q j).length) l.length
  have hsplit := Finset.sum_eq_add_sum_sdiff_singleton_of_mem (Finset.mem_univ i) fun j => (q j).length
  have happly : ∀ j, (update q i l j).length = update (fun j => (q j).length) i l.length j := by
    intro j
    rcases eq_or_ne j i with rfl | hne
    · rw [update_self, update_self]
    · rw [update_of_ne hne, update_of_ne hne]
  rw [Finset.sum_congr rfl fun j _ => happly j, hupdate, hsplit]
  omega

namespace Exact

omit [DecidableEq α] in
theorem empty : Exact (empty : Queue α) := by
  refine ⟨?_, fun _ => nodup_nil, fun i rn => ?_⟩
  · simp [Queue.empty]
  · simp [Queue.empty]

section

variable (h : Exact s)

include h

/-- A write to a dest that leaves the flags alone. -/
theorem setDest {d' : Option Dest}
    (hflags : ∀ i, (∃ d, d' = some d ∧ d.queued i) ↔ ∃ d, s.dest rn = some d ∧ d.queued i) :
    Exact (s.setDest rn d') := by
  refine ⟨h.size, h.nodup, fun i m => ?_⟩
  change m ∈ s.subq i ↔ ∃ d, update s.dest rn d' m = some d ∧ d.queued i
  rw [update_apply]
  split
  · next same =>
    subst same
    exact (h.flags i m).trans (hflags i).symm
  · exact h.flags i m

theorem mapDest (f : Dest → Dest) (hf : ∀ d, (f d).queued = d.queued) :
    Exact (s.setDest rn ((s.dest rn).map f)) := by
  apply h.setDest
  intro i
  cases s.dest rn with
  | none => exact Iff.rfl
  | some d => simp [hf]

theorem enqueue (i : Fin mqSize) : Exact (s.enqueue rn i) := by
  rw [Queue.enqueue]
  split
  · exact h
  next d found =>
  split
  · exact h
  next unset =>
  have absent : rn ∉ s.subq i := by
    intro mem
    obtain ⟨d', found', set⟩ := (h.flags i rn).mp mem
    cases found.symm.trans found'
    exact unset set
  refine ⟨?_, fun j => ?_, fun j m => ?_⟩
  · have total := sum_length_update s.subq i (s.subq i ++ [rn])
    rw [length_append, length_singleton] at total
    have size := h.size
    dsimp only
    omega
  · dsimp only
    rw [update_apply]
    split
    · exact (h.nodup i).append (nodup_singleton rn) (disjoint_singleton.mpr absent)
    · exact h.nodup j
  · have flags := h.flags j m
    dsimp only
    rw [update_apply, update_apply]
    by_cases same : m = rn
    · subst same
      rcases eq_or_ne j i with rfl | other
      · simp
      · simpa [other, found] using flags
    · rw [if_neg same]
      split
      · next here =>
        subst here
        rw [mem_append, mem_singleton]
        exact (or_iff_left same).trans flags
      · exact flags

theorem ribQueueAdd : Exact (s.ribQueueAdd rn) := by
  rw [Queue.ribQueueAdd]
  split
  · exact h
  · refine foldlRecOn (motive := fun s : Queue α => Exact s) _ _ h fun s hs i _ => ?_
    exact hs.enqueue i

theorem ribLink (rib : RibEntry) : Exact (s.ribLink rn rib) := by
  apply Exact.ribQueueAdd
  apply h.setDest
  intro i
  cases s.dest rn with
  | none => simp
  | some d => simp

theorem setRemoved (addr : Nat) (removed : Bool) : Exact (s.setRemoved rn addr removed) :=
  h.mapDest _ fun _ => rfl

theorem pop_iff {i : Fin mqSize} {rest : List α} {d : Dest}
    (waits : s.subq i = rn :: rest) (found : s.dest rn = some d) (triggered : Bool) :
    (let t := (s.ribProcess triggered rn).unsetQueued i rn
    Exact { t with subq := update t.subq i rest, size := t.size - 1 }) ↔
      (Queue.ribCanDeleteDest (Queue.reap triggered d) → ∀ j, j ≠ i → rn ∉ s.subq j) := by
  have nodup := h.nodup i
  rw [waits, nodup_cons] at nodup
  have size : s.size - 1 = ∑ j, (update s.subq i rest j).length := by
    have total := sum_length_update s.subq i rest
    rw [waits, length_cons, ← h.size] at total
    omega
  have distinct (j : Fin mqSize) : (update s.subq i rest j).Nodup := by
    rw [update_apply]
    split
    · exact nodup.2
    · exact h.nodup j
  have others (j : Fin mqSize) (m : α) (same : m ≠ rn) :
      m ∈ update s.subq i rest j ↔ ∃ d, s.dest m = some d ∧ d.queued j := by
    rw [← h.flags j m, update_apply]
    split
    · next here =>
      subst here
      rw [waits, mem_cons]
      exact (or_iff_right same).symm
    · exact Iff.rfl
  have elsewhere (j : Fin mqSize) (other : j ≠ i) : rn ∈ s.subq j ↔ d.queued j := by
    rw [h.flags j rn, found]
    simp
  simp only [Queue.ribProcess, found, Queue.ribGcDest, Queue.unsetQueued, Queue.setDest,
    update_self, update_idem]
  cases freed : Queue.ribCanDeleteDest (Queue.reap triggered d) with
  | true =>
    refine ⟨fun exact _ j other mem => ?_, fun alone => ⟨size, distinct, fun j m => ?_⟩⟩
    · have flags := (exact.flags j rn).mp
      simp only [update_of_ne other] at flags
      obtain ⟨d', gone, -⟩ := flags mem
      simp at gone
    · by_cases same : m = rn
      · subst same
        have gone : m ∉ update s.subq i rest j := by
          rw [update_apply]
          split
          · exact nodup.1
          · exact alone rfl j ‹_›
        simp [gone]
      · simpa [update_of_ne same] using others j m same
  | false =>
    refine ⟨fun _ freed => absurd freed (by simp), fun _ => ⟨size, distinct, fun j m => ?_⟩⟩
    by_cases same : m = rn
    · subst same
      rcases eq_or_ne j i with rfl | other
      · simp [nodup.1]
      · simpa [update_of_ne other, Queue.reap] using elsewhere j other
    · simpa [update_of_ne same] using others j m same

theorem metaQueueProcess_iff (triggered : Bool) :
    Exact (s.metaQueueProcess triggered) ↔ Spares s (.process triggered) := by
  rw [metaQueueProcess, Spares]
  cases s.next with
  | none => simpa using h
  | some i =>
    cases waits : s.subq i with
    | nil => simpa [waits] using h
    | cons rn rest =>
      obtain ⟨d, found, -⟩ := (h.flags i rn).mp (waits ▸ mem_cons_self)
      simpa [waits, found] using h.pop_iff waits found triggered

theorem handle_iff (e : QueueEvent α) : Exact (handle s e) ↔ Spares s e := by
  cases e with
  | addnode rn rib =>
    refine iff_of_true ?_ trivial
    rw [handle, ribAddnode]
    split
    · exact h.setRemoved _ _
    · exact h.ribLink rib
  | delnode rn addr => exact iff_of_true (h.setRemoved addr true).ribQueueAdd trivial
  | queueAdd rn => exact iff_of_true h.ribQueueAdd trivial
  | process triggered => exact h.metaQueueProcess_iff triggered
  | fpm rn sent update => exact iff_of_true (h.mapDest _ fun _ => rfl) trivial

theorem bounded (table : Finset α) (known : ∀ i, ∀ rn ∈ s.subq i, rn ∈ table) :
    s.size ≤ table.card * mqSize := by
  have each (i : Fin mqSize) : (s.subq i).length ≤ table.card := by
    rw [← toFinset_card_of_nodup (h.nodup i)]
    exact Finset.card_le_card fun rn mem => known i rn (mem_toFinset.mp mem)
  rw [h.size]
  refine (Finset.sum_le_card_nsmul _ _ _ fun i _ => each i).trans ?_
  rw [Finset.card_univ, Fintype.card_fin, smul_eq_mul, Nat.mul_comm]

end

end Exact

/-- In a run in which every freed dest is that of a node in no other sub-queue, the flags are
exact and the length is bounded, and they stay so in the next step exactly if it frees no
other. -/
theorem metaQueue_exact_iff {tr : List (QueueEvent α)} {s : Queue α}
    (hrun : Run step Queue.empty Spares tr s) :
    Exact s ∧ (∀ table : Finset α, (∀ i, ∀ rn ∈ s.subq i, rn ∈ table) →
      s.size ≤ table.card * mqSize) ∧ ∀ e, Exact (handle s e) ↔ Spares s e := by
  have exact : Exact s := by
    refine hrun.invariant Exact.empty fun s e s' hs spares hstep => ?_
    cases hstep
    exact (hs.handle_iff e).mpr spares
  exact ⟨exact, exact.bounded, exact.handle_iff⟩

/-- One node with a connected and an OSPF route. -/
def twoProtocols : List (QueueEvent Nat) :=
  [.addnode 0 ⟨1, .connect, false⟩, .addnode 0 ⟨2, .ospf, false⟩]

/-- It is processed for the connected route. -/
def processedOnce : List (QueueEvent Nat) := twoProtocols ++ [.process false]

/-- Both routes are removed before the node is processed, and the OSPF route comes back. -/
def removedBoth : List (QueueEvent Nat) :=
  twoProtocols ++
    [.delnode 0 1, .delnode 0 2, .process false, .addnode 0 ⟨3, .ospf, false⟩]

theorem processedOnce_run :
    Run step empty Spares processedOnce (processedOnce.foldl handle .empty) := by
  have first : Run step empty Spares [.addnode 0 ⟨1, .connect, false⟩]
      (handle empty (.addnode 0 ⟨1, .connect, false⟩)) := Run.nil.snoc trivial rfl
  have both : Run step empty Spares twoProtocols (twoProtocols.foldl handle .empty) :=
    first.snoc trivial rfl
  have kept : ((twoProtocols.foldl handle Queue.empty).dest 0).all
      fun d => !ribCanDeleteDest (reap false d) := by decide
  have spares : Spares (twoProtocols.foldl handle Queue.empty) (.process false) := by
    rintro i ⟨⟩ rn ⟨⟩ d dest deleted
    have stays : (!ribCanDeleteDest (reap false d)) = true := by
      rw [Option.mem_def.mp dest] at kept
      exact kept
    rw [deleted] at stays
    cases stays
  exact both.snoc spares rfl

theorem processedOnce_exact : let s : Queue Nat := processedOnce.foldl handle .empty
    Exact s ∧ (∀ table : Finset Nat, (∀ i, ∀ rn ∈ s.subq i, rn ∈ table) →
      s.size ≤ table.card * mqSize) ∧ ∀ e, Exact (handle s e) ↔ Spares s e :=
  metaQueue_exact_iff processedOnce_run

/-- The dest is freed in sub-queue 0 while the node waits in sub-queue 2 as well, where it then
waits twice. -/
theorem removedBoth_queued_twice : ((removedBoth.take 5).foldl handle Queue.empty).dest 0 = none ∧
    ((removedBoth.take 5).foldl handle Queue.empty).subq 2 = [0] ∧
    (removedBoth.foldl handle Queue.empty).subq 2 = [0, 0] := by
  refine ⟨?_, ?_, ?_⟩ <;> decide +kernel

end Mp2mp.Zebra.MetaQueue
