import Mp2mp.Lde.Dispatch
import Mp2mp.Ldpe.LabelMessage

/-!
# Neighbour sessions in the LDP engine

The neighbour state machine `nbr_fsm` of `neighbor.c`, and the label messages of
the LDE that `ldpe_dispatch_lde` collects on the lists of a neighbour until an end
marker has `send_labelmessage` transmit them.

A neighbour is its address: a place in `Sessions.nbrs` that `nbr_del` empties.  The
tree `nbrs_by_pid` holds the neighbours whose peer id is not zero; its comparison
is an order as long as the ids in use span less than 2^31.  Three fields are there
for the statements only: where a queued map came from, what has been transmitted,
and how many sessions have been established.

* `nothing_leaks`: in a run in which every session that closes has transmitted what
  it was given, every map goes out on the session the LDE composed it for.
-/

namespace Mp2mp.Ldpe

open Kit Ldpd List Option

variable {event : NbrEvent} {l : List Queued} {n : Neighbor}

/-! ## The state machine -/

inductive NbrEvent
  | matchAdj
  | connectUp
  | closeSession
  | initRcvd
  | keepaliveRcvd
  | pduRcvd
  | pduSent
  | initSent
deriving DecidableEq, Repr

inductive NbrAction
  | nothing
  | rstKtimeout
  | sessionEst
  | rstKtimer
  | connectSetup
  | passiveInit
  | keepaliveSend
  | closeSession
deriving DecidableEq, Repr

/-- A row of `nbr_fsm_tbl`; without a new state the neighbour stays in the one it is in. -/
structure FsmRow where
  states : List NbrState
  event : NbrEvent
  action : NbrAction
  newState : Option NbrState
deriving DecidableEq, Repr

def nbrStaSession : List NbrState := [.initial, .openrec, .opensent, .oper]

def nbrFsmTbl : List FsmRow :=
  [ -- Passive Role
    ⟨[.present], .matchAdj, .nothing, some .initial⟩,
    ⟨[.initial], .initRcvd, .passiveInit, some .openrec⟩,
    ⟨[.openrec], .keepaliveRcvd, .sessionEst, some .oper⟩,
    -- Active Role
    ⟨[.present], .connectUp, .connectSetup, some .initial⟩,
    ⟨[.initial], .initSent, .nothing, some .opensent⟩,
    ⟨[.opensent], .initRcvd, .keepaliveSend, some .openrec⟩,
    -- Session Maintenance
    ⟨[.oper], .pduRcvd, .rstKtimeout, none⟩,
    ⟨nbrStaSession, .pduRcvd, .nothing, none⟩,
    ⟨[.oper], .pduSent, .rstKtimer, none⟩,
    ⟨nbrStaSession, .pduSent, .nothing, none⟩,
    -- Session Close
    ⟨[.present], .closeSession, .nothing, none⟩,
    ⟨nbrStaSession, .closeSession, .closeSession, some .present⟩]

/-- The first row for a state and an event: its action and the state it leads to. -/
def nbrTransition (state : NbrState) (event : NbrEvent) : Option (NbrAction × NbrState) :=
  (nbrFsmTbl.find? fun row => state ∈ row.states ∧ row.event = event).map fun row =>
    (row.action, row.newState.getD state)

/-! ## Neighbours -/

/-- The lists of a neighbour that `ldpe_dispatch_lde` adds to. -/
inductive MapList
  | mapping
  | release
  | request
  | withdraw
deriving DecidableEq, Repr

/-- A map on a list, with the peer id of the message that brought it. -/
structure Queued where
  origin : UInt32
  map : Map
deriving DecidableEq, Repr

/-- What the session code reads of `struct nbr`. -/
structure Neighbor where
  id : InAddr
  v4Enabled : Bool
  v6Enabled : Bool
  state : NbrState
  peerid : UInt32
  mappingList : List Queued
  releaseList : List Queued
  requestList : List Queued
  withdrawList : List Queued
deriving DecidableEq, Repr

def Neighbor.list (n : Neighbor) : MapList → List Queued
  | .mapping => n.mappingList
  | .release => n.releaseList
  | .request => n.requestList
  | .withdraw => n.withdrawList

def Neighbor.setList (n : Neighbor) (k : MapList) (l : List Queued) : Neighbor :=
  match k with
  | .mapping => { n with mappingList := l }
  | .release => { n with releaseList := l }
  | .request => { n with requestList := l }
  | .withdraw => { n with withdrawList := l }

/-- A map that went out on the session of the given peer id. -/
structure Transmission where
  session : UInt32
  list : MapList
  queued : Queued
deriving DecidableEq, Repr

/-- The LDP engine, as far as its sessions go; `toLde` is what the current event composed for the LDE. -/
structure Sessions where
  nbrs : List (Option Neighbor)
  peercnt : UInt32
  toLde : List (UInt32 × Lde.Imsg)
  sent : List Transmission
  established : Nat
deriving DecidableEq, Repr

open Sessions

def Sessions.init : Sessions := ⟨[], 1, [], [], 0⟩

def Sessions.nbr? (s : Sessions) (i : Nat) : Option Neighbor := s.nbrs[i]?.join

def Sessions.setNbr (s : Sessions) (i : Nat) (n : Neighbor) : Sessions :=
  { s with nbrs := s.nbrs.set i (some n) }

/-- `ldpe_imsg_compose_lde` -/
def Sessions.composeLde (s : Sessions) (peerid : UInt32) (msg : Lde.Imsg) : Sessions :=
  { s with toLde := s.toLde ++ [(peerid, msg)] }

/-- `nbr_new`, as the sessions see it -/
def nbrNew (id : InAddr) (v4Enabled v6Enabled : Bool) (s : Sessions) : Sessions :=
  { s with nbrs := s.nbrs ++ [some ⟨id, v4Enabled, v6Enabled, .present, 0, [], [], [], []⟩] }

def nbrFindPeerid (peerid : UInt32) (nbrs : List (Option Neighbor)) : Option Nat :=
  nbrs.findIdx? fun o => o.any fun n => n.peerid = peerid ∧ n.peerid ≠ 0

/-- The loop of `nbr_update_peerid` for the next unused peer id; each neighbour
can be in the way once. -/
def nextPeerid (nbrs : List (Option Neighbor)) : Nat → UInt32 → UInt32
  | 0, peercnt => peercnt + 1
  | fuel + 1, peercnt =>
    if (nbrFindPeerid (peercnt + 1) nbrs).isSome then nextPeerid nbrs fuel (peercnt + 1)
    else peercnt + 1

/-- `nbr_update_peerid`; the neighbour is not in the tree while an id is looked for. -/
def nbrUpdatePeerid (i : Nat) (n : Neighbor) (s : Sessions) : Neighbor × Sessions :=
  let others := s.nbrs.set i (some { n with peerid := 0 })
  let peerid := nextPeerid others others.length s.peercnt
  let n := { n with peerid := peerid }
  (n, { s.setNbr i n with peercnt := peerid, established := s.established + 1 })

/-- `nbr_act_session_operational`, and the request for all label mappings that follows it -/
def nbrActSessionOperational (i : Nat) (n : Neighbor) (s : Sessions) : Sessions :=
  let (n, s) := nbrUpdatePeerid i n s
  (s.composeLde n.peerid (.neighborUp n.id n.v4Enabled n.v6Enabled)).composeLde n.peerid
    .labelMappingFull

/-- The action of a transition, the neighbour being in its new state already. -/
def nbrAct (i : Nat) (n : Neighbor) (action : NbrAction) (s : Sessions) : Sessions :=
  match action with
  | .sessionEst => nbrActSessionOperational i n s
  -- `send_init`, and the event `INIT_SENT`, which has no action of its own
  | .connectSetup =>
    match nbrTransition n.state .initSent with
    | none => s
    | some (_, state) => s.setNbr i { n with state := state }
  | .closeSession => s.composeLde n.peerid .neighborDown
  | .nothing | .rstKtimeout | .rstKtimer | .passiveInit | .keepaliveSend => s

def nbrFsm (i : Nat) (event : NbrEvent) (s : Sessions) : Sessions :=
  match s.nbr? i with
  | none => s
  | some n =>
    match nbrTransition n.state event with
    | none => s
    | some (action, state) =>
      let n := { n with state := state }
      nbrAct i n action (s.setNbr i n)

def nbrDel (i : Nat) (s : Sessions) : Sessions :=
  let s := nbrFsm i .closeSession s
  { s with nbrs := s.nbrs.set i none }

/-! ## Messages of the LDE -/

/-- `IMSG_*_ADD` and `IMSG_*_ADD_END` -/
inductive LdeMsg
  | add (k : MapList) (peerid : UInt32) (map : Map)
  | addEnd (k : MapList) (peerid : UInt32)
deriving DecidableEq, Repr

/-- `send_labelmessage` of one list of a neighbour. -/
def sendLabelmessage (i : Nat) (n : Neighbor) (k : MapList) (s : Sessions) : Sessions :=
  { s.setNbr i (n.setList k []) with
    sent := s.sent ++ (n.list k).map fun q => ⟨n.peerid, k, q⟩ }

/-- `ldpe_dispatch_lde`, one message -/
def ldpeDispatchLde (msg : LdeMsg) (s : Sessions) : Sessions :=
  match msg with
  | .add k peerid map =>
    match nbrFindPeerid peerid s.nbrs with
    | none => s
    | some i =>
      match s.nbr? i with
      | none => s
      | some n =>
        if n.state = .oper then s.setNbr i (n.setList k (n.list k ++ [⟨peerid, map⟩])) else s
  | .addEnd k peerid =>
    match nbrFindPeerid peerid s.nbrs with
    | none => s
    | some i =>
      match s.nbr? i with
      | none => s
      | some n => if n.state = .oper then sendLabelmessage i n k s else s

/-! ## Events -/

/-- An event of the LDP engine.  `received` is a message for the LDE that came in
on the session, `control` a command for it. -/
inductive LdpeEvent
  | nbrNew (id : InAddr) (v4Enabled v6Enabled : Bool)
  | nbrDel (nbr : Nat)
  | fsm (nbr : Nat) (event : NbrEvent)
  | fromLde (msg : LdeMsg)
  | received (nbr : Nat) (msg : Lde.Imsg)
  | control (msg : Lde.Imsg)
deriving DecidableEq, Repr

/-- The messages that only the state machine composes. -/
def sessionImsg : Lde.Imsg → Bool
  | .neighborUp .. | .neighborDown => true
  | _ => false

/-- `recv_notification` composes its message in every state. -/
def anyState : Lde.Imsg → Bool
  | .notification .. => true
  | _ => false

def Sessions.handle (e : LdpeEvent) (s : Sessions) : Sessions :=
  let s := { s with toLde := [] }
  match e with
  | .nbrNew id v4 v6 => nbrNew id v4 v6 s
  | .nbrDel i => nbrDel i s
  | .fsm i event => nbrFsm i event s
  | .fromLde msg => ldpeDispatchLde msg s
  | .received i msg =>
    match s.nbr? i with
    | none => s
    | some n =>
      if (n.state = .oper ∨ anyState msg) ∧ ¬sessionImsg msg then s.composeLde n.peerid msg else s
  | .control msg => if sessionImsg msg then s else s.composeLde 0 msg

/-- The engine as a reactive system; no event makes it stop. -/
def sessionStep (e : LdpeEvent) : EStateM Empty Sessions Unit := modify (Sessions.handle e)

/-! ## What is on the lists -/

section

variable {s : Sessions} {i : Nat}

/-- The lists hold maps of the current session only, and there is one if they hold any. -/
def Neighbor.Tidy (n : Neighbor) : Prop :=
  ∀ k, ∀ q ∈ n.list k, n.state = .oper ∧ q.origin = n.peerid

/-- All neighbours are tidy, and so was everything that has been transmitted. -/
structure Sessions.Tidy (s : Sessions) : Prop where
  nbrs : ∀ n, some n ∈ s.nbrs → n.Tidy
  sent : ∀ t ∈ s.sent, t.queued.origin = t.session

theorem Neighbor.tidy_of_nil (h : ∀ k, n.list k = []) : n.Tidy := by
  intro k q hq
  rw [h k] at hq
  cases hq

theorem Neighbor.Tidy.nil (h : n.Tidy) (hstate : n.state ≠ .oper) (k : MapList) : n.list k = [] := by
  rcases hlist : n.list k with _ | ⟨q, rest⟩
  · rfl
  · have hq : q ∈ n.list k := by
      rw [hlist]
      exact mem_cons_self
    exact absurd (h k q hq).1 hstate

theorem Neighbor.list_setList {k k' : MapList} :
    (n.setList k l).list k' = if k = k' then l else n.list k' := by
  cases k <;> cases k' <;> rfl

theorem Neighbor.setList_eq (n : Neighbor) (k : MapList) (l : List Queued) :
    (n.setList k l).state = n.state ∧ (n.setList k l).peerid = n.peerid := by
  cases k <;> exact ⟨rfl, rfl⟩

theorem Neighbor.Tidy.setList {k : MapList} (h : n.Tidy)
    (hl : ∀ q ∈ l, n.state = .oper ∧ q.origin = n.peerid) : (n.setList k l).Tidy := by
  intro k' q hq
  obtain ⟨hstate, hpeerid⟩ := n.setList_eq k l
  rw [hstate, hpeerid]
  rw [Neighbor.list_setList] at hq
  split at hq
  · exact hl q hq
  · exact h k' q hq

theorem Sessions.mem_of_nbr? (h : s.nbr? i = some n) : some n ∈ s.nbrs :=
  mem_of_getElem? (join_eq_some_iff.mp h)

theorem Sessions.Tidy.setNbr (h : s.Tidy) (hn : n.Tidy) : (s.setNbr i n).Tidy := by
  refine ⟨fun m hm => ?_, h.sent⟩
  rcases mem_or_eq_of_mem_set hm with hm | hm
  · exact h.nbrs m hm
  · cases hm
    exact hn

/-- A transition changes the one neighbour only, and transmits nothing. -/
theorem nbrFsm_others (i : Nat) (event : NbrEvent) (s : Sessions) (o : Option Neighbor) :
    (nbrFsm i event s).nbrs.set i o = s.nbrs.set i o ∧ (nbrFsm i event s).sent = s.sent := by
  unfold nbrFsm
  split
  · exact ⟨rfl, rfl⟩
  · split
    · exact ⟨rfl, rfl⟩
    · rename_i n _ action state _
      dsimp only
      cases action with
      | connectSetup =>
        simp only [nbrAct]
        split <;> simp [setNbr]
      | sessionEst =>
        simp [nbrAct, nbrActSessionOperational, nbrUpdatePeerid, composeLde, setNbr]
      | _ => simp [nbrAct, composeLde, setNbr]

theorem nbrTransition_oper {action : NbrAction} {state : NbrState}
    (h : nbrTransition .oper event = some (action, state)) :
    event = .closeSession ∨ state = .oper ∧ action ≠ .sessionEst ∧ action ≠ .connectSetup := by
  cases event with
  | closeSession => exact .inl rfl
  | pduRcvd =>
    cases h
    exact .inr ⟨rfl, nofun, nofun⟩
  | pduSent =>
    cases h
    exact .inr ⟨rfl, nofun, nofun⟩
  | _ => cases h

/-- A session that closes has transmitted all it was given. -/
def closesEmpty (s : Sessions) : LdpeEvent → Bool
  | .fsm i .closeSession => (s.nbr? i).all fun n =>
    n.mappingList.isEmpty && n.releaseList.isEmpty && n.requestList.isEmpty &&
      n.withdrawList.isEmpty
  | _ => true

theorem list_of_closesEmpty (h : closesEmpty s (.fsm i .closeSession)) (hn : s.nbr? i = some n)
    (k : MapList) : n.list k = [] := by
  simp only [closesEmpty, hn, all_some, Bool.and_eq_true, List.isEmpty_iff] at h
  obtain ⟨⟨⟨hmapping, hrelease⟩, hrequest⟩, hwithdraw⟩ := h
  cases k with
  | mapping => exact hmapping
  | release => exact hrelease
  | request => exact hrequest
  | withdraw => exact hwithdraw

theorem nbrFsm_tidy (h : s.Tidy) (hgood : closesEmpty s (.fsm i event)) :
    (nbrFsm i event s).Tidy := by
  unfold nbrFsm
  split
  · exact h
  rename_i n hn
  split
  · exact h
  rename_i action state htrans
  have htidy : n.Tidy := h.nbrs n (mem_of_nbr? hn)
  by_cases hlists : ∀ k, n.list k = []
  · -- with nothing on its lists the neighbour is tidy in any state
    have hempty (state : NbrState) (peerid : UInt32) :
        { n with state := state, peerid := peerid }.Tidy := Neighbor.tidy_of_nil hlists
    have hset := h.setNbr (i := i) (hempty state n.peerid)
    cases action with
    | sessionEst =>
      have hest := hset.setNbr (i := i) (hempty state
        (nextPeerid ((s.setNbr i { n with state := state }).nbrs.set i
          (some { n with state := state, peerid := 0 }))
          ((s.setNbr i { n with state := state }).nbrs.set i
            (some { n with state := state, peerid := 0 })).length s.peercnt))
      exact ⟨hest.nbrs, h.sent⟩
    | connectSetup =>
      simp only [nbrAct]
      split
      · exact hset
      · exact hset.setNbr (hempty _ n.peerid)
    | _ => exact ⟨hset.nbrs, h.sent⟩
  · have hoper : n.state = .oper := by
      by_contra hne
      exact hlists (htidy.nil hne)
    rw [hoper] at htrans
    rcases nbrTransition_oper htrans with rfl | ⟨rfl, hest, hsetup⟩
    · exact absurd (list_of_closesEmpty hgood hn) hlists
    · have hsame : { n with state := .oper } = n := by rw [← hoper]
      rw [hsame]
      have hset := h.setNbr (i := i) htidy
      cases action with
      | sessionEst => exact absurd rfl hest
      | connectSetup => exact absurd rfl hsetup
      | _ => exact ⟨hset.nbrs, h.sent⟩

theorem nbrDel_tidy (h : s.Tidy) (i : Nat) : (nbrDel i s).Tidy := by
  obtain ⟨hnbrs, hsent⟩ := nbrFsm_others i .closeSession s none
  refine ⟨fun m hm => ?_, ?_⟩
  · simp only [nbrDel, hnbrs] at hm
    rcases mem_or_eq_of_mem_set hm with hm | hm
    · exact h.nbrs m hm
    · cases hm
  · simp only [nbrDel, hsent]
    exact h.sent

theorem nbrFindPeerid_peerid {peerid : UInt32} (h : nbrFindPeerid peerid s.nbrs = some i)
    (hn : s.nbr? i = some n) : n.peerid = peerid ∧ n.peerid ≠ 0 := by
  obtain ⟨hi, hp, -⟩ := findIdx?_eq_some_iff_getElem.mp h
  have hget : s.nbrs[i]? = some (some n) := join_eq_some_iff.mp hn
  rw [getElem?_eq_getElem hi, some.injEq] at hget
  rw [hget, any_some, decide_eq_true_iff] at hp
  exact hp

theorem ldpeDispatchLde_tidy (h : s.Tidy) (msg : LdeMsg) : (ldpeDispatchLde msg s).Tidy := by
  cases msg with
  | add k peerid map =>
    simp only [ldpeDispatchLde]
    split
    · exact h
    rename_i i hi
    split
    · exact h
    rename_i n hn
    split
    · rename_i hstate
      have htidy := h.nbrs n (mem_of_nbr? hn)
      refine h.setNbr (htidy.setList fun q hq => ?_)
      rcases mem_append.mp hq with hq | hq
      · exact htidy k q hq
      · rw [mem_singleton] at hq
        subst hq
        exact ⟨hstate, (nbrFindPeerid_peerid hi hn).1.symm⟩
    · exact h
  | addEnd k peerid =>
    simp only [ldpeDispatchLde]
    split
    · exact h
    rename_i i hi
    split
    · exact h
    rename_i n hn
    split
    · have htidy := h.nbrs n (mem_of_nbr? hn)
      have hset := h.setNbr (i := i) (htidy.setList (k := k) (l := []) fun q hq => nomatch hq)
      refine ⟨hset.nbrs, fun t ht => ?_⟩
      rcases mem_append.mp ht with ht | ht
      · exact h.sent t ht
      · obtain ⟨q, hq, rfl⟩ := mem_map.mp ht
        exact (htidy k q hq).2
    · exact h

theorem handle_tidy {e : LdpeEvent} (h : s.Tidy) (hgood : closesEmpty s e) : (s.handle e).Tidy := by
  have hstart : { s with toLde := [] }.Tidy := ⟨h.nbrs, h.sent⟩
  cases e with
  | nbrNew id v4 v6 =>
    refine ⟨fun m hm => ?_, h.sent⟩
    rcases mem_append.mp hm with hm | hm
    · exact h.nbrs m hm
    · rw [mem_singleton, some.injEq] at hm
      subst hm
      exact Neighbor.tidy_of_nil fun k => by cases k <;> rfl
  | nbrDel i => exact nbrDel_tidy hstart i
  | fsm i event =>
    refine nbrFsm_tidy hstart ?_
    cases event <;> exact hgood
  | fromLde msg => exact ldpeDispatchLde_tidy hstart msg
  | received i msg =>
    simp only [handle]
    split
    · exact hstart
    · split
      · exact ⟨h.nbrs, h.sent⟩
      · exact hstart
  | control msg =>
    simp only [handle]
    split
    · exact hstart
    · exact ⟨h.nbrs, h.sent⟩

end

/-- In a run in which every session that closes has transmitted what it was given,
every map goes out on the session it was composed for. -/
theorem nothing_leaks {tr : List LdpeEvent} {s : Sessions}
    (run : Run sessionStep Sessions.init (fun s e => closesEmpty s e) tr s) :
    ∀ t ∈ s.sent, t.queued.origin = t.session := by
  have htidy : s.Tidy := by
    refine run.invariant ⟨nofun, nofun⟩ fun s e s' hs hgood hrun => ?_
    cases hrun
    exact handle_tidy hs hgood
  exact htidy.sent

/-- A neighbour whose session comes up. -/
def establish (i : Nat) : List LdpeEvent :=
  [.fsm i .matchAdj, .fsm i .initRcvd, .fsm i .keepaliveRcvd]

/-- A map is added and transmitted, the session closes, and the next one does the same. -/
def cleanTrace : List LdpeEvent :=
  [.nbrNew 1 true true] ++ establish 0 ++
    [.fromLde (.add .mapping 2 .zero), .fromLde (.addEnd .mapping 2), .fsm 0 .closeSession] ++
    establish 0 ++ [.fromLde (.add .mapping 3 .zero), .fromLde (.addEnd .mapping 3)]

theorem cleanTrace_nothing_leaks :
    ∃ s, Run sessionStep Sessions.init (fun s e => closesEmpty s e) cleanTrace s ∧
      s.sent.length = 2 ∧ ∀ t ∈ s.sent, t.queued.origin = t.session :=
  ⟨_, Run.of_play (by decide +kernel), by decide +kernel,
    nothing_leaks (Run.of_play (by decide +kernel))⟩

/-- The session closes between the map and the end marker. -/
def leakingTrace : List LdpeEvent :=
  [.nbrNew 1 true true] ++ establish 0 ++
    [.fromLde (.add .mapping 2 .zero), .fsm 0 .closeSession] ++ establish 0 ++
    [.fromLde (.addEnd .mapping 2), .fromLde (.add .mapping 3 .zero), .fromLde (.addEnd .mapping 3)]

theorem leakingTrace_plays :
    (play sessionStep (fun _ _ => True) leakingTrace init).isSome := by decide +kernel

/-- The map of the first session goes out on the second. -/
theorem leakingTrace_leaks : ∃ s, Reachable sessionStep Sessions.init s ∧
      ⟨3, .mapping, ⟨2, .zero⟩⟩ ∈ s.sent := by
  refine ⟨_, (Run.of_play leakingTrace_plays).reachable, ?_⟩
  decide +kernel

end Mp2mp.Ldpe
