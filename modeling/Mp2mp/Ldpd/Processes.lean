import Mp2mp.Lde.Effect
import Mp2mp.Ldpe.Neighbor

/-!
# The two processes and the pipe between them

The LDP engine writes to a pipe what the LDE is to know, in order; the LDE reads
it one message after the other, whenever it gets to run.  In between, the LDE has
events of its own, and the LDP engine hears from the LDE whatever that sends.

* `live_step`: the LDE's set of neighbours changes by the message it reads.
* `handle_announces`: the messages the LDP engine composes carry every change of
  its set of established sessions.
* `sessions_agree`: no session is announced that the LDE already knows, and once the
  pipe is empty the two agree.
-/

namespace Mp2mp.Ldpd

open Kit Ldpe List Sessions Option EStateM

variable {live : UInt32 → Prop} {action : NbrAction} {s₀ : Sessions} {fresh : Bool}

/-! ## The LDE's neighbours -/

/-- A message about a neighbour, as the pipe carries it. -/
abbrev PipeMsg := UInt32 × Lde.Imsg

/-- A set of peer ids after a message. -/
def announce (live : UInt32 → Prop) (m : PipeMsg) : UInt32 → Prop :=
  match m.2 with
  | .neighborUp .. => fun p => p = m.1 ∨ live p
  | .neighborDown => fun p => p ≠ m.1 ∧ live p
  | _ => live

theorem announce_of_not_session {m : PipeMsg} (h : ¬sessionImsg m.2) (live : UInt32 → Prop) :
    announce live m = live := by
  obtain ⟨p, msg⟩ := m
  cases msg with
  | neighborUp => exact absurd rfl h
  | neighborDown => exact absurd rfl h
  | _ => rfl

section

open Lde

variable {r : Freed} {s s' : Engine}

theorem live_of_effect {e : Event} (h : Lde.Effect s e s')
    (he : ∀ fresh p msg, e = .imsg fresh p msg → ¬sessionImsg msg) : s'.Live = s.Live := by
  funext p
  refine propext ?_
  cases h with
  | neighborUp => exact absurd rfl (he _ _ _ rfl)
  | neighborDown => exact absurd rfl (he _ _ _ rfl)
  | settles h => exact h.lib.live p
  | command route joins label => exact joins.lib.live p
  | mapping nbr joins label => exact joins.lib.live p

/-- A neighbour that is not there yet can be announced. -/
theorem run_step_neighborUp {peerid : UInt32} (hnone : s.lib.nbr? peerid = none) (r : Freed)
    (fresh : Bool) (id : InAddr) (v4 v6 : Bool) :
    (step r (.imsg fresh peerid (.neighborUp id v4 v6))).run s =
      .ok () { s.start fresh with lib := ldeNbrNew peerid id v4 v6 (s.start fresh).lib } := by
  have hstart : (s.start fresh).lib.nbr? peerid = none := hnone
  rw [run_step_imsg]
  unfold ldeDispatchImsg
  rw [run_get_bind]
  rw [hstart]
  rfl

theorem live_step {m : PipeMsg}
    (hrun : (step r (.imsg fresh m.1 m.2)).run s = .ok () s') : s'.Live = announce s.Live m := by
  obtain ⟨peerid, msg⟩ := m
  by_cases hmsg : sessionImsg msg
  · have hstart : (s.start fresh).Live = s.Live := rfl
    rw [run_step_imsg] at hrun
    cases msg with
    | neighborUp id v4 v6 =>
      unfold ldeDispatchImsg at hrun
      rw [run_get_bind] at hrun
      split at hrun
      · cases hrun
      · rename_i hnone
        cases hrun
        funext p
        exact propext ((ldeNbrNew_perm (not_isSome_iff_eq_none.mp hnone)).mem_iff.trans
          mem_cons)
    | neighborDown =>
      rw [run_ldeDispatchImsg_nbr r peerid (show (Imsg.neighborDown).forNbr from rfl)] at hrun
      funext p
      refine propext ?_
      cases hln : (s.start fresh).lib.nbr? peerid with
      | none =>
        rw [hln] at hrun
        cases hrun
        refine ⟨fun hp => ⟨?_, hp⟩, fun hp => hp.2⟩
        rintro rfl
        have hsome := Lib.nbr?_isSome.mpr hp
        rw [hln] at hsome
        cases hsome
      | some ln =>
        rw [hln] at hrun
        obtain ⟨-, rfl⟩ := Lib.peerid_of_nbr? hln
        exact live_ldeNbrDel hrun p
    | _ => cases hmsg
  · rw [announce_of_not_session hmsg]
    refine live_of_effect (step_effect hrun) fun fresh' p msg' heq => ?_
    cases heq
    exact hmsg

end

/-! ## A sequence of messages -/

/-- A set of peer ids after some messages. -/
def announceAll (live : UInt32 → Prop) (ms : List PipeMsg) : UInt32 → Prop := ms.foldl announce live

/-- No message announces a neighbour that is up at that point. -/
def UpsFresh (live : UInt32 → Prop) : List PipeMsg → Prop
  | [] => True
  | m :: ms =>
    (∀ id v4 v6, m.2 = .neighborUp id v4 v6 → ¬live m.1) ∧ UpsFresh (announce live m) ms

theorem announceAll_append (live : UInt32 → Prop) (ms ms' : List PipeMsg) :
    announceAll live (ms ++ ms') = announceAll (announceAll live ms) ms' :=
  foldl_append ..

theorem upsFresh_append {ms ms' : List PipeMsg} :
    UpsFresh live (ms ++ ms') ↔ UpsFresh live ms ∧ UpsFresh (announceAll live ms) ms' := by
  induction ms generalizing live with
  | nil => simp [UpsFresh, announceAll]
  | cons m ms ih =>
    simp only [cons_append, UpsFresh, ih, and_assoc]
    rfl

/-- The messages that are not about sessions. -/
theorem announceAll_of_not_session {ms : List PipeMsg}
    (h : ∀ m ∈ ms, ¬sessionImsg m.2) : announceAll live ms = live ∧ UpsFresh live ms := by
  induction ms with
  | nil => exact ⟨rfl, trivial⟩
  | cons m ms ih =>
    have hm := h m mem_cons_self
    have hrest := ih (forall_mem_cons.mp h).2
    rw [announceAll, foldl_cons, UpsFresh, announce_of_not_session hm]
    refine ⟨hrest.1, ?_, hrest.2⟩
    intro id v4 v6 heq
    rw [heq] at hm
    exact absurd rfl hm

/-! ## The established sessions -/

section

variable {s : Sessions} {n n' : Neighbor} {i : Nat}

/-- Some neighbour has an established session with this peer id. -/
def Oper (s : Sessions) (p : UInt32) : Prop :=
  ∃ i n, s.nbr? i = some n ∧ n.state = .oper ∧ n.peerid = p

/-- Every establishment has its own peer id. -/
structure PeeridsUnique (s : Sessions) : Prop where
  count : s.peercnt.toNat = s.established + 1
  bound : ∀ i n, s.nbr? i = some n → n.peerid.toNat ≤ s.established + 1
  oper : ∀ i n, s.nbr? i = some n → n.state = .oper → n.peerid ≠ 0
  distinct : ∀ i j n m, s.nbr? i = some n → s.nbr? j = some m → n.peerid = m.peerid →
    n.peerid ≠ 0 → i = j

theorem nbr?_setNbr (hn : s.nbr? i = some n) (j : Nat) :
    (s.setNbr i n').nbr? j = if j = i then some n' else s.nbr? j := by
  have hi : i < s.nbrs.length := by
    have hget := join_eq_some_iff.mp hn
    exact (List.getElem?_eq_some_iff.mp hget).1
  simp only [nbr?, setNbr, getElem?_set]
  by_cases hij : i = j
  · subst hij
    simp [hi]
  · rw [if_neg hij, if_neg (Ne.symm hij)]

theorem PeeridsUnique.setNbr (h : PeeridsUnique s) (hn : s.nbr? i = some n)
    (hbound : n'.peerid.toNat ≤ s.established + 1) (hoper : n'.state = .oper → n'.peerid ≠ 0)
    (hdistinct : ∀ j m, j ≠ i → s.nbr? j = some m → m.peerid = n'.peerid → n'.peerid = 0) :
    PeeridsUnique (s.setNbr i n') := by
  refine ⟨h.count, fun j m hm => ?_, fun j m hm => ?_, fun j k m m' hm hm' heq hne => ?_⟩
  · rw [nbr?_setNbr hn] at hm
    split at hm
    · cases hm
      exact hbound
    · exact h.bound j m hm
  · rw [nbr?_setNbr hn] at hm
    split at hm
    · cases hm
      exact hoper
    · exact h.oper j m hm
  · rw [nbr?_setNbr hn] at hm hm'
    split at hm
    · split at hm'
      · rename_i hj hk
        exact hj.trans hk.symm
      · rename_i hj hk
        cases hm
        exact absurd (hdistinct k m' hk hm' heq.symm) hne
    · split at hm'
      · rename_i hj hk
        cases hm'
        exact absurd (hdistinct j m hj hm heq) (heq ▸ hne)
      · exact h.distinct j k m m' hm hm' heq hne

/-- A neighbour that keeps its peer id and its standing changes nothing. -/
theorem PeeridsUnique.setNbr_same (h : PeeridsUnique s) (hn : s.nbr? i = some n)
    (hpeerid : n'.peerid = n.peerid) (hstate : n'.state = .oper ↔ n.state = .oper) :
    PeeridsUnique (s.setNbr i n') ∧ Oper (s.setNbr i n') = Oper s := by
  constructor
  · refine h.setNbr hn (hpeerid ▸ h.bound i n hn) (fun hoper => ?_) fun j m hj hm heq => ?_
    · rw [hpeerid]
      exact h.oper i n hn (hstate.mp hoper)
    · by_contra hne
      exact hj (h.distinct j i m n hm hn (heq.trans hpeerid) (heq ▸ hne))
  · funext p
    refine propext ⟨?_, ?_⟩
    · rintro ⟨j, m, hm, hoper, rfl⟩
      rw [nbr?_setNbr hn] at hm
      split at hm
      · cases hm
        exact ⟨i, n, hn, hstate.mp hoper, hpeerid.symm⟩
      · exact ⟨j, m, hm, hoper, rfl⟩
    · rintro ⟨j, m, hm, hoper, rfl⟩
      by_cases hj : j = i
      · subst hj
        rw [hn] at hm
        cases hm
        exact ⟨j, n', by rw [nbr?_setNbr hn, if_pos rfl], hstate.mpr hoper, hpeerid⟩
      · exact ⟨j, m, by rw [nbr?_setNbr hn, if_neg hj]; exact hm, hoper, rfl⟩

theorem oper_close (h : PeeridsUnique s) (hn : s.nbr? i = some n) (hpeerid : n'.peerid = n.peerid)
    (hstate : n'.state ≠ .oper) :
    PeeridsUnique (s.setNbr i n') ∧
      Oper (s.setNbr i n') = announce (Oper s) (n.peerid, .neighborDown) := by
  constructor
  · refine h.setNbr hn (hpeerid ▸ h.bound i n hn) (fun hoper => absurd hoper hstate)
      fun j m hj hm heq => ?_
    by_contra hne
    exact hj (h.distinct j i m n hm hn (heq.trans hpeerid) (heq ▸ hne))
  · funext p
    refine propext ⟨?_, ?_⟩
    · rintro ⟨j, m, hm, hoper, rfl⟩
      rw [nbr?_setNbr hn] at hm
      split at hm
      · cases hm
        exact absurd hoper hstate
      · rename_i hj
        refine ⟨fun heq => hj ?_, j, m, hm, hoper, rfl⟩
        exact h.distinct j i m n hm hn heq (h.oper j m hm hoper)
    · rintro ⟨hne, j, m, hm, hoper, rfl⟩
      have hj : j ≠ i := by
        rintro rfl
        rw [hn] at hm
        cases hm
        exact hne rfl
      exact ⟨j, m, by rw [nbr?_setNbr hn, if_neg hj]; exact hm, hoper, rfl⟩

/-- What the transitions do to the standing of a neighbour. -/
theorem nbrTransition_oper_iff {state state' : NbrState} {event : NbrEvent}
    (h : nbrTransition state event = some (action, state')) :
    (action = .sessionEst ∧ state = .openrec ∧ state' = .oper) ∨
      (action = .closeSession ∧ state' = .present) ∨
      (action ≠ .sessionEst ∧ action ≠ .closeSession ∧ (state' = .oper ↔ state = .oper)) := by
  cases state <;> cases event <;> cases h <;> decide

theorem nbrTransition_initSent {state state' : NbrState}
    (h : nbrTransition state .initSent = some (action, state')) :
    state = .initial ∧ state' = .opensent := by
  cases state <;> cases h
  exact ⟨rfl, rfl⟩

/-- The messages of an event tell the LDE what happened to the sessions. -/
structure Announces (s s' : Sessions) : Prop where
  unique : PeeridsUnique s'
  fresh : UpsFresh (Oper s) s'.toLde
  oper : announceAll (Oper s) s'.toLde = Oper s'

theorem Announces.of_same (h : PeeridsUnique s ∧ Oper s = Oper s₀)
    (hmsgs : ∀ m ∈ s.toLde, ¬sessionImsg m.2) : Announces s₀ s := by
  obtain ⟨hall, hfresh⟩ : announceAll (Oper s₀) s.toLde = Oper s₀ ∧ UpsFresh (Oper s₀) s.toLde :=
    announceAll_of_not_session hmsgs
  exact ⟨h.1, hfresh, hall.trans h.2.symm⟩

theorem Announces.of_start {s' : Sessions} (h : Announces { s with toLde := [] } s') :
    Announces s s' :=
  ⟨h.unique, h.fresh, h.oper⟩

/-- The state once a session is established. -/
def established (i : Nat) (n : Neighbor) (s : Sessions) : Sessions :=
  { s with
    nbrs := s.nbrs.set i (some { n with peerid := s.peercnt + 1 })
    peercnt := s.peercnt + 1
    established := s.established + 1
    toLde := s.toLde ++ [(s.peercnt + 1, .neighborUp n.id n.v4Enabled n.v6Enabled),
      (s.peercnt + 1, .labelMappingFull)] }

section

variable (h : PeeridsUnique s) (hcount : s.established + 1 < 2 ^ 32 - 1)

include h hcount

theorem toNat_nextPeerid : (s.peercnt + 1).toNat = s.established + 2 := by
  have hone : (1 : UInt32).toNat = 1 := rfl
  rw [UInt32.toNat_add, h.count, hone]
  exact Nat.mod_eq_of_lt (by omega)

/-- The next peer id is free; the neighbour itself is not in the tree at that point. -/
theorem nextPeerid_eq (hn : n.peerid = 0) (i fuel : Nat) :
    nextPeerid (s.nbrs.set i (some n)) fuel s.peercnt = s.peercnt + 1 := by
  have hfree : nbrFindPeerid (s.peercnt + 1) (s.nbrs.set i (some n)) = none := by
    rw [nbrFindPeerid, findIdx?_eq_none_iff]
    intro o ho
    rcases o with _ | m
    · rfl
    · rw [any_some, decide_eq_false_iff_not]
      rintro ⟨heq, hne⟩
      rcases mem_or_eq_of_mem_set ho with hm | hm
      · obtain ⟨j, hj, hget⟩ := getElem_of_mem hm
        have hbound := h.bound j m (by simp [nbr?, hj, hget])
        rw [heq, toNat_nextPeerid h hcount] at hbound
        omega
      · cases hm
        exact hne hn
  cases fuel with
  | zero => rfl
  | succ fuel => rw [nextPeerid, hfree, if_neg (by simp)]

theorem nbrActSessionOperational_eq (i : Nat) (n n' : Neighbor) :
    nbrActSessionOperational i n (s.setNbr i n') = established i n s := by
  have hnext := nextPeerid_eq (n := { n with peerid := 0 }) h hcount rfl i
  simp only [nbrActSessionOperational, nbrUpdatePeerid, setNbr, composeLde,
    set_set, hnext, append_assoc]
  rfl

theorem established_announces (hn : s.nbr? i = some n) (hstate : n.state ≠ .oper)
    (hstate' : n'.state = .oper) (hquiet : s.toLde = []) : Announces s (established i n' s) := by
  have hnext := toNat_nextPeerid h hcount
  have hfresh : ∀ j m, s.nbr? j = some m → m.peerid ≠ s.peercnt + 1 := by
    intro j m hm heq
    have hbound := h.bound j m hm
    rw [heq, hnext] at hbound
    omega
  have hnbr? (j : Nat) : (established i n' s).nbr? j =
      if j = i then some { n' with peerid := s.peercnt + 1 } else s.nbr? j := nbr?_setNbr hn j
  refine ⟨?_, ?_, ?_⟩
  · let s₁ : Sessions := { established i n' s with nbrs := s.nbrs }
    have hcounted : PeeridsUnique s₁ :=
      ⟨hnext, fun j m hm => (h.bound j m hm).trans (Nat.le_succ _), h.oper, h.distinct⟩
    show PeeridsUnique (s₁.setNbr i { n' with peerid := s.peercnt + 1 })
    refine hcounted.setNbr hn hnext.le (fun _ heq => ?_)
      fun j m _ hm heq => absurd heq (hfresh j m hm)
    have hzero := congrArg UInt32.toNat heq
    rw [hnext] at hzero
    exact absurd hzero (by simp)
  · simp only [established, hquiet, nil_append, UpsFresh, and_true]
    refine ⟨?_, nofun⟩
    rintro _ _ _ - ⟨j, m, hm, -, heq⟩
    exact hfresh j m hm heq
  · have hall : announceAll (Oper s) (established i n' s).toLde =
        fun p => p = s.peercnt + 1 ∨ Oper s p := by
      simp only [established, hquiet, nil_append]
      rfl
    rw [hall]
    funext p
    refine propext ⟨?_, ?_⟩
    · rintro (rfl | ⟨j, m, hm, hoper, rfl⟩)
      · exact ⟨i, { n' with peerid := s.peercnt + 1 }, by rw [hnbr?, if_pos rfl], hstate', rfl⟩
      · have hj : j ≠ i := by
          rintro rfl
          rw [hn] at hm
          cases hm
          exact hstate hoper
        exact ⟨j, m, by rw [hnbr?, if_neg hj]; exact hm, hoper, rfl⟩
    · rintro ⟨j, m, hm, hoper, rfl⟩
      rw [hnbr?] at hm
      split at hm
      · cases hm
        exact .inl rfl
      · exact .inr ⟨j, m, hm, hoper, rfl⟩

theorem nbrFsm_announces (hquiet : s.toLde = []) (i : Nat) (event : NbrEvent) :
    Announces s (nbrFsm i event s) := by
  have hnone : Announces s s := .of_same ⟨h, rfl⟩ (by simp [hquiet])
  unfold nbrFsm
  split
  · exact hnone
  rename_i n hn
  split
  · exact hnone
  rename_i action state htrans
  dsimp only
  rcases nbrTransition_oper_iff htrans with ⟨rfl, hold, rfl⟩ | ⟨rfl, rfl⟩ | ⟨hest, hclose, hiff⟩
  · rw [nbrAct, nbrActSessionOperational_eq h hcount]
    exact established_announces h hcount hn (by simp [hold]) rfl hquiet
  · let closed : Neighbor := { n with state := .present }
    obtain ⟨hunique, hoper⟩ : PeeridsUnique (s.setNbr i closed) ∧
        Oper (s.setNbr i closed) = announce (Oper s) (n.peerid, .neighborDown) :=
      oper_close h hn rfl (by simp [closed])
    refine ⟨⟨hunique.count, hunique.bound, hunique.oper, hunique.distinct⟩, ?_, ?_⟩
    · simp only [nbrAct, composeLde, setNbr, hquiet, nil_append, UpsFresh, and_true]
      simp
    · simp only [nbrAct, composeLde, setNbr, hquiet, nil_append]
      exact hoper.symm
  · have hset : Announces s (s.setNbr i { n with state := state }) :=
      .of_same (h.setNbr_same hn rfl hiff) (by simp [setNbr, hquiet])
    cases action with
    | sessionEst => exact absurd rfl hest
    | closeSession => exact absurd rfl hclose
    | connectSetup =>
      simp only [nbrAct]
      split
      · exact hset
      · rename_i action' state' htrans'
        obtain ⟨rfl, rfl⟩ := nbrTransition_initSent htrans'
        have hstate : NbrState.opensent = .oper ↔ n.state = .oper :=
          iff_of_false (by simp) fun hoper => absurd (hiff.mpr hoper) (by simp)
        have hset_set : (s.setNbr i { n with state := .initial }).setNbr i
            { n with state := .opensent } = s.setNbr i { n with state := .opensent } := by
          simp only [setNbr, set_set]
        rw [hset_set]
        exact .of_same (h.setNbr_same hn rfl hstate) (by simp [setNbr, hquiet])
    | _ => exact hset

end

theorem removeNbr_announces (h : Announces s₀ s)
    (hstate : ∀ n, s.nbr? i = some n → n.state ≠ .oper) :
    Announces s₀ { s with nbrs := s.nbrs.set i none } := by
  have hnbr? (j : Nat) (m : Neighbor) :
      ({ s with nbrs := s.nbrs.set i none } : Sessions).nbr? j = some m ↔
        j ≠ i ∧ s.nbr? j = some m := by
    simp only [nbr?, getElem?_set]
    by_cases hij : i = j
    · subst hij
      simp only [if_true, ne_eq, not_true_eq_false, false_and, iff_false]
      split <;> simp
    · simp [hij, Ne.symm hij]
  refine ⟨⟨h.unique.count, fun j m hm => ?_, fun j m hm => ?_, fun j k m m' hm hm' => ?_⟩, h.fresh,
    h.oper.trans ?_⟩
  · exact h.unique.bound j m ((hnbr? j m).mp hm).2
  · exact h.unique.oper j m ((hnbr? j m).mp hm).2
  · exact h.unique.distinct j k m m' ((hnbr? j m).mp hm).2 ((hnbr? k m').mp hm').2
  · funext p
    refine propext ⟨?_, ?_⟩
    · rintro ⟨j, m, hm, hoper, rfl⟩
      have hj : j ≠ i := by
        rintro rfl
        exact hstate m hm hoper
      exact ⟨j, m, (hnbr? j m).mpr ⟨hj, hm⟩, hoper, rfl⟩
    · rintro ⟨j, m, hm, hoper, rfl⟩
      exact ⟨j, m, ((hnbr? j m).mp hm).2, hoper, rfl⟩

theorem nbrFsm_closeSession {i : Nat} {s : Sessions} :
    ∀ n, (nbrFsm i .closeSession s).nbr? i = some n → n.state ≠ .oper := by
  intro n hn
  unfold nbrFsm at hn
  cases hold : s.nbr? i with
  | none =>
    rw [hold] at hn
    dsimp only at hn
    rw [hold] at hn
    cases hn
  | some m =>
    rw [hold] at hn
    have hset (state : NbrState) : (s.setNbr i { m with state := state }).nbr? i =
        some { m with state := state } := by rw [nbr?_setNbr hold, if_pos rfl]
    cases hstate : m.state with
    | present =>
      have htrans : nbrTransition m.state .closeSession = some (.nothing, .present) := by
        rw [hstate]
        rfl
      simp only [htrans, nbrAct, hset, some.injEq] at hn
      rw [← hn]
      simp
    | _ =>
      have htrans : nbrTransition m.state .closeSession = some (.closeSession, .present) := by
        rw [hstate]
        rfl
      have hcompose : ((s.setNbr i { m with state := .present }).composeLde m.peerid
          .neighborDown).nbr? i = some { m with state := .present } := hset .present
      simp only [htrans, nbrAct, hcompose, some.injEq] at hn
      rw [← hn]
      simp

theorem ldpeDispatchLde_announces (h : PeeridsUnique s) (hquiet : s.toLde = []) (msg : LdeMsg) :
    Announces s (ldpeDispatchLde msg s) := by
  have hnone : Announces s s := .of_same ⟨h, rfl⟩ (by rw [hquiet]; exact fun _ => nofun)
  have hset {i : Nat} {n : Neighbor} (hn : s.nbr? i = some n) (k : MapList) (l : List Queued) :
      Announces s (s.setNbr i (n.setList k l)) := by
    obtain ⟨hstate, hpeerid⟩ := n.setList_eq k l
    exact .of_same (h.setNbr_same hn hpeerid (by rw [hstate])) (by simp [setNbr, hquiet])
  cases msg with
  | add k peerid map =>
    simp only [ldpeDispatchLde]
    split
    · exact hnone
    · split
      · exact hnone
      · rename_i hn
        split
        · exact hset hn k _
        · exact hnone
  | addEnd k peerid =>
    simp only [ldpeDispatchLde]
    split
    · exact hnone
    · split
      · exact hnone
      · rename_i hn
        split
        · obtain ⟨hunique, hfresh, hoper⟩ := hset hn k []
          exact ⟨⟨hunique.count, hunique.bound, hunique.oper, hunique.distinct⟩, hfresh, hoper⟩
        · exact hnone

theorem nbrNew_announces (h : PeeridsUnique s) (hquiet : s.toLde = []) (id : InAddr) (v4 v6 : Bool) :
    Announces s (nbrNew id v4 v6 s) := by
  set fresh : Neighbor := ⟨id, v4, v6, .present, 0, [], [], [], []⟩ with hfresh
  have hnbr? (j : Nat) (m : Neighbor) :
      (nbrNew id v4 v6 s).nbr? j = some m → s.nbr? j = some m ∨ m = fresh := by
    intro hm
    have hget := join_eq_some_iff.mp hm
    simp only [nbrNew, getElem?_append] at hget
    split at hget
    · exact .inl (join_eq_some_iff.mpr hget)
    · have hmem := mem_of_getElem? hget
      rw [mem_singleton, some.injEq] at hmem
      exact .inr hmem
  have hkeep (j : Nat) (m : Neighbor) (hm : s.nbr? j = some m) :
      (nbrNew id v4 v6 s).nbr? j = some m := by
    have hget := join_eq_some_iff.mp hm
    have hj := (List.getElem?_eq_some_iff.mp hget).1
    refine join_eq_some_iff.mpr ?_
    rw [nbrNew, getElem?_append_left hj]
    exact hget
  refine .of_same ⟨⟨h.count, fun j m hm => ?_, fun j m hm => ?_, fun j k m m' hm hm' heq hne => ?_⟩,
    ?_⟩ (by simp [nbrNew, hquiet])
  · rcases hnbr? j m hm with hm | rfl
    · exact h.bound j m hm
    · exact zero_le
  · rcases hnbr? j m hm with hm | rfl
    · exact h.oper j m hm
    · exact nofun
  · rcases hnbr? j m hm with hm | rfl
    · rcases hnbr? k m' hm' with hm' | rfl
      · exact h.distinct j k m m' hm hm' heq hne
      · exact absurd heq hne
    · exact absurd rfl hne
  · funext p
    refine propext ⟨?_, ?_⟩
    · rintro ⟨j, m, hm, hoper, rfl⟩
      rcases hnbr? j m hm with hm | rfl
      · exact ⟨j, m, hm, hoper, rfl⟩
      · cases hoper
    · rintro ⟨j, m, hm, hoper, rfl⟩
      exact ⟨j, m, hkeep j m hm, hoper, rfl⟩

theorem handle_announces (h : PeeridsUnique s) (hcount : s.established + 1 < 2 ^ 32 - 1)
    (e : LdpeEvent) : Announces s (s.handle e) := by
  set s₀ : Sessions := { s with toLde := [] } with hs₀
  have h₀ : PeeridsUnique s₀ := ⟨h.count, h.bound, h.oper, h.distinct⟩
  have hnone : Announces s s₀ := .of_same ⟨h₀, rfl⟩ fun _ => nofun
  cases e with
  | nbrNew id v4 v6 => exact (nbrNew_announces h₀ rfl id v4 v6).of_start
  | nbrDel i =>
    have hclose : Announces s (nbrFsm i .closeSession s₀) :=
      (nbrFsm_announces h₀ hcount rfl i .closeSession).of_start
    exact removeNbr_announces hclose nbrFsm_closeSession
  | fsm i event => exact (nbrFsm_announces h₀ hcount rfl i event).of_start
  | fromLde msg => exact (ldpeDispatchLde_announces h₀ rfl msg).of_start
  | received i msg =>
    simp only [handle]
    split
    · exact hnone
    · split
      · rename_i hmsg
        refine .of_same ⟨⟨h.count, h.bound, h.oper, h.distinct⟩, rfl⟩ fun m hm => ?_
        rw [mem_singleton.mp hm]
        exact hmsg.2
      · exact hnone
  | control msg =>
    simp only [handle]
    split
    · exact hnone
    · rename_i hmsg
      refine .of_same ⟨⟨h.count, h.bound, h.oper, h.distinct⟩, rfl⟩ fun m hm => ?_
      rw [mem_singleton.mp hm]
      exact hmsg

theorem nbrFsm_established (i : Nat) (event : NbrEvent) (s : Sessions) :
    s.established ≤ (nbrFsm i event s).established := by
  unfold nbrFsm
  split
  · exact le_refl _
  · split
    · exact le_refl _
    · rename_i n _ action state _
      cases action with
      | sessionEst => exact Nat.le_succ _
      | connectSetup =>
        simp only [nbrAct]
        split <;> exact le_refl _
      | _ => exact le_refl _

theorem handle_established {e : LdpeEvent} {s : Sessions} :
    s.established ≤ (s.handle e).established := by
  cases e with
  | nbrDel i => exact nbrFsm_established i .closeSession { s with toLde := [] }
  | fsm i event => exact nbrFsm_established i event { s with toLde := [] }
  | fromLde msg =>
    cases msg <;>
    · simp only [handle, ldpeDispatchLde]
      split
      · exact le_refl _
      · split
        · exact le_refl _
        · split <;> exact le_refl _
  | received i msg =>
    simp only [handle]
    split
    · exact le_refl _
    · split <;> exact le_refl _
  | control msg =>
    simp only [handle]
    split <;> exact le_refl _
  | nbrNew id v4 v6 => exact le_refl _

end

/-! ## The two processes -/

/-- The LDP engine, the pipe to the LDE, and the LDE. -/
structure Processes where
  ldpe : Sessions
  pipe : List PipeMsg
  lde : Lde.Engine
deriving DecidableEq, Repr

def Processes.init : Processes := ⟨.init, [], .init⟩

/-- An event of one of the processes; `fresh` says that the LDE starts a new call
of `lde_dispatch_imsg` with the message. -/
inductive ProcessEvent
  | ldpe (e : LdpeEvent)
  | ldeReads (fresh : Bool)
  | parent (e : Lde.ParentEvent)
deriving DecidableEq, Repr

/-- Let the LDE run. -/
def onLde (x : Lde.LdeM Unit) : EStateM Lde.Fault Processes Unit := fun s =>
  match x.run s.lde with
  | .ok _ lde => .ok () { s with lde := lde }
  | .error f lde => .error f { s with lde := lde }

def processStep (r : Lde.Freed) : ProcessEvent → EStateM Lde.Fault Processes Unit
  | .ldpe e => modify fun s =>
    { s with ldpe := s.ldpe.handle e, pipe := s.pipe ++ (s.ldpe.handle e).toLde }
  | .ldeReads fresh => do
      match (← get).pipe with
      | [] => pure ()
      | (peerid, msg) :: rest => do
        modify fun s => { s with pipe := rest }
        onLde (Lde.step r (.imsg fresh peerid msg))
  | .parent e => onLde (Lde.step r (.parent e))

variable {e : ProcessEvent}

section

variable {r : Lde.Freed} {s s' : Processes}

theorem run_onLde {x : Lde.LdeM Unit} (hrun : (onLde x).run s = .ok () s') :
    ∃ lde, x.run s.lde = .ok () lde ∧ s' = { s with lde := lde } := by
  have hunfold : (onLde x).run s = match x.run s.lde with
      | .ok _ lde => .ok () { s with lde := lde }
      | .error f lde => .error f { s with lde := lde } := rfl
  rw [hunfold] at hrun
  cases hx : x.run s.lde with
  | ok a lde =>
    rw [hx] at hrun
    cases hrun
    exact ⟨lde, rfl, rfl⟩
  | error f lde =>
    rw [hx] at hrun
    cases hrun

theorem run_ldeReads {r : Lde.Freed} {s : Processes} :
    (processStep r (.ldeReads fresh)).run s =
      match s.pipe with
      | [] => .ok () s
      | m :: rest =>
        (onLde (Lde.step r (.imsg fresh m.1 m.2))).run { s with pipe := rest } := by
  simp only [processStep, run_bind, run_get]
  cases s.pipe with
  | nil => rfl
  | cons m rest => rfl

/-- What an event of the system can be. -/
theorem processStep_inv (hrun : (processStep r e).run s = .ok () s') : (∃ e', s' = { s with
        ldpe := s.ldpe.handle e', pipe := s.pipe ++ (s.ldpe.handle e').toLde }) ∨
      s' = s ∨
      (∃ m rest fresh lde, s.pipe = m :: rest ∧
        (Lde.step r (.imsg fresh m.1 m.2)).run s.lde = .ok () lde ∧
        s' = { s with pipe := rest, lde := lde }) ∨
      ∃ e' lde, (Lde.step r (.parent e')).run s.lde = .ok () lde ∧ s' = { s with lde := lde } := by
  cases e with
  | ldpe e =>
    cases hrun
    exact .inl ⟨e, rfl⟩
  | ldeReads fresh =>
    rw [run_ldeReads] at hrun
    cases hpipe : s.pipe with
    | nil =>
      rw [hpipe] at hrun
      cases hrun
      exact .inr (.inl rfl)
    | cons m rest =>
      rw [hpipe] at hrun
      obtain ⟨lde, hlde, rfl⟩ := run_onLde hrun
      exact .inr (.inr (.inl ⟨m, rest, fresh, lde, rfl, hlde, rfl⟩))
  | parent e =>
    have honLde : (onLde (Lde.step r (.parent e))).run s = .ok () s' := hrun
    obtain ⟨lde, hlde, rfl⟩ := run_onLde honLde
    exact .inr (.inr (.inr ⟨e, lde, hlde, rfl⟩))

/-- What the LDE will know once it has read the pipe is what the LDP engine knows. -/
structure Agree (s : Processes) : Prop where
  unique : PeeridsUnique s.ldpe
  fresh : UpsFresh s.lde.Live s.pipe
  views : announceAll s.lde.Live s.pipe = Oper s.ldpe

theorem Agree.step (h : Agree s) (hcount : s.ldpe.established < 2 ^ 31)
    (hrun : (processStep r e).run s = .ok () s') : Agree s' := by
  rcases processStep_inv hrun with ⟨e', rfl⟩ | rfl | ⟨m, rest, fresh, lde, hpipe, hlde, rfl⟩ |
    ⟨e', lde, hlde, rfl⟩
  · obtain ⟨hunique, hfresh, hoper⟩ := handle_announces h.unique (by omega) e'
    refine ⟨hunique, upsFresh_append.mpr ⟨h.fresh, ?_⟩, ?_⟩
    · rw [h.views]
      exact hfresh
    · rw [announceAll_append, h.views]
      exact hoper
  · exact h
  · have hfresh := h.fresh
    have hviews := h.views
    rw [hpipe] at hfresh hviews
    have hlive := live_step hlde
    refine ⟨h.unique, ?_, ?_⟩
    · show UpsFresh lde.Live rest
      rw [hlive]
      exact hfresh.2
    · show announceAll lde.Live rest = Oper s.ldpe
      rw [hlive]
      exact hviews
  · have hlive : lde.Live = s.lde.Live := live_of_effect (Lde.step_effect hlde) nofun
    refine ⟨h.unique, ?_, ?_⟩
    · show UpsFresh lde.Live s.pipe
      rw [hlive]
      exact h.fresh
    · show announceAll lde.Live s.pipe = Oper s.ldpe
      rw [hlive]
      exact h.views

theorem established_step (hrun : (processStep r e).run s = .ok () s') :
    s.ldpe.established ≤ s'.ldpe.established := by
  rcases processStep_inv hrun with ⟨e', rfl⟩ | rfl | ⟨m, rest, fresh, lde, -, -, rfl⟩ |
    ⟨e', lde, -, rfl⟩
  · exact handle_established
  · exact le_refl _
  · exact le_refl _
  · exact le_refl _

theorem agree_of_reachable (h : Reachable (processStep r) Processes.init s)
    (hcount : s.ldpe.established < 2 ^ 31) : Agree s := by
  refine Reachable.invariant (I := fun s => s.ldpe.established < 2 ^ 31 → Agree s) (fun _ => ?_)
    (fun s e s' hs hrun hcount => ?_) h hcount
  · refine ⟨⟨rfl, nofun, nofun, nofun⟩, trivial, ?_⟩
    funext p
    refine propext ⟨fun hp => absurd hp not_mem_nil, ?_⟩
    rintro ⟨i, n, hn, -⟩
    cases hn
  · have hbefore := lt_of_le_of_lt (established_step hrun) hcount
    exact (hs hbefore).step hbefore hrun

/-- A session that is announced is none the LDE holds, so that reading the
announcement succeeds; and once the pipe is empty, the neighbours of the LDE are
the neighbours of the LDP engine that have an established session. -/
theorem sessions_agree (h : Reachable (processStep r) Processes.init s)
    (hcount : s.ldpe.established < 2 ^ 31) :
    (∀ p id v4 v6 rest, s.pipe = (p, .neighborUp id v4 v6) :: rest →
      s.lde.lib.nbr? p = none ∧ ∀ fresh, fault (processStep r (.ldeReads fresh)) s = none) ∧
    (s.pipe = [] → ∀ p, p ∈ s.lde.lib.nbrs.map Lde.LdeNbr.peerid ↔
      ∃ n, some n ∈ s.ldpe.nbrs ∧ n.state = .oper ∧ n.peerid = p) := by
  have hagree := agree_of_reachable h hcount
  constructor
  · intro p id v4 v6 rest hpipe
    have hfresh := hagree.fresh
    rw [hpipe] at hfresh
    have hnone : s.lde.lib.nbr? p = none := by
      rw [← not_isSome_iff_eq_none, Lde.Lib.nbr?_isSome]
      exact hfresh.1 id v4 v6 rfl
    refine ⟨hnone, fun fresh => ?_⟩
    have hread : (processStep r (.ldeReads fresh)).run s =
        (onLde (Lde.step r (.imsg fresh p (.neighborUp id v4 v6)))).run { s with pipe := rest } := by
      rw [run_ldeReads, hpipe]
    have hlde := run_step_neighborUp hnone r fresh id v4 v6
    rw [fault, hread]
    simp only [onLde, run] at hlde ⊢
    rw [hlde]
  · intro hpipe p
    have hviews := hagree.views
    rw [hpipe] at hviews
    have hp : s.lde.Live p ↔ Oper s.ldpe p := by
      rw [← hviews]
      exact Iff.rfl
    refine hp.trans ⟨?_, ?_⟩
    · rintro ⟨i, n, hn, hoper, rfl⟩
      exact ⟨n, mem_of_nbr? hn, hoper, rfl⟩
    · rintro ⟨n, hn, hoper, rfl⟩
      obtain ⟨i, hi, hget⟩ := getElem_of_mem hn
      exact ⟨i, n, by simp [nbr?, hi, hget], hoper, rfl⟩

end

/-- A session comes up, and the LDE reads of it. -/
def sessionUp : List ProcessEvent :=
  [.ldpe (.nbrNew 1 true true), .ldpe (.fsm 0 .matchAdj), .ldpe (.fsm 0 .initRcvd),
    .ldpe (.fsm 0 .keepaliveRcvd), .ldeReads true, .ldeReads false]

theorem sessionUp_plays :
    (play (processStep .lost) (fun _ _ => True) sessionUp Processes.init).isSome := by
  decide +kernel

theorem sessionUp_agree :
    let s := (play (processStep .lost) (fun _ _ => True) sessionUp Processes.init).get sessionUp_plays
    ∀ p, p ∈ s.lde.lib.nbrs.map Lde.LdeNbr.peerid ↔
      ∃ n, some n ∈ s.ldpe.nbrs ∧ n.state = .oper ∧ n.peerid = p :=
  (sessions_agree (Run.of_play sessionUp_plays).reachable (by decide +kernel)).2 (by decide +kernel)

end Mp2mp.Ldpd
