import Mp2mp.Ldpe.Neighbor
import Mp2mp.Ldpe.Session

/-!
# Establishing a session

A neighbour with its TCP connection: what was sent and received on the connection, and the
parameters that the Initialization message negotiates.

* `peerFsm`: `nbr_fsm` with the actions that concern the connection.
* `peerRead`: `session_read`, with `recv_init` and `recv_keepalive`.
* `session_safe`: there is a connection exactly outside PRESENT, and a session that is operational
  has been through the whole handshake on it.
-/

namespace Mp2mp.Ldpe

open Kit Ldpd List

/-! ## The connection -/

/-- The fields of `struct sess_prms_tlv` that `recv_init` looks at. -/
structure SessPrms where
  length : Nat
  protoVersion : Nat
  keepaliveTime : Nat
  maxPduLen : Nat
  lsrId : InAddr
  lspaceId : Nat
deriving DecidableEq, Repr

def sessPrmsSize : Nat := 18
def sessPrmsLen : Nat := 14
def minKeepalive : Nat := 3

/-- The TLV at the start of the bytes. -/
def SessPrms.read (buf : List UInt8) : SessPrms :=
  { length := field buf 2 2, protoVersion := field buf 4 2, keepaliveTime := field buf 6 2,
    maxPduLen := field buf 10 2, lsrId := .ofNat (field buf 12 4), lspaceId := field buf 16 2 }

/-- What `recv_init` reads of the configuration: the router id and `nbr_get_keepalive`. -/
structure SessConf where
  rtrId : InAddr
  keepalive : Nat
deriving DecidableEq, Repr

/-- The parameters are for this router. -/
def SessPrms.Valid (rtrId : InAddr) (sess : SessPrms) : Prop :=
  sess.length = sessPrmsLen ∧ sess.protoVersion = ldpVersion ∧ minKeepalive ≤ sess.keepaliveTime ∧
    sess.lsrId = rtrId ∧ sess.lspaceId = 0

/-- What happened on a connection. -/
inductive ConnEvent
  | initSent
  | keepaliveSent
  | initAccepted (rtrId : InAddr) (sess : SessPrms)
  | keepaliveRcvd
deriving DecidableEq, Repr

/-- `struct tcp_conn`: the read buffer, and what happened on the connection. -/
structure TcpConn where
  rbuf : List UInt8
  history : List ConnEvent
deriving DecidableEq, Repr

/-- `struct nbr`, as far as its session goes.  `handed` are the address and label messages that
were handed on, with the state they were handed on in. -/
structure Peer where
  id : InAddr
  state : NbrState
  tcp : Option TcpConn
  keepalive : Nat
  maxPduLen : Nat
  handed : List (MsgType × NbrState)
deriving DecidableEq, Repr

def Peer.log (n : Peer) (e : ConnEvent) : Peer :=
  { n with tcp := n.tcp.map fun c => { c with history := c.history ++ [e] } }

def tcpNew : TcpConn := ⟨[], []⟩

/-! ## The state machine -/

/-- The actions of `nbr_fsm` on the connection; `next` triggers the next state. Timers, and the
messages that follow the establishment of a session, are left out. -/
def Peer.act (next : NbrEvent → Peer → Peer) (n : Peer) : NbrAction → Peer
  | .connectSetup => next .initSent ({ n with tcp := some tcpNew }.log .initSent)
  | .passiveInit => (n.log .initSent).log .keepaliveSent
  | .keepaliveSend => n.log .keepaliveSent
  | .closeSession => { n with tcp := none }
  | .nothing | .rstKtimeout | .rstKtimer | .sessionEst => n

def Peer.move (next : NbrEvent → Peer → Peer) (event : NbrEvent) (n : Peer) : Peer :=
  match nbrTransition n.state event with
  | none => n
  | some (action, state) => { n with state := state }.act next action

/-- `nbr_fsm`.  The call within is for `NBR_EVT_INIT_SENT`, which has no action of its own. -/
def peerFsm (event : NbrEvent) (n : Peer) : Peer := n.move (Peer.move fun _ n => n) event

/-- `session_shutdown` -/
def peerShutdown (n : Peer) : Peer := if n.state = .present then n else peerFsm .closeSession n

def sessionAcceptNbr (n : Peer) : Peer := peerFsm .matchAdj { n with tcp := some tcpNew }

/-- `session_accept`, once the neighbour is found; `active` is `nbr_session_active_role`. -/
def sessionAccept (active : Bool) (n : Peer) : Peer :=
  if active then n else if n.state ≠ .present then n else sessionAcceptNbr n

/-! ## Messages -/

/-- The optional parameters of an Initialization message; fuel counts them. -/
def initOptions : Nat → List UInt8 → Bool
  | 0, buf => buf.isEmpty
  | fuel + 1, buf =>
    if buf.isEmpty then true
    else if buf.length < tlvHdrSize then false
    else if field buf 2 2 + tlvHdrSize > buf.length then false
    -- `TLV_TYPE_ATMSESSIONPAR`, `TLV_TYPE_FRSESSION`
    else if field buf 0 2 = 0x0501 ∨ field buf 0 2 = 0x0502 then false
    else initOptions fuel (buf.drop (tlvHdrSize + field buf 2 2))

/-- `recv_init`; the result says whether the message was accepted. -/
def recvInit (conf : SessConf) (msg : List UInt8) (n : Peer) : Peer × Bool :=
  let buf := msg.drop ldpMsgSize
  let sess := SessPrms.read buf
  if buf.length < sessPrmsSize then (peerShutdown n, false)
  else if sess.length ≠ sessPrmsLen then (peerShutdown n, false)
  else if sess.protoVersion ≠ ldpVersion then (peerShutdown n, false)
  else if sess.keepaliveTime < minKeepalive then (peerShutdown n, false)
  else if sess.lsrId ≠ conf.rtrId ∨ sess.lspaceId ≠ 0 then (peerShutdown n, false)
  else if ¬initOptions buf.length (buf.drop sessPrmsSize) then (peerShutdown n, false)
  else
    let maxPduLen := if sess.maxPduLen ≤ 255 then ldpMaxLen else sess.maxPduLen
    let n := { n with
      keepalive := min conf.keepalive sess.keepaliveTime, maxPduLen := min maxPduLen ldpMaxLen }
    (peerFsm .initRcvd (n.log (.initAccepted conf.rtrId sess)), true)

def recvKeepalive (msg : List UInt8) (n : Peer) : Peer × Bool :=
  if msg.length ≠ ldpMsgSize then (peerShutdown n, false)
  else
    let n := n.log .keepaliveRcvd
    (if n.state ≠ .oper then peerFsm .keepaliveRcvd n else n, true)

/-- What a receiver that is not modelled here did: whether it shut the session down, and whether
it returned without an error. -/
structure Verdict where
  closes : Bool
  goesOn : Bool
deriving DecidableEq, Repr

def Peer.after (n : Peer) (v : Verdict) : Peer × Bool :=
  (if v.closes then peerShutdown n else n, v.goesOn)

section

variable (conf : SessConf) (other : Peer → List UInt8 → Verdict)

/-- The switch of `session_read` over the type of a message that the state admits. -/
def peerMessage (type : MsgType) (msg : List UInt8) (n : Peer) : Peer × Bool :=
  match type with
  | .init => recvInit conf msg n
  | .keepalive => recvKeepalive msg n
  | .addr | .addrWithdraw | .label _ =>
    { n with handed := n.handed ++ [(type, n.state)] }.after (other n msg)
  | .notification | .other => n.after (other n msg)

/-- The message loop of `session_read`; fuel counts the messages. -/
def peerMessages : Nat → Peer → List UInt8 → Nat → Peer × Bool
  | 0, n, _, _ => (n, false)
  | fuel + 1, n, pdu, pduLen =>
    if pdu.length < ldpMsgSize then if pdu.length ≠ 0 then (peerShutdown n, false) else (n, true)
    else
      let msgLen := field pdu 2 2
      if msgLen < ldpMsgLen ∨ msgLen + ldpMsgDeadLen > pduLen then (peerShutdown n, false)
      else
        let msgSize := msgLen + ldpMsgDeadLen
        let type := MsgType.ofCode (field pdu 0 2)
        if n.state.admits type then
          let r := peerMessage conf other type (pdu.take msgSize) n
          if r.2 then peerMessages fuel r.1 (pdu.drop msgSize) (pduLen - msgSize) else r
        else (peerShutdown n, false)

/-- What `session_read` does with a PDU. -/
def peerPdu (n : Peer) (pdu : List UInt8) : Peer × Bool :=
  if field pdu 0 2 ≠ ldpVersion then (peerShutdown n, false)
  else
    let pduLen := field pdu 2 2
    let maxPduLen := if n.state = .oper then n.maxPduLen else ldpMaxLen
    if pduLen < ldpHdrPduLen + ldpMsgSize ∨ pduLen > maxPduLen then (peerShutdown n, false)
    else if UInt32.ofNat (field pdu 4 4) ≠ n.id ∨ field pdu 8 2 ≠ 0 then (peerShutdown n, false)
    else
      peerMessages conf other pdu.length (peerFsm .pduRcvd n) (pdu.drop ldpHdrSize)
        (pduLen - ldpHdrPduLen)

/-- `session_read`, when these bytes can be read.  None, or a full buffer, is the end of the
connection. -/
def peerRead (data : List UInt8) (n : Peer) : Peer :=
  match n.tcp with
  | none => n
  | some c =>
    let got := data.take (ibufReadSize - c.rbuf.length)
    if got = [] then peerFsm .closeSession n
    else
      let buf := c.rbuf ++ got
      let r := drain sessionGetPdu (peerPdu conf other) buf.length n buf
      { r.1 with tcp := r.1.tcp.map fun c => { c with rbuf := r.2 } }

end

/-! ## Events -/

/-- What happens to a neighbour. -/
inductive PeerEvent
  /-- `nbr_new`; a connection may be waiting for it -/
  | new (id : InAddr) (pending : Bool)
  /-- `nbr_del` -/
  | del
  /-- `session_accept` -/
  | accept (active : Bool)
  /-- `nbr_connect_cb`, or a connection that is completed immediately -/
  | connected
  /-- bytes arrive; the other receivers are arbitrary -/
  | read (conf : SessConf) (other : Peer → List UInt8 → Verdict) (data : List UInt8)
  /-- a PDU is sent -/
  | sent
  /-- `session_shutdown`: a timer or the configuration -/
  | shutdown
  /-- `nbr_fsm` with `NBR_EVT_CLOSE_SESSION`: a timer or an error of the socket -/
  | close

/-- `nbr_new` -/
def peerNew (id : InAddr) (pending : Bool) : Peer :=
  let n : Peer := ⟨id, .present, none, 0, 0, []⟩
  if pending then sessionAcceptNbr n else n

def PeerEvent.handle : PeerEvent → Option Peer → Option Peer
  | .new id pending, none => some (peerNew id pending)
  -- a second neighbour with this id is fatal in the source
  | .new .., some n => some n
  | .del, _ => none
  | .accept active, n => n.map (sessionAccept active)
  | .connected, n => n.map (peerFsm .connectUp)
  | .read conf other data, n => n.map (peerRead conf other data)
  | .sent, n => n.map (peerFsm .pduSent)
  | .shutdown, n => n.map peerShutdown
  | .close, n => n.map (peerFsm .closeSession)

def peerStep (e : PeerEvent) : EStateM Empty (Option Peer) Unit := modify e.handle

/-- The configured keepalive time is one that may be configured. -/
def PeerEvent.Configured : PeerEvent → Prop
  | .read conf _ _ => minKeepalive ≤ conf.keepalive
  | _ => True

instance (e : PeerEvent) : Decidable e.Configured :=
  match e with
  | .read conf _ _ => inferInstanceAs (Decidable (minKeepalive ≤ conf.keepalive))
  | .new .. | .del | .accept _ | .connected | .sent | .shutdown | .close => isTrue trivial

/-! ## What holds of a neighbour -/

/-- A valid Initialization message was accepted. -/
def Accepted (history : List ConnEvent) : Prop :=
  ∃ rtrId sess, sess.Valid rtrId ∧ .initAccepted rtrId sess ∈ history

/-- A KeepAlive was received after a valid Initialization message. -/
def Confirmed (history : List ConnEvent) : Prop :=
  ∃ before after, history = before ++ .keepaliveRcvd :: after ∧ Accepted before

/-- What was negotiated is within the limits. -/
structure Peer.Negotiated (n : Peer) : Prop where
  keepalive : minKeepalive ≤ n.keepalive
  least : 256 ≤ n.maxPduLen
  most : n.maxPduLen ≤ ldpMaxLen

/-- The session is one that the handshake has led to. -/
structure Peer.Safe (n : Peer) : Prop where
  tcp : n.tcp.isSome ↔ n.state ≠ .present
  oper : n.state = .oper → n.Negotiated ∧
    ∃ c, n.tcp = some c ∧ .initSent ∈ c.history ∧ Confirmed c.history
  handed : ∀ x ∈ n.handed, x.2 = .oper

/-- What each state says of the connection. -/
def Reached (n : Peer) : NbrState → Option TcpConn → Prop
  | .present, tcp => tcp = none
  | .initial, tcp => tcp.isSome
  | .opensent, tcp => ∃ c, tcp = some c ∧ .initSent ∈ c.history
  | .openrec, tcp => n.Negotiated ∧ ∃ c, tcp = some c ∧ .initSent ∈ c.history ∧ Accepted c.history
  | .oper, tcp => n.Negotiated ∧ ∃ c, tcp = some c ∧ .initSent ∈ c.history ∧ Confirmed c.history

structure Peer.Inv (n : Peer) : Prop where
  reached : Reached n n.state n.tcp
  handed : ∀ x ∈ n.handed, x.2 = .oper

variable {n : Peer} {event : NbrEvent} {history : List ConnEvent} {m : Peer} {sess : SessPrms}

theorem Peer.Inv.safe (h : n.Inv) : n.Safe := by
  have hreached := h.reached
  refine ⟨?_, fun hoper => ?_, h.handed⟩
  · cases hstate : n.state with
    | present =>
      rw [hstate] at hreached
      rw [show n.tcp = none from hreached]
      simp
    | initial =>
      rw [hstate] at hreached
      exact ⟨nofun, fun _ => hreached⟩
    | opensent =>
      rw [hstate] at hreached
      obtain ⟨c, hc, -⟩ := hreached
      simp [hc]
    | openrec =>
      rw [hstate] at hreached
      obtain ⟨-, c, hc, -⟩ := hreached
      simp [hc]
    | oper =>
      rw [hstate] at hreached
      obtain ⟨-, c, hc, -⟩ := hreached
      simp [hc]
  · rw [hoper] at hreached
    exact hreached

/-! ## Growing histories -/

theorem Accepted.append (h : Accepted history) (later : List ConnEvent) :
    Accepted (history ++ later) := by
  obtain ⟨rtrId, sess, hvalid, hmem⟩ := h
  exact ⟨rtrId, sess, hvalid, mem_append_left _ hmem⟩

theorem Confirmed.append (h : Confirmed history)
    (later : List ConnEvent) : Confirmed (history ++ later) := by
  obtain ⟨before, after, rfl, hacc⟩ := h
  exact ⟨before, after ++ later, by rw [append_assoc, cons_append], hacc⟩

/-- What a state says of the connection is not lost when more happens on it. -/
theorem Reached.grow {state : NbrState} {tcp : Option TcpConn} {f : TcpConn → TcpConn}
    (h : Reached n state tcp) (hneg : n.Negotiated → m.Negotiated)
    (hf : ∀ c, ∃ later, (f c).history = c.history ++ later) : Reached m state (tcp.map f) := by
  cases state with
  | present =>
    rw [show tcp = none from h]
    rfl
  | initial =>
    rw [Reached, Option.isSome_map]
    exact h
  | opensent =>
    obtain ⟨c, rfl, hsent⟩ := h
    obtain ⟨later, hlater⟩ := hf c
    exact ⟨f c, rfl, hlater ▸ mem_append_left later hsent⟩
  | openrec =>
    obtain ⟨hn, c, rfl, hsent, hacc⟩ := h
    obtain ⟨later, hlater⟩ := hf c
    exact ⟨hneg hn, f c, rfl, hlater ▸ mem_append_left later hsent, hlater ▸ hacc.append later⟩
  | oper =>
    obtain ⟨hn, c, rfl, hsent, hconf⟩ := h
    obtain ⟨later, hlater⟩ := hf c
    exact ⟨hneg hn, f c, rfl, hlater ▸ mem_append_left later hsent, hlater ▸ hconf.append later⟩

theorem Peer.Negotiated.congr (h : n.Negotiated) (hk : m.keepalive = n.keepalive)
    (hm : m.maxPduLen = n.maxPduLen) : m.Negotiated :=
  ⟨hk ▸ h.keepalive, hm ▸ h.least, hm ▸ h.most⟩

theorem Peer.Inv.log (h : n.Inv) (e : ConnEvent) : (n.log e).Inv :=
  ⟨h.reached.grow (fun hn => hn.congr rfl rfl) fun _ => ⟨[e], rfl⟩, h.handed⟩

/-! ## The transitions -/

theorem peerFsm_pdu (hevent : event = .pduRcvd ∨ event = .pduSent) (n : Peer) :
    peerFsm event n = n := by
  obtain ⟨id, state, tcp, keepalive, maxPduLen, handed⟩ := n
  rcases hevent with rfl | rfl <;> cases state <;> rfl

theorem peerFsm_close (h : n.Inv) : (peerFsm .closeSession n).Inv := by
  obtain ⟨id, state, tcp, keepalive, maxPduLen, handed⟩ := n
  cases state with
  | present => exact h
  | initial => exact ⟨rfl, h.handed⟩
  | openrec => exact ⟨rfl, h.handed⟩
  | opensent => exact ⟨rfl, h.handed⟩
  | oper => exact ⟨rfl, h.handed⟩

theorem peerShutdown_inv (h : n.Inv) : (peerShutdown n).Inv := by
  unfold peerShutdown
  split
  · exact h
  · exact peerFsm_close h

/-- The passive role: the connection is there before the state changes. -/
theorem sessionAcceptNbr_inv (h : n.Inv) (hstate : n.state = .present) : (sessionAcceptNbr n).Inv := by
  obtain ⟨id, state, tcp, keepalive, maxPduLen, handed⟩ := n
  obtain rfl : state = .present := hstate
  exact ⟨rfl, h.handed⟩

/-- The active role: the Initialization message goes out with the connection. -/
theorem peerFsm_connectUp (h : n.Inv) : (peerFsm .connectUp n).Inv := by
  obtain ⟨id, state, tcp, keepalive, maxPduLen, handed⟩ := n
  cases state with
  | present => exact ⟨⟨_, rfl, mem_singleton.mpr rfl⟩, h.handed⟩
  | initial => exact h
  | openrec => exact h
  | opensent => exact h
  | oper => exact h

/-- An accepted Initialization message: the passive side sends its own now, the active side has. -/
theorem peerFsm_initRcvd {rtrId : InAddr} (h : n.Inv)
    (hstate : n.state = .initial ∨ n.state = .opensent) (hneg : n.Negotiated)
    (hvalid : sess.Valid rtrId) :
    (peerFsm .initRcvd (n.log (.initAccepted rtrId sess))).Inv := by
  obtain ⟨id, state, tcp, keepalive, maxPduLen, handed⟩ := n
  have hacc (history : List ConnEvent) :
      Accepted (history ++ [.initAccepted rtrId sess]) :=
    ⟨rtrId, sess, hvalid, mem_append_right _ (mem_singleton.mpr rfl)⟩
  have hreached := h.reached
  rcases hstate with hstate | hstate
  · obtain rfl : state = .initial := hstate
    obtain ⟨c, rfl⟩ := Option.isSome_iff_exists.mp (show tcp.isSome from hreached)
    refine ⟨⟨hneg.congr rfl rfl, _, rfl, ?_, ?_⟩, h.handed⟩
    · exact mem_append_left _ (mem_append_right _ (mem_singleton.mpr rfl))
    · exact ((hacc c.history).append _).append _
  · obtain rfl : state = .opensent := hstate
    obtain ⟨c, hc, hsent⟩ := hreached
    obtain rfl : tcp = some c := hc
    refine ⟨⟨hneg.congr rfl rfl, _, rfl, ?_, ?_⟩, h.handed⟩
    · exact mem_append_left _ (mem_append_left _ hsent)
    · exact (hacc c.history).append _

/-- A KeepAlive takes OPENREC to OPER, where an Initialization message has been accepted. -/
theorem peerFsm_keepaliveRcvd (h : n.Inv) : (peerFsm .keepaliveRcvd (n.log .keepaliveRcvd)).Inv := by
  have hlog := h.log .keepaliveRcvd
  obtain ⟨id, state, tcp, keepalive, maxPduLen, handed⟩ := n
  cases state with
  | openrec =>
    obtain ⟨hneg, c, hc, hsent, hacc⟩ := h.reached
    obtain rfl : tcp = some c := hc
    refine ⟨⟨hneg.congr rfl rfl, _, rfl, mem_append_left _ hsent, ?_⟩, h.handed⟩
    exact ⟨c.history, [], rfl, hacc⟩
  | present => exact hlog
  | initial => exact hlog
  | opensent => exact hlog
  | oper => exact hlog

/-! ## Reading -/

section

variable {conf : SessConf} {other : Peer → List UInt8 → Verdict}
  (hconf : minKeepalive ≤ conf.keepalive)

include hconf

/-- The limits of RFC 5036, section 3.5.3. -/
theorem negotiated_of_valid (hsess : minKeepalive ≤ sess.keepaliveTime) : Peer.Negotiated { n with
      keepalive := min conf.keepalive sess.keepaliveTime
      maxPduLen := min (if sess.maxPduLen ≤ 255 then ldpMaxLen else sess.maxPduLen) ldpMaxLen } := by
  refine ⟨le_min hconf hsess, ?_, min_le_right _ _⟩
  apply le_min
  · split
    · decide
    · omega
  · decide

theorem recvInit_inv (msg : List UInt8) (h : n.Inv)
    (hstate : n.state = .initial ∨ n.state = .opensent) : (recvInit conf msg n).1.Inv := by
  have hclose := peerShutdown_inv h
  unfold recvInit
  dsimp only
  split
  · exact hclose
  · split
    · exact hclose
    · rename_i hlength
      split
      · exact hclose
      · rename_i hversion
        split
        · exact hclose
        · rename_i hkeepalive
          split
          · exact hclose
          · rename_i hlsr
            split
            · exact hclose
            · rw [not_or, not_not, not_not] at hlsr
              have hvalid : (SessPrms.read (msg.drop ldpMsgSize)).Valid conf.rtrId :=
                ⟨not_not.mp hlength, not_not.mp hversion, not_lt.mp hkeepalive, hlsr⟩
              have hneg := negotiated_of_valid (n := n) hconf hvalid.2.2.1
              refine peerFsm_initRcvd ⟨?_, h.handed⟩ hstate hneg hvalid
              -- neither of the two states says anything about the parameters
              have hreached := h.reached
              rcases hstate with hs | hs <;> rw [hs] at hreached <;> simp only [hs] <;>
                exact hreached

omit hconf in
theorem recvKeepalive_inv (msg : List UInt8) (h : n.Inv) : (recvKeepalive msg n).1.Inv := by
  unfold recvKeepalive
  split
  · exact peerShutdown_inv h
  · dsimp only
    split
    · exact peerFsm_keepaliveRcvd h
    · exact h.log _

omit hconf in
theorem Peer.Inv.after (h : n.Inv) (v : Verdict) : (n.after v).1.Inv := by
  unfold Peer.after
  dsimp only
  split
  · exact peerShutdown_inv h
  · exact h

omit hconf in
theorem handed_inv (h : n.Inv) (type : MsgType) (hstate : n.state = .oper) :
    Peer.Inv { n with handed := n.handed ++ [(type, n.state)] } := by
  have hreached : Reached n n.state n.tcp := h.reached
  refine ⟨?_, fun x hx => ?_⟩
  · have hgrow := hreached.grow (m := { n with handed := n.handed ++ [(type, n.state)] }) (f := id)
      (fun hn => hn.congr rfl rfl) fun c => ⟨[], (append_nil _).symm⟩
    rwa [Option.map_id] at hgrow
  · rcases mem_append.mp hx with hx | hx
    · exact h.handed x hx
    · rw [mem_singleton.mp hx]
      exact hstate

theorem peerMessage_inv {type : MsgType} (msg : List UInt8)
    (h : n.Inv) (hadmits : n.state.admits type = true) :
    (peerMessage conf other type msg n).1.Inv := by
  cases type with
  | init => exact recvInit_inv hconf msg h (of_decide_eq_true hadmits)
  | keepalive => exact recvKeepalive_inv msg h
  | addr => exact (handed_inv h _ (of_decide_eq_true hadmits)).after _
  | addrWithdraw => exact (handed_inv h _ (of_decide_eq_true hadmits)).after _
  | label type => exact (handed_inv h _ (of_decide_eq_true hadmits)).after _
  | notification => exact h.after _
  | other => exact h.after _

theorem peerMessages_inv (fuel : Nat) (h : n.Inv)
    (pdu : List UInt8) (pduLen : Nat) : (peerMessages conf other fuel n pdu pduLen).1.Inv := by
  induction fuel generalizing n pdu pduLen with
  | zero => exact h
  | succ fuel ih =>
    have hclose := peerShutdown_inv h
    unfold peerMessages
    split
    · split
      · exact hclose
      · exact h
    · dsimp only
      split
      · exact hclose
      · split
        · rename_i hadmits
          have hmsg : (peerMessage conf other _ (pdu.take (field pdu 2 2 + ldpMsgDeadLen)) n).1.Inv :=
            peerMessage_inv hconf _ h hadmits
          split
          · exact ih hmsg _ _
          · exact hmsg
        · exact hclose

theorem peerPdu_inv (h : n.Inv) (pdu : List UInt8) : (peerPdu conf other n pdu).1.Inv := by
  have hclose := peerShutdown_inv h
  unfold peerPdu
  split
  · exact hclose
  · dsimp only
    generalize (if n.state = .oper then n.maxPduLen else ldpMaxLen) = most
    split
    · exact hclose
    · split
      · exact hclose
      · rw [peerFsm_pdu (.inl rfl)]
        exact peerMessages_inv hconf _ h _ _

theorem peerRead_inv (data : List UInt8) (h : n.Inv) : (peerRead conf other data n).Inv := by
  unfold peerRead
  split
  · exact h
  · dsimp only
    split
    · exact peerFsm_close h
    · rename_i c _ _
      generalize c.rbuf ++ data.take (ibufReadSize - c.rbuf.length) = buf
      have hdrain : (drain sessionGetPdu (peerPdu conf other) buf.length n buf).1.Inv :=
        drain_invariant (I := Peer.Inv) (fun n pdu hn => peerPdu_inv hconf hn pdu) h buf.length buf
      refine ⟨?_, hdrain.handed⟩
      exact hdrain.reached.grow (fun hn => hn.congr rfl rfl) fun _ => ⟨[], (append_nil _).symm⟩

end

/-! ## Runs -/

theorem peerNew_inv {id : InAddr} {pending : Bool} : (peerNew id pending).Inv := by
  have hfresh : Peer.Inv ⟨id, .present, none, 0, 0, []⟩ := ⟨rfl, nofun⟩
  unfold peerNew
  dsimp only
  split
  · exact sessionAcceptNbr_inv hfresh rfl
  · exact hfresh

theorem sessionAccept_inv {active : Bool} (h : n.Inv) : (sessionAccept active n).Inv := by
  unfold sessionAccept
  split
  · exact h
  · split
    · exact h
    · rename_i hstate
      exact sessionAcceptNbr_inv h (not_not.mp hstate)

theorem handle_inv {e : PeerEvent} (hconf : e.Configured) {o : Option Peer}
    (h : ∀ n, o = some n → n.Inv) : ∀ n, e.handle o = some n → n.Inv := by
  have hmap (f : Peer → Peer) (hf : ∀ n, n.Inv → (f n).Inv) : ∀ n, o.map f = some n → n.Inv := by
    intro n hn
    obtain ⟨m, hm, rfl⟩ := Option.map_eq_some_iff.mp hn
    exact hf m (h m hm)
  intro n hn
  cases e with
  | new id pending =>
    cases o with
    | none =>
      cases hn
      exact peerNew_inv
    | some m => exact h n hn
  | del => cases hn
  | accept active => exact hmap _ (fun _ => sessionAccept_inv) n hn
  | connected => exact hmap _ (fun _ => peerFsm_connectUp) n hn
  | read conf other data => exact hmap _ (fun _ => peerRead_inv hconf data) n hn
  | sent =>
    refine hmap _ (fun m hm => ?_) n hn
    rwa [peerFsm_pdu (.inr rfl)]
  | shutdown => exact hmap _ (fun _ => peerShutdown_inv) n hn
  | close => exact hmap _ (fun _ => peerFsm_close) n hn

/-- Whatever happens to a neighbour, it has a connection exactly outside PRESENT, in OPER the
handshake has taken place on this connection, and messages were handed on in OPER only. -/
theorem session_safe (tr : List PeerEvent) (o : Option Peer) (n : Peer)
    (hrun : Run peerStep none (fun _ e => e.Configured) tr o) (hn : o = some n) : n.Safe := by
  have hinv := hrun.invariant (I := fun o => ∀ n, o = some n → n.Inv) nofun (by
    intro o e o' ho hconf hstep
    cases hstep
    exact handle_inv hconf ho)
  exact (hinv n hn).safe

/-- A PDU of 2.2.2.2 with one message. -/
def pduFrom2 (type msgLen : UInt8) (sub : UInt8) (body : List UInt8) : List UInt8 :=
  [0, 1, 0, msgLen + 10, 2, 2, 2, 2, 0, 0, type, sub, 0, msgLen, 0, 0, 0, 1] ++ body

/-- An Initialization message for 1.1.1.1 with a keepalive time of 180 seconds. -/
def initFrom2 : List UInt8 :=
  pduFrom2 2 22 0 [5, 0, 0, 14, 0, 1, 0, 180, 0, 0, 0, 0, 1, 1, 1, 1, 0, 0]

/-- The handshake in the passive role, and an address message. -/
def passiveHandshake : List PeerEvent :=
  let read := PeerEvent.read ⟨0x01010101, 30⟩ fun _ _ => ⟨false, true⟩
  [.new 0x02020202 false, .accept false, read initFrom2, read (pduFrom2 2 4 1 []),
    read (pduFrom2 3 4 0 [])]

theorem passiveHandshake_plays :
    (play peerStep (fun _ e => e.Configured) passiveHandshake none).isSome := by
  decide +kernel

theorem passiveHandshake_lasts : ((play peerStep (fun _ e => e.Configured) passiveHandshake none).get
    passiveHandshake_plays).isSome := by
  decide +kernel

theorem passiveHandshake_safe : ∃ n, Run peerStep none (fun _ e => e.Configured) passiveHandshake
      (some n) ∧ n.state = .oper ∧ n.keepalive = 30 ∧ n.handed = [(.addr, .oper)] ∧ n.Safe := by
  have hrun := Run.of_play passiveHandshake_plays
  refine ⟨Option.get _ passiveHandshake_lasts, ?_, by decide +kernel, by decide +kernel,
    by decide +kernel, ?_⟩
  · rw [Option.some_get]
    exact hrun
  · exact session_safe _ _ _ hrun (Option.some_get passiveHandshake_lasts).symm

end Mp2mp.Ldpe
