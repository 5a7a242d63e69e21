import Mp2mp.Kit.Framing
import Mp2mp.Ldpe.Hello

/-!
# Reading a session

`session_get_pdu` and `session_read` of `packet.c`: the bytes of a TCP connection are
collected in a buffer, PDUs are cut off it, and their messages are handed to the receivers.

Of the receivers those of label messages and notifications are modelled; the others are a
parameter, and what is proved holds whatever they do.  So is the memory behind a PDU.

* `sessionReads_pdus`: however the stream is cut into reads, the PDUs are handled in order
  until one of them ends the session.
-/

namespace Mp2mp.Ldpe

open Kit Ldpd List

variable {pdus : List (List UInt8)} {ks : List Nat}

/-! ## Constants -/

def sBadLdpId : UInt32 := 0x80000001
def sBadProtoVer : UInt32 := 0x80000002
def sBadPduLen : UInt32 := 0x80000003
def sUnknownMsg : UInt32 := 0x00000004
def sShutdown : UInt32 := 0x8000000a

/-- `IBUF_READ_SIZE`, the size of a read buffer -/
def ibufReadSize : Nat := 65535

/-- The `MSG_TYPE_*` that `session_read` tells apart. -/
inductive MsgType
  | notification
  | init
  | keepalive
  | addr
  | addrWithdraw
  | label (type : LabelMsgType)
  | other
deriving DecidableEq, Repr

def MsgType.ofCode (n : Nat) : MsgType :=
  if n = 0x0001 then .notification
  else if n = 0x0200 then .init
  else if n = 0x0201 then .keepalive
  else if n = 0x0300 then .addr
  else if n = 0x0301 then .addrWithdraw
  else if n = 0x0400 then .label .mapping
  else if n = 0x0401 then .label .request
  else if n = 0x0402 then .label .withdraw
  else if n = 0x0403 then .label .release
  else if n = 0x0404 then .label .abortReq
  else .other

/-! ## The session -/

/-- What `session_read` reads of `struct nbr`. -/
structure SessionNbr extends Nbr where
  id : InAddr
  maxPduLen : Nat
deriving DecidableEq, Repr

/-- A session is up, was shut down, or has taken the process with it. -/
inductive SessionStatus
  | up
  | closed
  | dead
deriving DecidableEq, Repr

/-- The neighbor of a session, and what reading has done so far. -/
structure Session where
  nbr : SessionNbr
  status : SessionStatus
  out : List Effect
deriving DecidableEq, Repr

/-- The effects that end the session. -/
def Effect.closes : Effect → Bool
  | .sessionShutdown .. | .closeSession => true
  | _ => false

def Session.after (s : Session) (es : List Effect) : Session :=
  { s with status := if es.any Effect.closes then .closed else s.status, out := s.out ++ es }

/-- `session_shutdown` followed by the return of `session_read`. -/
def Session.shutdown (s : Session) (status : UInt32) (msg : LdpMsg) : Session × Bool :=
  (s.after [.sessionShutdown status msg], false)

/-- The messages that a neighbor in this state may send. -/
def NbrState.admits (state : NbrState) : MsgType → Bool
  | .init => state = .initial ∨ state = .opensent
  | .keepalive => ¬(state = .initial ∨ state = .opensent)
  | .addr | .addrWithdraw | .label _ => state = .oper
  | .notification | .other => true

/-- Memory that holds a byte string, with other memory behind it. -/
def held (l : List UInt8) (heap : Mem) : Mem := fun i => l.getD i (heap (i - l.length))

section

variable (recvOther : MsgType → SessionNbr → Mem → Nat → Parser SessionNbr) (heap : Mem) (fuel : Nat)

def recvMessage (nbr : SessionNbr) (code : Nat) (mem : Mem) (msgSize : Nat) : Parser SessionNbr :=
  match MsgType.ofCode code with
  | .label type => do
    recvLabelmessage mem fuel nbr.toNbr (.ofNat msgSize) type
    pure nbr
  | .notification => do
    recvNotification mem fuel nbr.toNbr (.ofNat msgSize)
    pure nbr
  | .other => do
    if code &&& unknownFlag = 0 then emit (.sendNotificationNbr sUnknownMsg (ldpMsg mem))
    pure nbr
  | type => recvOther type nbr mem msgSize

/-- The session after a receiver, and whether `session_read` goes on. -/
def Session.received (s : Session) : EStateM.Result Stop Trace SessionNbr → Session × Bool
  | .ok nbr t => ({ s.after t.out with nbr := nbr }, true)
  | .error .fail t => (s.after t.out, false)
  | .error _ t => ({ s.after t.out with status := .dead }, false)

/-- The message loop of `session_read`, with `pdu` left of the PDU. -/
def recvMessages : Nat → Session → List UInt8 → Nat → Session × Bool
  | 0, s, _, _ => ({ s with status := .dead }, false)
  | n + 1, s, pdu, pduLen =>
    if pdu.length < ldpMsgSize then
      if pdu.length ≠ 0 then s.shutdown sBadPduLen ⟨0, 0⟩ else (s, true)
    else
      let mem := held pdu heap
      let msgLen := num mem 2 2
      if msgLen < ldpMsgLen ∨ msgLen + ldpMsgDeadLen > pduLen then
        s.shutdown sBadTlvLen (ldpMsg mem)
      else
        let msgSize := msgLen + ldpMsgDeadLen
        if s.nbr.state.admits (.ofCode (num mem 0 2)) then
          let r := s.received
            ((recvMessage recvOther fuel s.nbr (num mem 0 2) mem msgSize).run .empty)
          if r.2 then recvMessages n r.1 (pdu.drop msgSize) (pduLen - msgSize) else r
        else s.shutdown sShutdown (ldpMsg mem)

/-- What `session_read` does with a PDU. -/
def recvPdu (s : Session) (pdu : List UInt8) : Session × Bool :=
  if field pdu 0 2 ≠ ldpVersion then s.shutdown sBadProtoVer ⟨0, 0⟩
  else
    let pduLen := field pdu 2 2
    let maxPduLen := if s.nbr.state = .oper then s.nbr.maxPduLen else ldpMaxLen
    if pduLen < ldpHdrPduLen + ldpMsgSize ∨ pduLen > maxPduLen then s.shutdown sBadPduLen ⟨0, 0⟩
    else if UInt32.ofNat (field pdu 4 4) ≠ s.nbr.id ∨ field pdu 8 2 ≠ 0 then
      s.shutdown sBadLdpId ⟨0, 0⟩
    else
      recvMessages recvOther heap fuel fuel s (pdu.drop ldpHdrSize) (pduLen - ldpHdrPduLen)

/-- `session_get_pdu`: the PDU, and what stays in the buffer. -/
def sessionGetPdu (rbuf : List UInt8) : Option (List UInt8 × List UInt8) :=
  if rbuf.length < ldpHdrSize then none
  else
    let dlen := field rbuf 2 2 + ldpHdrDeadLen
    if dlen > rbuf.length then none else some (rbuf.take dlen, rbuf.drop dlen)

/-- A connection: the bytes still to be read from the socket, the read buffer, the session. -/
structure Conn where
  sock : List UInt8
  rbuf : List UInt8
  session : Session
deriving DecidableEq, Repr

/-- `session_read`, when the socket offers `k + 1` bytes or the rest of the stream. It is not called
on a session that is gone or with nothing to read; a full buffer looks like the end of the stream.
-/
def sessionRead (c : Conn) (k : Nat) : Conn :=
  if c.session.status ≠ .up ∨ c.sock = [] then c
  else
    let n := min (k + 1) (ibufReadSize - c.rbuf.length)
    if n = 0 then { c with session := c.session.after [.closeSession] }
    else
      let buf := c.rbuf ++ c.sock.take n
      let r := drain sessionGetPdu (recvPdu recvOther heap fuel) buf.length c.session buf
      { sock := c.sock.drop n, rbuf := r.2, session := r.1 }

def sessionReads (c : Conn) (ks : List Nat) : Conn :=
  ks.foldl (sessionRead recvOther heap fuel) c

end

/-! ## PDUs in the stream -/

/-- A byte string whose header gives its length. -/
def IsPdu (pdu : List UInt8) : Prop :=
  ldpHdrSize ≤ pdu.length ∧ field pdu 2 2 + ldpHdrDeadLen = pdu.length

instance (pdu : List UInt8) : Decidable (IsPdu pdu) := inferInstanceAs (Decidable (_ ∧ _))

theorem field_of_le {l : List UInt8} {rest : List UInt8} {off n : Nat} (h : off + n ≤ l.length) :
    field (l ++ rest) off n = field l off n := by
  rw [field, field, drop_append_of_le_length (by omega),
    take_append_of_le_length (by rw [length_drop]; omega)]

theorem IsPdu.isFrame {pdu : List UInt8} (h : IsPdu pdu) : IsFrame sessionGetPdu pdu := by
  obtain ⟨hsize, hlen⟩ := h
  have hhdr : 2 + 2 ≤ ldpHdrSize := by decide
  refine ⟨?_, ?_, ?_⟩
  · intro hnil
    rw [hnil] at hsize
    exact absurd hsize (by decide)
  · intro rest
    have hmore : pdu.length ≤ (pdu ++ rest).length := by
      rw [length_append]
      omega
    rw [sessionGetPdu, if_neg (by omega), field_of_le (by omega), hlen]
    dsimp only
    rw [if_neg (by omega), take_left, drop_left]
  · intro p q hpq hq
    have hpos := length_pos_iff.mpr hq
    subst hpq
    rw [length_append] at hlen
    rw [sessionGetPdu]
    dsimp only
    split_ifs with hshort hmore
    · rfl
    · rfl
    · rw [field_of_le (by omega)] at hlen
      omega

theorem sessionGetPdu_nil : sessionGetPdu [] = none := rfl

section

variable {recvOther : MsgType → SessionNbr → Mem → Nat → Parser SessionNbr} {heap : Mem} {fuel : Nat}
  {c : Conn} {s s' : Session} {n : Nat}

variable (recvOther heap fuel pdus) in
/-- The session is over, or the buffer and at most `n` bytes of the socket hold the PDUs to be
handled, the buffer no complete one. -/
def Pending (s' : Session) (n : Nat) (c : Conn) : Prop :=
  (c.session = s' ∧ s'.status ≠ .up) ∨
    ∃ todo ⊆ pdus, sessionGetPdu c.rbuf = none ∧ c.rbuf ++ c.sock = todo.flatten ∧
      Handles (recvPdu recvOther heap fuel) (Session.status · = .up) c.session todo s' ∧
      c.sock.length ≤ n

theorem Pending.read (hpdus : ∀ pdu ∈ pdus, IsPdu pdu ∧ pdu.length ≤ ibufReadSize)
    (h : Pending pdus recvOther heap fuel s' (n + 1) c) (k : Nat) :
    Pending pdus recvOther heap fuel s' n (sessionRead recvOther heap fuel c k) := by
  rcases h with ⟨rfl, hover⟩ | ⟨todo, hsub, hcut, hsplit, hall, hlen⟩
  · rw [sessionRead, if_pos (.inl hover)]
    exact .inl ⟨rfl, hover⟩
  by_cases hsock : c.sock = []
  · rw [sessionRead, if_pos (.inr hsock)]
    exact .inr ⟨todo, hsub, hcut, hsplit, hall, by simp [hsock]⟩
  cases todo with
  | nil => exact absurd (append_eq_nil_iff.mp hsplit).2 hsock
  | cons pdu todo =>
    have hframes := fun f hf => (hpdus f (hsub hf)).1.isFrame
    have hroom : c.rbuf.length < ibufReadSize :=
      lt_of_lt_of_le ((hframes pdu mem_cons_self).lt_length hcut hsplit)
        (hpdus pdu (hsub mem_cons_self)).2
    rw [sessionRead, if_neg (by rw [not_or, not_not]; exact ⟨hall.1, hsock⟩)]
    generalize hm : min (k + 1) (ibufReadSize - c.rbuf.length) = m
    have hpos : m ≠ 0 := by omega
    dsimp only
    rw [if_neg hpos]
    rw [← take_append_drop m c.sock, ← append_assoc] at hsplit
    obtain ⟨mid, rest, hdrain, hrest⟩ :=
      drain_frames sessionGetPdu_nil hframes hall hsplit le_rfl
    rw [hdrain]
    refine hrest.imp_right ?_
    rintro ⟨todo', hsub', hcut', hsplit', hall'⟩
    refine ⟨todo', fun f hf => hsub (hsub' hf), hcut', hsplit', hall', ?_⟩
    rw [length_drop]
    omega

theorem Pending.reads (hpdus : ∀ pdu ∈ pdus, IsPdu pdu ∧ pdu.length ≤ ibufReadSize)
    (h : Pending pdus recvOther heap fuel s' ks.length c) :
    Pending pdus recvOther heap fuel s' 0 (sessionReads recvOther heap fuel c ks) := by
  induction ks generalizing c with
  | nil => exact h
  | cons k ks ih => exact ih (h.read hpdus k)

/-- However a stream of PDUs is cut into reads, they are handled in order until one ends the
session; if none does, nothing is left after as many reads as there are bytes. -/
theorem sessionReads_pdus (hpdus : ∀ pdu ∈ pdus, IsPdu pdu ∧ pdu.length ≤ ibufReadSize)
    (hall : Handles (recvPdu recvOther heap fuel) (Session.status · = .up) s pdus s')
    (hks : pdus.flatten.length ≤ ks.length) :
    (sessionReads recvOther heap fuel ⟨pdus.flatten, [], s⟩ ks).session = s' ∧
      (s'.status = .up → sessionReads recvOther heap fuel ⟨pdus.flatten, [], s⟩ ks = ⟨[], [], s'⟩) := by
  have start : Pending pdus recvOther heap fuel s' ks.length ⟨pdus.flatten, [], s⟩ :=
    .inr ⟨pdus, Subset.refl _, sessionGetPdu_nil, rfl, hall, hks⟩
  generalize hc : sessionReads recvOther heap fuel ⟨pdus.flatten, [], s⟩ ks = c
  rcases hc ▸ start.reads hpdus with ⟨hs, hover⟩ | ⟨todo, hsub, hcut, hsplit, hall, hlen⟩
  · exact ⟨hs, fun hup => absurd hup hover⟩
  · obtain ⟨sock, rbuf, session⟩ := c
    obtain rfl : sock = [] := eq_nil_of_length_eq_zero (Nat.le_zero.mp hlen)
    cases todo with
    | nil =>
      obtain ⟨rfl, -⟩ := append_eq_nil_iff.mp hsplit
      obtain rfl := hall
      exact ⟨rfl, fun _ => rfl⟩
    | cons pdu todo =>
      have hlt := (hpdus pdu (hsub mem_cons_self)).1.isFrame.lt_length hcut hsplit
      have hlen := congrArg List.length hsplit
      simp only [flatten_cons, length_append, length_nil] at hlen hlt
      omega

end

/-- A PDU of neighbour 1.1.1.1 with one message that has no contents. -/
def shortPdu (type : Nat) : List UInt8 :=
  toBe 2 ldpVersion ++ toBe 2 14 ++ [1, 1, 1, 1, 0, 0] ++ toBe 2 type ++ [0, 4, 0, 0, 0, 7]

/-- A session that waits for the Initialization message. -/
def opening : Session := ⟨⟨⟨true, true, .initial⟩, 0x01010101, ldpMaxLen⟩, .up, []⟩

/-- An unknown message may be ignored; a Keepalive ends the session, and what follows is not read. -/
theorem opening_reads : (sessionReads (fun _ nbr _ _ => pure nbr) (fun _ => 0) 2
      ⟨[shortPdu 0x8abc, shortPdu 0x0201, shortPdu 0x8abc].flatten, [], opening⟩
      (replicate 54 0)).session =
    { opening with status := .closed, out := [.sessionShutdown sShutdown ⟨0x0201, 7⟩] } := by
  refine (sessionReads_pdus (by decide) ?_ (by decide)).1
  rw [Handles, Handles, if_pos (by decide +kernel), if_neg (by decide +kernel)]
  decide +kernel

end Mp2mp.Ldpe
