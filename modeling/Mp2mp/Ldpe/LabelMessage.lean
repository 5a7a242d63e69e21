import Mp2mp.Ldpe.FecElement

/-!
# Label and notification messages

The receivers `recv_labelmessage` of `labelmapping.c` and `recv_notification` of
`notification.c`.  A message starts at offset zero and is `len` bytes long; what
follows it is not part of it.

The source's `return (-1)` and `goto err` differ only in freeing the list of maps
decoded so far, so both are `Stop.fail`.
-/

namespace Mp2mp.Ldpe

open Kit Ldpd

/-! ## Constants -/

def ldpMsgSize : Nat := 8
def statusSize : Nat := 14
def statusTlvLen : Nat := 10
def statusFatal : UInt32 := 0x80000000
/-- `LABEL_TLV_SIZE`, the size of `struct label_tlv` -/
def labelTlvSize : Nat := 8
def labelTlvLen : Nat := 4
def reqidTlvLen : Nat := 4
def unknownFlag : Nat := 0x8000
def tlvTypeGenericlabel : Nat := 0x0200
def mplsLabelMax : UInt32 := 0xfffff

/-- The `TLV_TYPE_*` that the optional-parameter loops tell apart. -/
inductive TlvType
  | fec
  | hopcount
  | pathvector
  | genericlabel
  | atmlabel
  | frlabel
  | status
  | extstatus
  | returnedpdu
  | returnedmsg
  | labelrequest
  | pwStatus
  | other
deriving DecidableEq, Repr

def TlvType.ofCode (n : Nat) : TlvType :=
  if n = 0x0100 then .fec
  else if n = 0x0103 then .hopcount
  else if n = 0x0104 then .pathvector
  else if n = 0x0200 then .genericlabel
  else if n = 0x0201 then .atmlabel
  else if n = 0x0202 then .frlabel
  else if n = 0x0300 then .status
  else if n = 0x0301 then .extstatus
  else if n = 0x0302 then .returnedpdu
  else if n = 0x0303 then .returnedmsg
  else if n = 0x0600 then .labelrequest
  else if n = 0x096a then .pwStatus
  else .other

/-- The `NBR_STA_*` states of a neighbor. -/
inductive NbrState
  | present
  | initial
  | openrec
  | opensent
  | oper
deriving DecidableEq, Repr

/-- What the receivers read of `struct nbr`. -/
structure Nbr where
  v4Enabled : Bool
  v6Enabled : Bool
  state : NbrState
deriving DecidableEq, Repr

/-- The signed `feclen -= tlen`: below zero the counter is no longer positive,
which is all the loop asks of it. -/
def decrInt (a b : Nat) : Parser Nat := do
  modify fun t => { t with wrapped := t.wrapped || a < b }
  pure (a - b)

/-- The report of a TLV of unknown type, unless its type asks for silence. -/
def reportUnknown (msg : LdpMsg) (type : Nat) : Parser Unit :=
  if type &&& unknownFlag = 0 then emit (.sendNotificationNbr sUnknownTlv msg) else pure ()

/-! ## Label messages -/

/-- `tlv_decode_label`: the size of the label TLV, and the label. -/
def tlvDecodeLabel (mem : Mem) (msg : LdpMsg) (buf len : Nat) : Parser (Nat × UInt32) :=
  if len < labelTlvSize then sessionShutdown sBadTlvLen msg
  else do
    touch buf labelTlvSize
    if num mem buf 2 &&& tlvTypeGenericlabel = 0 then rejectWith sMissMsg msg
    else if TlvType.ofCode (num mem buf 2) = .genericlabel then
      if num mem (buf + 2) 2 ≠ labelTlvSize - tlvHdrSize then sessionShutdown sBadTlvLen msg
      else
        let label := UInt32.ofNat (num mem (buf + 4) 4)
        if label > mplsLabelMax ∨
            (label ≤ mplsLabelReservedMax ∧ label ≠ mplsLabelIpv4null ∧
              label ≠ mplsLabelIpv6null ∧ label ≠ mplsLabelImplnull) then
          sessionShutdown sBadTlvVal msg
        else pure (labelTlvSize, label)
    else sessionShutdown sBadTlvVal msg

/-- The labels that `tlv_decode_label` accepts. -/
def LegalLabel (label : UInt32) : Prop :=
  label ≤ mplsLabelMax ∧ (mplsLabelReservedMax < label ∨ label = mplsLabelIpv4null ∨
    label = mplsLabelIpv6null ∨ label = mplsLabelImplnull)

instance (label : UInt32) : Decidable (LegalLabel label) := inferInstanceAs (Decidable (_ ∧ _))

/-- The same, as the decoder asks for it. -/
theorem legalLabel_iff (label : UInt32) : LegalLabel label ↔ ¬(label > mplsLabelMax ∨
      (label ≤ mplsLabelReservedMax ∧ label ≠ mplsLabelIpv4null ∧
        label ≠ mplsLabelIpv6null ∧ label ≠ mplsLabelImplnull)) := by
  rw [LegalLabel, not_or, gt_iff_lt, UInt32.not_lt, ← UInt32.not_le]
  tauto

/-- The FEC-element loop, a do-while, of `recv_labelmessage`: the position and
the bytes left after the FEC TLV, and the decoded maps. -/
def fecElements (mem : Mem) (msg : LdpMsg) (type : LabelMsgType) :
    Nat → Nat → Nat → Nat → List Map → Parser (Nat × Nat × List Map)
  | 0, _, _, _, _ => throw .outOfFuel
  | fuel + 1, buf, len, feclen, mh => do
    let (tlen, map) ← tlvDecodeFecElm mem fuel msg buf feclen { Map.zero with msgId := msg.id }
    if map.type = .pwid ∧ ¬hasFlag map.flags fMapPwId ∧ type ≠ .withdraw ∧ type ≠ .release then
      rejectWith sMissMsg msg
    else if map.type = .wildcard ∧ type ≠ .withdraw ∧ type ≠ .release then
      sessionShutdown sUnknownFec msg
    else if type ≠ .mapping ∧ tlen ≠ feclen then sessionShutdown sBadTlvVal msg
    else do
      let len ← decr 16 len tlen
      let feclen ← decrInt feclen tlen
      consumed tlen
      if 0 < feclen then fecElements mem msg type fuel (buf + tlen) len feclen (mh ++ [map])
      else pure (buf + tlen, len, mh ++ [map])

/-- What the optional parameters of a label message set. -/
structure Options where
  label : UInt32
  reqid : UInt32
  pwStatus : UInt32
  flags : UInt8
deriving DecidableEq, Repr

/-- One optional parameter, whose value of `tlvLen` bytes is at `buf`. -/
def optionalTlv (mem : Mem) (msg : LdpMsg) (type : LabelMsgType) (tlvType buf tlvLen : Nat)
    (opts : Options) : Parser Options :=
  match TlvType.ofCode tlvType with
  | .labelrequest =>
    if type = .mapping ∨ type = .request then
      if tlvLen ≠ reqidTlvLen then sessionShutdown sBadTlvLen msg
      else do
        touch buf 4
        pure { opts with
          reqid := .ofNat (num mem buf 4), flags := opts.flags ||| fMapReqId }
    else pure opts
  | .hopcount | .pathvector => pure opts
  | .genericlabel =>
    if type = .withdraw ∨ type = .release then
      if tlvLen ≠ labelTlvLen then sessionShutdown sBadTlvLen msg
      else do
        touch buf 4
        pure { opts with label := .ofNat (num mem buf 4) }
    else pure opts
  | .atmlabel | .frlabel =>
    if type = .withdraw ∨ type = .release then sessionShutdown sBadTlvVal msg
    else pure opts
  | .status =>
    if tlvLen ≠ statusTlvLen then sessionShutdown sBadTlvLen msg
    else pure opts
  | .pwStatus =>
    if type = .mapping then
      if tlvLen ≠ pwStatusTlvLen then sessionShutdown sBadTlvLen msg
      else do
        touch buf 4
        pure { opts with
          pwStatus := .ofNat (num mem buf 4), flags := opts.flags ||| fMapPwStatus }
    else pure opts
  | .fec | .extstatus | .returnedpdu | .returnedmsg | .other => do
    reportUnknown msg tlvType
    pure opts

/-- The optional-parameter loop of `recv_labelmessage`, with `len` bytes left at `buf`. -/
def optionalTlvs (mem : Mem) (msg : LdpMsg) (type : LabelMsgType) :
    Nat → Nat → Nat → Options → Parser Options
  | 0, _, _, _ => throw .outOfFuel
  | fuel + 1, buf, len, opts =>
    if len = 0 then pure opts
    else if len < tlvHdrSize then sessionShutdown sBadTlvLen msg
    else do
      touch buf tlvHdrSize
      let tlvLen := num mem (buf + 2) 2
      if tlvLen + tlvHdrSize > len then sessionShutdown sBadTlvLen msg
      else do
        let len ← decr 16 len tlvHdrSize
        let opts ← optionalTlv mem msg type (num mem buf 2) (buf + tlvHdrSize) tlvLen opts
        let len ← decr 16 len tlvLen
        consumed (tlvHdrSize + tlvLen)
        optionalTlvs mem msg type fuel (buf + tlvHdrSize + tlvLen) len opts

/-- One map handed to the LDE, with what the optional parameters say entered. -/
def composeLabelImsg (type : LabelMsgType) (opts : Options) (map : Map) : Parser Unit :=
  emit (.labelImsg type { map with
    label := opts.label
    requestid := if hasFlag map.flags fMapReqId then opts.reqid else map.requestid })

/-- The loop of `recv_labelmessage` that notifies the LDE of each map. -/
def notifyLde (nbr : Nbr) (msg : LdpMsg) (type : LabelMsgType) (opts : Options) :
    List Map → Parser Unit
  | [] => pure ()
  | me :: mh =>
    let map := { me with flags := me.flags ||| opts.flags }
    match map.type with
    | .prefixElm =>
      if map.fec.half = afIpv4 then
        if opts.label = mplsLabelIpv6null then sessionShutdown sBadTlvVal msg
        else if nbr.v4Enabled then do
          composeLabelImsg type opts map
          notifyLde nbr msg type opts mh
        else notifyLde nbr msg type opts mh
      else if map.fec.half = afIpv6 then
        if opts.label = mplsLabelIpv4null then sessionShutdown sBadTlvVal msg
        else if nbr.v6Enabled then do
          composeLabelImsg type opts map
          notifyLde nbr msg type opts mh
        else notifyLde nbr msg type opts mh
      else throw .fatalx
    | .pwid =>
      if opts.label ≤ mplsLabelReservedMax then sessionShutdown sBadTlvVal msg
      else do
        composeLabelImsg type opts { map with
          pwStatus := if hasFlag map.flags fMapPwStatus then opts.pwStatus else map.pwStatus }
        notifyLde nbr msg type opts mh
    | .wildcard | .none => do
      composeLabelImsg type opts map
      notifyLde nbr msg type opts mh

/-- The mandatory label TLV of a label mapping: position and bytes left after it, and the label. -/
def mandatoryLabel (mem : Mem) (msg : LdpMsg) (type : LabelMsgType) (buf len : Nat) :
    Parser (Nat × Nat × UInt32) :=
  if type = .mapping then do
    let (lbllen, label) ← tlvDecodeLabel mem msg buf len
    let len ← decr 16 len lbllen
    pure (buf + lbllen, len, label)
  else pure (buf, len, noLabel)

/-- The part of `recv_labelmessage` behind the header of the FEC TLV. -/
def recvLabelBody (mem : Mem) (fuel : Nat) (nbr : Nbr) (msg : LdpMsg) (type : LabelMsgType)
    (len feclen : Nat) : Parser Unit := do
  let (buf, len, mh) ← fecElements mem msg type fuel (ldpMsgSize + tlvHdrSize) len feclen []
  let (buf, len, label) ← mandatoryLabel mem msg type buf len
  let opts ← optionalTlvs mem msg type fuel buf len ⟨label, 0, 0, 0⟩
  notifyLde nbr msg type opts mh

/-- The header of the message at offset zero. -/
def ldpMsg (mem : Mem) : LdpMsg := ⟨.ofNat (num mem 0 2), .ofNat (num mem 4 4)⟩

def recvLabelmessage (mem : Mem) (fuel : Nat) (nbr : Nbr) (len : UInt16) (type : LabelMsgType) :
    Parser Unit := do
  touch 0 ldpMsgSize
  let msg := ldpMsg mem
  let len ← decr 16 len.toNat ldpMsgSize
  if len < tlvHdrSize then sessionShutdown sBadTlvLen msg
  else do
    touch ldpMsgSize tlvHdrSize
    if num mem ldpMsgSize 2 ≠ tlvTypeFec then rejectWith sMissMsg msg
    else
      let feclen := num mem (ldpMsgSize + 2) 2
      if feclen > len - tlvHdrSize then sessionShutdown sBadTlvLen msg
      else do
        let len ← decr 16 len tlvHdrSize
        recvLabelBody mem fuel nbr msg type len feclen

/-! ## Notifications -/

/-- One optional parameter of a notification, whose value is at `buf`. -/
def notificationTlv (mem : Mem) (fuel : Nat) (msg : LdpMsg) (tlvType buf tlvLen : Nat)
    (nm : NotifyMsg) : Parser NotifyMsg :=
  match TlvType.ofCode tlvType with
  | .extstatus | .returnedpdu | .returnedmsg => pure nm
  | .pwStatus =>
    if tlvLen ≠ 4 then sessionShutdown sBadTlvLen msg
    else do
      touch buf 4
      pure { nm with
        pwStatus := .ofNat (num mem buf 4), flags := nm.flags ||| fNotifPwStatus }
  | .fec => do
    let (tlen, map) ← tlvDecodeFecElm mem fuel msg buf tlvLen nm.fec
    if tlen ≠ tlvLen then sessionShutdown sBadTlvVal msg
    else pure { nm with fec := map, flags := nm.flags ||| fNotifFec }
  | _ => do
    reportUnknown msg tlvType
    pure nm

/-- The optional-parameter loop of `recv_notification`, with `len` bytes left at `buf`. -/
def notificationTlvs (mem : Mem) (msg : LdpMsg) :
    Nat → Nat → Nat → NotifyMsg → Parser NotifyMsg
  | 0, _, _, _ => throw .outOfFuel
  | fuel + 1, buf, len, nm =>
    if len = 0 then pure nm
    else if len < tlvHdrSize then sessionShutdown sBadTlvLen msg
    else do
      touch buf tlvHdrSize
      let tlvLen := num mem (buf + 2) 2
      if tlvLen + tlvHdrSize > len then sessionShutdown sBadTlvLen msg
      else do
        let len ← decr 16 len tlvHdrSize
        let nm ← notificationTlv mem fuel msg (num mem buf 2) (buf + tlvHdrSize) tlvLen nm
        let len ← decr 16 len tlvLen
        consumed (tlvHdrSize + tlvLen)
        notificationTlvs mem msg fuel (buf + tlvHdrSize + tlvLen) len nm

/-- The part of `recv_notification` behind its loop. -/
def actOnNotification (nbr : Nbr) (msg : LdpMsg) (nm : NotifyMsg) : Parser Unit :=
  if nm.statusCode = sPwStatus ∧ ¬hasFlag nm.flags (fNotifPwStatus ||| fNotifFec) then
    rejectWith sMissMsg msg
  else if nm.statusCode = sPwStatus ∧ nm.fec.type ≠ .pwid then rejectWith sBadTlvVal msg
  else if nm.statusCode &&& statusFatal ≠ 0 then do
    if nbr.state = .opensent then emit .startIdtimer
    emit .closeSession
    throw .fail
  else if nm.statusCode = sPwStatus then emit (.notificationImsg nm)
  else pure ()

def recvNotification (mem : Mem) (fuel : Nat) (nbr : Nbr) (len : UInt16) : Parser Unit := do
  touch 0 ldpMsgSize
  let msg := ldpMsg mem
  let len ← decr 16 len.toNat ldpMsgSize
  if len < statusSize then sessionShutdown sBadMsgLen msg
  else do
    touch ldpMsgSize statusSize
    let stLength := num mem (ldpMsgSize + 2) 2
    if stLength > statusSize - tlvHdrSize ∨ stLength > len - tlvHdrSize then
      sessionShutdown sBadTlvLen msg
    else do
      let len ← decr 16 len statusSize
      let nm ← notificationTlvs mem msg fuel (ldpMsgSize + statusSize) len
        { NotifyMsg.zero with statusCode := .ofNat (num mem (ldpMsgSize + 4) 4) }
      actOnNotification nbr msg nm

end Mp2mp.Ldpe
