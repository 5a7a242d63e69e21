import Mp2mp.Ldpe.LabelMessage

/-!
# Hello messages

The encoder `send_hello` of `hello.c`, and what a receiver makes of its packet:
the header checks of `disc_recv_packet` and the decoders `tlv_decode_hello_prms`
and `tlv_decode_opt_hello_prms`.

A buffer and its length are one byte string here.  The host is little-endian: a
number that is copied from the packet without `ntohl` has its bytes reversed.

* `recvHelloPrms_sendHello`: what is received of the packet that was sent.
* `hello_roundtrip_iff`: when that is what the sender announced.
-/

namespace Mp2mp.Ldpe

open Kit Ldpd List

/-! ## Configuration -/

/-- `DUAL_STACK_LDPOV4` and `DUAL_STACK_LDPOV6`, the values `trans_pref` takes. -/
inductive TransPref
  | ldpov4
  | ldpov6
deriving DecidableEq, Repr

def TransPref.code : TransPref → Nat
  | .ldpov4 => 4
  | .ldpov6 => 6

/-- What the hello code reads of `struct ldpd_af_conf`; the flags are
`F_LDPD_AF_ENABLED`, `F_LDPD_AF_THELLO_ACCEPT` and `F_LDPD_AF_NO_GTSM`. -/
structure AfConf where
  lhelloHoldtime : UInt16
  thelloHoldtime : UInt16
  transAddr : LdpdAddr
  enabled : Bool
  thelloAccept : Bool
  noGtsm : Bool
deriving DecidableEq, Repr

/-- What the hello code reads of `struct ldpd_conf`; `ciscoInterop` is the flag
`F_LDPD_DS_CISCO_INTEROP`. -/
structure LdpdConf where
  rtrId : InAddr
  ipv4 : AfConf
  ipv6 : AfConf
  lhelloHoldtime : UInt16
  thelloHoldtime : UInt16
  transPref : TransPref
  ciscoInterop : Bool
deriving DecidableEq, Repr

open LdpdConf

/-- `ldp_af_conf_get` -/
def LdpdConf.afConf (conf : LdpdConf) : Af → AfConf
  | .inet => conf.ipv4
  | .inet6 => conf.ipv6

/-- `ldp_is_dual_stack` -/
def LdpdConf.isDualStack (conf : LdpdConf) : Bool := conf.ipv4.enabled && conf.ipv6.enabled

/-- What `send_hello` reads of `struct ldpd_global`, and the counter of `gen_msg_hdr`. -/
structure Global where
  rtrId : InAddr
  confSeqnum : UInt32
  msgcnt : UInt32
deriving DecidableEq, Repr

def ldpRtrIdGet (conf : LdpdConf) (global : Global) : InAddr :=
  if conf.rtrId ≠ 0 then conf.rtrId else global.rtrId

/-- Where a hello is sent: on an interface, with the hold time configured there,
or to a targeted neighbour. -/
inductive HelloDest
  | link (af : Af) (helloHoldtime : UInt16)
  | targeted (af : Af) (configured : Bool) (pwCount : Nat)
deriving DecidableEq, Repr

def HelloDest.af : HelloDest → Af
  | .link af _ | .targeted af _ _ => af

/-- `if_get_hello_holdtime` and `tnbr_get_hello_holdtime` -/
def HelloDest.holdtime (conf : LdpdConf) : HelloDest → UInt16
  | .link af helloHoldtime =>
    if helloHoldtime ≠ 0 then helloHoldtime
    else if (conf.afConf af).lhelloHoldtime ≠ 0 then (conf.afConf af).lhelloHoldtime
    else conf.lhelloHoldtime
  | .targeted af _ _ =>
    if (conf.afConf af).thelloHoldtime ≠ 0 then (conf.afConf af).thelloHoldtime
    else conf.thelloHoldtime

def fHelloTargeted : UInt16 := 0x8000
def fHelloReqTarg : UInt16 := 0x4000
def fHelloGtsm : UInt16 := 0x2000

/-- The flags `send_hello` sets. -/
def HelloDest.flags (conf : LdpdConf) : HelloDest → UInt16
  | .link .inet _ => if conf.ipv4.noGtsm then 0 else fHelloGtsm
  | .link .inet6 _ => 0
  | .targeted _ configured pwCount =>
    if configured ∨ pwCount ≠ 0 then fHelloTargeted ||| fHelloReqTarg else fHelloTargeted

/-! ## Encoding -/

def ldpVersion : Nat := 1
def ldpHdrSize : Nat := 10
/-- `LDP_HDR_PDU_LEN`, the minimum of the field "PDU Length" -/
def ldpHdrPduLen : Nat := 6
def ldpHdrDeadLen : Nat := 4
/-- `LDP_MSG_LEN`, the minimum of the field "Message Length" -/
def ldpMsgLen : Nat := 4
def ldpMsgDeadLen : Nat := 4
def ldpMaxLen : Nat := 4096
def msgTypeHello : Nat := 0x0100
def tlvTypeCommonhello : Nat := 0x0400
def tlvTypeIpv4transaddr : Nat := 0x0401
def tlvTypeConfig : Nat := 0x0402
def tlvTypeIpv6transaddr : Nat := 0x0403
def tlvTypeDualstack : Nat := 0x8701

/-- `sizeof(struct hello_prms_tlv)` -/
def helloPrmsTlvSize : Nat := 8
/-- `sizeof(struct hello_prms_opt4_tlv)` -/
def helloPrmsOpt4TlvSize : Nat := 8
/-- `sizeof(struct hello_prms_opt16_tlv)` -/
def helloPrmsOpt16TlvSize : Nat := 20

def addrBytes (a : LdpdAddr) : List UInt8 :=
  toBe 4 a.w0.toNat ++ toBe 4 a.w1.toNat ++ toBe 4 a.w2.toNat ++ toBe 4 a.w3.toNat

def genLdpHdr (rtrId : InAddr) (size : Nat) : List UInt8 :=
  toBe 2 ldpVersion ++ toBe 2 (size - ldpHdrDeadLen) ++ toBe 4 rtrId.toNat ++ toBe 2 0

/-- `gen_msg_hdr`; the message gets the id `++msgcnt`. -/
def genMsgHdr (type size : Nat) (id : UInt32) : List UInt8 :=
  toBe 2 type ++ toBe 2 (size - ldpMsgDeadLen) ++ toBe 4 id.toNat

def genHelloPrmsTlv (holdtime flags : UInt16) : List UInt8 :=
  tlvHdr tlvTypeCommonhello 4 ++ (toBe 2 holdtime.toNat ++ toBe 2 flags.toNat)

/-- `gen_opt4_hello_prms_tlv`, given the four bytes that the value has in memory. -/
def genOpt4HelloPrmsTlv (type : Nat) (value : List UInt8) : List UInt8 := tlvHdr type 4 ++ value

def genOpt16HelloPrmsTlv (type : Nat) (value : List UInt8) : List UInt8 := tlvHdr type 16 ++ value

def genDsHelloPrmsTlv (conf : LdpdConf) : List UInt8 :=
  genOpt4HelloPrmsTlv tlvTypeDualstack <|
    if conf.ciscoInterop then toBe 4 conf.transPref.code else toBe 4 (conf.transPref.code <<< 28)

def genTransAddrTlv (conf : LdpdConf) : Af → List UInt8
  | .inet => genOpt4HelloPrmsTlv tlvTypeIpv4transaddr (toBe 4 conf.ipv4.transAddr.v4.toNat)
  | .inet6 => genOpt16HelloPrmsTlv tlvTypeIpv6transaddr (addrBytes conf.ipv6.transAddr)

/-- The message size that `send_hello` calculates. -/
def helloSize (conf : LdpdConf) (af : Af) : Nat :=
  ldpHdrSize + ldpMsgSize + helloPrmsTlvSize +
    (match af with
      | .inet => helloPrmsOpt4TlvSize
      | .inet6 => helloPrmsOpt16TlvSize) +
    helloPrmsOpt4TlvSize + (if conf.isDualStack then helloPrmsOpt4TlvSize else 0)

/-- `send_hello`: the packet. -/
def sendHello (conf : LdpdConf) (global : Global) (dest : HelloDest) : List UInt8 :=
  let size := helloSize conf dest.af
  genLdpHdr (ldpRtrIdGet conf global) size ++
    (genMsgHdr msgTypeHello (size - ldpHdrSize) (global.msgcnt + 1) ++
      (genHelloPrmsTlv (dest.holdtime conf) (dest.flags conf) ++
        (genTransAddrTlv conf dest.af ++
          (genOpt4HelloPrmsTlv tlvTypeConfig (toBe 4 global.confSeqnum.toNat) ++
            if conf.isDualStack then genDsHelloPrmsTlv conf else []))))

/-! ## Decoding -/

/-- The number in network order that takes `n` bytes at `off`. -/
def field (buf : List UInt8) (off n : Nat) : Nat := ofBe ((buf.drop off).take n)

/-- The header checks of `disc_recv_packet`: the LSR id, the message header and
the buffer that `recv_hello` is called with. -/
def discRecvPacket (pkt : List UInt8) : Option (InAddr × LdpMsg × List UInt8) :=
  if pkt.length < ldpHdrSize + ldpMsgSize ∨ pkt.length > ldpMaxLen then none
  else if field pkt 0 2 ≠ ldpVersion then none
  else if field pkt 8 2 ≠ 0 then none
  else
    let pduLen := field pkt 2 2
    if pduLen < ldpHdrPduLen + ldpMsgSize ∨ pduLen > pkt.length - ldpHdrDeadLen then none
    else
      let buf := pkt.drop ldpHdrSize
      let msgLen := field buf 2 2
      if msgLen < ldpMsgLen ∨ msgLen + ldpMsgDeadLen > pduLen then none
      else if field buf 0 2 ≠ msgTypeHello then none
      else
        some (.ofNat (field pkt 4 4), ⟨.ofNat (field buf 0 2), .ofNat (field buf 4 4)⟩,
          buf.drop ldpMsgSize)

/-- `tlv_decode_hello_prms`: hold time and flags. -/
def tlvDecodeHelloPrms (buf : List UInt8) : Option (UInt16 × UInt16) :=
  if buf.length < helloPrmsTlvSize then none
  else if field buf 0 2 ≠ tlvTypeCommonhello then none
  else if field buf 2 2 ≠ helloPrmsTlvSize - tlvHdrSize then none
  else some (.ofNat (field buf 4 2), .ofNat (field buf 6 2))

def fHelloTlvRcvdAddr : UInt8 := 0x01
def fHelloTlvRcvdConf : UInt8 := 0x02
def fHelloTlvRcvdDs : UInt8 := 0x04

/-- The results of `tlv_decode_opt_hello_prms`. -/
structure OptHelloPrms where
  tlvsRcvd : UInt8
  addr : LdpdAddr
  confNumber : UInt32
  transPref : Nat
deriving DecidableEq, Repr

open OptHelloPrms

def OptHelloPrms.zero : OptHelloPrms := ⟨0, ⟨0, 0, 0, 0⟩, 0, 0⟩

def OptHelloPrms.received (opts : OptHelloPrms) (f : UInt8) : OptHelloPrms :=
  { opts with tlvsRcvd := opts.tlvsRcvd ||| f }

/-- The TLV types that `tlv_decode_opt_hello_prms` tells apart. -/
inductive HelloTlv
  | ipv4transaddr
  | ipv6transaddr
  | config
  | dualstack
  | other
deriving DecidableEq, Repr

def HelloTlv.ofCode (n : Nat) : HelloTlv :=
  if n = tlvTypeIpv4transaddr then .ipv4transaddr
  else if n = tlvTypeIpv6transaddr then .ipv6transaddr
  else if n = tlvTypeConfig then .config
  else if n = tlvTypeDualstack then .dualstack
  else .other

/-- One optional parameter with the given value. -/
def optHelloPrm (conf : LdpdConf) (af : Af) (type : Nat) (value : List UInt8)
    (opts : OptHelloPrms) : Option OptHelloPrms :=
  match HelloTlv.ofCode type with
  | .ipv4transaddr =>
    if value.length ≠ 4 ∨ af ≠ .inet then none
    else if hasFlag opts.tlvsRcvd fHelloTlvRcvdAddr then some opts
    else
      some ({ opts with addr := { opts.addr with w0 := .ofNat (ofBe value) } }.received
        fHelloTlvRcvdAddr)
  | .ipv6transaddr =>
    if value.length ≠ 16 ∨ af ≠ .inet6 then none
    else if hasFlag opts.tlvsRcvd fHelloTlvRcvdAddr then some opts
    else
      some ({ opts with
        addr := ⟨.ofNat (field value 0 4), .ofNat (field value 4 4), .ofNat (field value 8 4),
          .ofNat (field value 12 4)⟩ }.received fHelloTlvRcvdAddr)
  | .config =>
    if value.length ≠ 4 then none
    else
      -- copied as it is, without `ntohl`
      some ({ opts with confNumber := .ofNat (ofBe value.reverse) }.received fHelloTlvRcvdConf)
  | .dualstack =>
    if value.length ≠ 4 then none
    else if conf.isDualStack then
      if conf.ciscoInterop then
        some ({ opts with transPref := field value 2 2 }.received fHelloTlvRcvdDs)
      else some ({ opts with transPref := field value 0 2 >>> 12 }.received fHelloTlvRcvdDs)
    else some opts
  | .other => if type &&& unknownFlag = 0 then none else some opts

/-- `tlv_decode_opt_hello_prms`: the bytes it read, and its results.  An iteration
takes at least the header of a TLV, so the length of the buffer is fuel enough. -/
def tlvDecodeOptHelloPrms (conf : LdpdConf) (af : Af) :
    Nat → List UInt8 → Nat → OptHelloPrms → Option (Nat × OptHelloPrms)
  | 0, _, _, _ => none
  | fuel + 1, buf, total, opts =>
    if buf.length < tlvHdrSize then some (total, opts)
    else
      let tlvLen := field buf 2 2
      if tlvLen + tlvHdrSize > buf.length then none
      else
        match optHelloPrm conf af (field buf 0 2) ((buf.drop tlvHdrSize).take tlvLen) opts with
        | none => none
        | some opts =>
          tlvDecodeOptHelloPrms conf af fuel (buf.drop (tlvHdrSize + tlvLen))
            (total + tlvHdrSize + tlvLen) opts

/-- What a received hello says. -/
structure Hello where
  lsrId : InAddr
  holdtime : UInt16
  flags : UInt16
  opts : OptHelloPrms
deriving DecidableEq, Repr

/-- The decoding of `recv_hello`, all of the packet being used up. -/
def decodeHello (conf : LdpdConf) (af : Af) (lsrId : InAddr) (buf : List UInt8) : Option Hello :=
  match tlvDecodeHelloPrms buf with
  | none => none
  | some (holdtime, flags) =>
    let buf := buf.drop helloPrmsTlvSize
    match tlvDecodeOptHelloPrms conf af (buf.length + 1) buf 0 .zero with
    | none => none
    | some (r, opts) => if r ≠ buf.length then none else some ⟨lsrId, holdtime, flags, opts⟩

def recvHelloPrms (conf : LdpdConf) (af : Af) (pkt : List UInt8) : Option Hello :=
  match discRecvPacket pkt with
  | none => none
  | some (lsrId, _, buf) => decodeHello conf af lsrId buf

/-! ## Reading back -/

@[simp]
theorem field_append (n x : Nat) (rest : List UInt8) :
    field (toBe n x ++ rest) 0 n = x % 256 ^ n := by
  rw [field, drop_zero, take_left' (length_toBe n x), ofBe_toBe]

/-- A field behind the first `k` bytes. -/
theorem field_behind {l : List UInt8} {k : Nat} (h : l.length = k) (rest : List UInt8) (off n : Nat) :
    field (l ++ rest) (k + off) n = field rest off n := by
  rw [field, field, ← drop_drop, drop_left' h]

theorem ofNat_mod_toNat (x : UInt32) : UInt32.ofNat (x.toNat % 256 ^ 4) = x := by
  have hlt : x.toNat < 256 ^ 4 := x.toNat_lt
  rw [Nat.mod_eq_of_lt hlt, UInt32.ofNat_toNat]

theorem ofNat_mod_toNat16 (x : UInt16) : UInt16.ofNat (x.toNat % 256 ^ 2) = x := by
  have hlt : x.toNat < 256 ^ 2 := x.toNat_lt
  rw [Nat.mod_eq_of_lt hlt, UInt16.ofNat_toNat]

theorem field_tlvHdr (type length : Nat) (rest : List UInt8) :
    field (tlvHdr type length ++ rest) 0 2 = type % 256 ^ 2 ∧
      field (tlvHdr type length ++ rest) 2 2 = length % 256 ^ 2 := by
  rw [tlvHdr, append_assoc]
  refine ⟨field_append .., ?_⟩
  rw [show 2 = 2 + 0 from rfl, field_behind (length_toBe 2 type)]
  exact field_append ..

theorem length_tlvHdr (type length : Nat) : (tlvHdr type length).length = tlvHdrSize := by
  simp [tlvHdr, tlvHdrSize]

/-- One iteration over a TLV that was written before the rest of the buffer. -/
theorem tlvDecodeOptHelloPrms_cons {conf : LdpdConf} {af : Af} {fuel type : Nat}
    {value rest : List UInt8} {total : Nat} {opts : OptHelloPrms}
    (htype : type < 256 ^ 2) (hvalue : value.length < 256 ^ 2) :
    tlvDecodeOptHelloPrms conf af (fuel + 1) (tlvHdr type value.length ++ value ++ rest) total opts =
      (optHelloPrm conf af type value opts).bind fun opts =>
        tlvDecodeOptHelloPrms conf af fuel rest (total + tlvHdrSize + value.length) opts := by
  have hfields := field_tlvHdr type value.length (value ++ rest)
  rw [Nat.mod_eq_of_lt htype, Nat.mod_eq_of_lt hvalue] at hfields
  have hlen : (tlvHdr type value.length ++ (value ++ rest)).length =
      tlvHdrSize + value.length + rest.length := by
    rw [length_append, length_append, length_tlvHdr, add_assoc]
  have hdrop : (tlvHdr type value.length ++ (value ++ rest)).drop (tlvHdrSize + value.length) =
      rest := by
    rw [← drop_drop, drop_left' (length_tlvHdr ..), drop_left]
  rw [append_assoc, tlvDecodeOptHelloPrms, hfields.1, hfields.2, hlen]
  dsimp only
  rw [hdrop, drop_left' (length_tlvHdr ..), take_left, if_neg (by omega), if_neg (by omega)]
  cases optHelloPrm conf af type value opts <;> rfl

theorem tlvDecodeOptHelloPrms_nil (conf : LdpdConf) (af : Af) (fuel total : Nat)
    (opts : OptHelloPrms) :
    tlvDecodeOptHelloPrms conf af (fuel + 1) [] total opts = some (total, opts) := rfl

/-! ## The round trip -/

/-- The transport address a hello announces, as the receiver stores it. -/
def LdpdConf.announcedAddr (conf : LdpdConf) : Af → LdpdAddr
  | .inet => .ofV4 conf.ipv4.transAddr.v4
  | .inet6 => conf.ipv6.transAddr

/-- What a hello announces to a receiver, given the sequence number it reads.  A
single-stack receiver ignores the dual-stack TLV. -/
def announced (conf rconf : LdpdConf) (global : Global) (dest : HelloDest) (seqnum : UInt32) :
    Hello :=
  { lsrId := ldpRtrIdGet conf global
    holdtime := dest.holdtime conf
    flags := dest.flags conf
    opts :=
      if conf.isDualStack ∧ rconf.isDualStack then
        ⟨fHelloTlvRcvdAddr ||| fHelloTlvRcvdConf ||| fHelloTlvRcvdDs, conf.announcedAddr dest.af,
          seqnum, conf.transPref.code⟩
      else
        ⟨fHelloTlvRcvdAddr ||| fHelloTlvRcvdConf, conf.announcedAddr dest.af, seqnum, 0⟩ }

/-- The fields of an LDP header, and what is behind it. -/
theorem genLdpHdr_fields (rtrId : InAddr) {size : Nat} (hsize : size < 256 ^ 2) (rest : List UInt8) :
    field (genLdpHdr rtrId size ++ rest) 0 2 = ldpVersion ∧
      field (genLdpHdr rtrId size ++ rest) 2 2 = size - ldpHdrDeadLen ∧
      UInt32.ofNat (field (genLdpHdr rtrId size ++ rest) 4 4) = rtrId ∧
      field (genLdpHdr rtrId size ++ rest) 8 2 = 0 ∧
      (genLdpHdr rtrId size ++ rest).drop ldpHdrSize = rest ∧
      (genLdpHdr rtrId size ++ rest).length = ldpHdrSize + rest.length := by
  have hpdu := field_behind (length_toBe 2 ldpVersion)
    (toBe 2 (size - ldpHdrDeadLen) ++ (toBe 4 rtrId.toNat ++ (toBe 2 0 ++ rest))) 0 2
  have hid := field_behind (l := toBe 2 ldpVersion ++ toBe 2 (size - ldpHdrDeadLen)) (k := 4)
    (by simp) (toBe 4 rtrId.toNat ++ (toBe 2 0 ++ rest)) 0 4
  have hspace := field_behind
    (l := toBe 2 ldpVersion ++ toBe 2 (size - ldpHdrDeadLen) ++ toBe 4 rtrId.toNat) (k := 8)
    (by simp) (toBe 2 0 ++ rest) 0 2
  rw [field_append, Nat.mod_eq_of_lt (lt_of_le_of_lt (Nat.sub_le _ _) hsize)] at hpdu
  rw [field_append] at hid hspace
  simp only [genLdpHdr, append_assoc] at hid hspace ⊢
  refine ⟨field_append 2 ldpVersion _, hpdu, ?_, hspace, ?_, ?_⟩
  · rw [hid, ofNat_mod_toNat]
  · simp only [← append_assoc]
    exact drop_left' (by simp [ldpHdrSize])
  · simp only [length_append, length_toBe, ldpHdrSize]
    omega

theorem genMsgHdr_fields {type size : Nat} (id : UInt32) (htype : type < 256 ^ 2)
    (hsize : size < 256 ^ 2) (rest : List UInt8) :
    field (genMsgHdr type size id ++ rest) 0 2 = type ∧
      field (genMsgHdr type size id ++ rest) 2 2 = size - ldpMsgDeadLen ∧
      UInt32.ofNat (field (genMsgHdr type size id ++ rest) 4 4) = id ∧
      (genMsgHdr type size id ++ rest).drop ldpMsgSize = rest ∧
      (genMsgHdr type size id ++ rest).length = ldpMsgSize + rest.length := by
  have hlength := field_behind (length_toBe 2 type)
    (toBe 2 (size - ldpMsgDeadLen) ++ (toBe 4 id.toNat ++ rest)) 0 2
  have hid := field_behind (l := toBe 2 type ++ toBe 2 (size - ldpMsgDeadLen)) (k := 4)
    (by simp) (toBe 4 id.toNat ++ rest) 0 4
  have hfirst := field_append 2 type (toBe 2 (size - ldpMsgDeadLen) ++ (toBe 4 id.toNat ++ rest))
  rw [Nat.mod_eq_of_lt htype] at hfirst
  rw [field_append, Nat.mod_eq_of_lt (lt_of_le_of_lt (Nat.sub_le _ _) hsize)] at hlength
  rw [field_append] at hid
  simp only [genMsgHdr, append_assoc] at hid ⊢
  refine ⟨hfirst, hlength, ?_, ?_, ?_⟩
  · rw [hid, ofNat_mod_toNat]
  · simp only [← append_assoc]
    exact drop_left' (by simp [ldpMsgSize])
  · simp only [length_append, length_toBe, ldpMsgSize]
    omega

theorem discRecvPacket_hello {rtrId : InAddr} {id : UInt32} {body : List UInt8} {size : Nat}
    (hsize : size = ldpHdrSize + (ldpMsgSize + body.length)) (hmax : size ≤ ldpMaxLen) :
    discRecvPacket (genLdpHdr rtrId size ++ (genMsgHdr msgTypeHello (size - ldpHdrSize) id ++ body)) =
      some (rtrId, ⟨.ofNat msgTypeHello, id⟩, body) := by
  have hlt : size < 256 ^ 2 := lt_of_le_of_lt hmax (by decide)
  obtain ⟨htype, hlength, hid, hbody, hmsgLen⟩ := genMsgHdr_fields id
    (show msgTypeHello < 256 ^ 2 by decide) (lt_of_le_of_lt (Nat.sub_le size ldpHdrSize) hlt) body
  obtain ⟨hversion, hpdu, hlsr, hspace, hmsg, hlen⟩ := genLdpHdr_fields rtrId hlt
    (genMsgHdr msgTypeHello (size - ldpHdrSize) id ++ body)
  unfold discRecvPacket
  simp only [hversion, hpdu, hlsr, hspace, hmsg, htype, hlength, hid, hbody, hlen, hmsgLen, ← hsize,
    ne_eq, not_true_eq_false, if_false]
  have hfits : ¬(size < ldpHdrSize + ldpMsgSize ∨ size > ldpMaxLen) := by omega
  have hpduFits : ¬(size - ldpHdrDeadLen < ldpHdrPduLen + ldpMsgSize ∨
      size - ldpHdrDeadLen > size - ldpHdrDeadLen) := by
    simp only [ldpHdrSize, ldpMsgSize, ldpHdrDeadLen, ldpHdrPduLen] at hsize ⊢
    omega
  have hmsgFits : ¬(size - ldpHdrSize - ldpMsgDeadLen < ldpMsgLen ∨
      size - ldpHdrSize - ldpMsgDeadLen + ldpMsgDeadLen > size - ldpHdrDeadLen) := by
    simp only [ldpHdrSize, ldpMsgSize, ldpHdrDeadLen, ldpMsgLen, ldpMsgDeadLen] at hsize ⊢
    omega
  rw [if_neg hfits, if_neg hpduFits, if_neg hmsgFits]

section

variable (conf rconf : LdpdConf) (global : Global) (dest : HelloDest)

theorem tlvDecodeHelloPrms_gen (holdtime flags : UInt16) (rest : List UInt8) :
    tlvDecodeHelloPrms (genHelloPrmsTlv holdtime flags ++ rest) = some (holdtime, flags) ∧
      (genHelloPrmsTlv holdtime flags ++ rest).drop helloPrmsTlvSize = rest := by
  have hfields := field_tlvHdr tlvTypeCommonhello 4
    (toBe 2 holdtime.toNat ++ (toBe 2 flags.toNat ++ rest))
  have hhold := field_behind (length_tlvHdr tlvTypeCommonhello 4)
    (toBe 2 holdtime.toNat ++ (toBe 2 flags.toNat ++ rest)) 0 2
  have hflags := field_behind (l := tlvHdr tlvTypeCommonhello 4 ++ toBe 2 holdtime.toNat) (k := 6)
    (by simp [length_tlvHdr, tlvHdrSize]) (toBe 2 flags.toNat ++ rest) 0 2
  have hlen : (genHelloPrmsTlv holdtime flags ++ rest).length = helloPrmsTlvSize + rest.length := by
    simp only [genHelloPrmsTlv, length_append, length_tlvHdr, length_toBe, tlvHdrSize,
      helloPrmsTlvSize]
  rw [field_append] at hhold hflags
  refine ⟨?_, drop_left' (by
    simp [genHelloPrmsTlv, length_tlvHdr, tlvHdrSize, helloPrmsTlvSize])⟩
  rw [tlvDecodeHelloPrms, hlen, if_neg (by omega)]
  simp only [genHelloPrmsTlv, append_assoc, tlvHdrSize] at hfields hhold hflags ⊢
  rw [hfields.1, hfields.2, hhold, hflags, ofNat_mod_toNat16, ofNat_mod_toNat16]
  rfl

theorem optHelloPrm_config (af : Af) (seqnum : UInt32) (opts : OptHelloPrms) :
    optHelloPrm rconf af tlvTypeConfig (toBe 4 seqnum.toNat) opts =
      some ({ opts with confNumber := bswap32 seqnum }.received fHelloTlvRcvdConf) := rfl

/-- The value of the transport address TLV. -/
def LdpdConf.transAddrValue : Af → Nat × List UInt8
  | .inet => (tlvTypeIpv4transaddr, toBe 4 conf.ipv4.transAddr.v4.toNat)
  | .inet6 => (tlvTypeIpv6transaddr, addrBytes conf.ipv6.transAddr)

theorem genTransAddrTlv_eq (af : Af) : genTransAddrTlv conf af =
      tlvHdr (conf.transAddrValue af).1 (conf.transAddrValue af).2.length ++
        (conf.transAddrValue af).2 := by
  cases af <;> rfl

theorem transAddrValue_lt (af : Af) :
    (conf.transAddrValue af).1 < 256 ^ 2 ∧ (conf.transAddrValue af).2.length < 256 ^ 2 := by
  cases af with
  | inet =>
    simp only [transAddrValue, length_toBe]
    decide
  | inet6 =>
    simp only [transAddrValue, addrBytes, length_append, length_toBe]
    decide

theorem field_addrBytes (a : LdpdAddr) :
    UInt32.ofNat (field (addrBytes a) 0 4) = a.w0 ∧ UInt32.ofNat (field (addrBytes a) 4 4) = a.w1 ∧
      UInt32.ofNat (field (addrBytes a) 8 4) = a.w2 ∧
      UInt32.ofNat (field (addrBytes a) 12 4) = a.w3 := by
  have h0 := field_append 4 a.w0.toNat (toBe 4 a.w1.toNat ++ (toBe 4 a.w2.toNat ++ toBe 4 a.w3.toNat))
  have h1 := field_behind (length_toBe 4 a.w0.toNat)
    (toBe 4 a.w1.toNat ++ (toBe 4 a.w2.toNat ++ toBe 4 a.w3.toNat)) 0 4
  have h2 := field_behind (l := toBe 4 a.w0.toNat ++ toBe 4 a.w1.toNat) (k := 8) (by simp)
    (toBe 4 a.w2.toNat ++ toBe 4 a.w3.toNat) 0 4
  have h3 := field_behind (l := toBe 4 a.w0.toNat ++ toBe 4 a.w1.toNat ++ toBe 4 a.w2.toNat)
    (k := 12) (by simp) (toBe 4 a.w3.toNat ++ []) 0 4
  rw [field_append] at h1 h2 h3
  simp only [append_assoc, append_nil, add_zero] at h1 h2 h3
  simp only [addrBytes, append_assoc, h0, h1, h2, h3, ofNat_mod_toNat, and_self]

theorem optHelloPrm_transAddr (af : Af) :
    optHelloPrm rconf af (conf.transAddrValue af).1 (conf.transAddrValue af).2 .zero =
      some ⟨fHelloTlvRcvdAddr, conf.announcedAddr af, 0, 0⟩ := by
  have hfirst : ¬hasFlag zero.tlvsRcvd fHelloTlvRcvdAddr := by decide
  cases af with
  | inet =>
    have hcode : HelloTlv.ofCode tlvTypeIpv4transaddr = .ipv4transaddr := rfl
    simp only [optHelloPrm, transAddrValue, hcode, length_toBe, ofBe_toBe, ofNat_mod_toNat]
    rw [if_neg (by simp), if_neg hfirst]
    simp [received, zero, announcedAddr, LdpdAddr.ofV4]
  | inet6 =>
    have hcode : HelloTlv.ofCode tlvTypeIpv6transaddr = .ipv6transaddr := rfl
    have hlen : (addrBytes conf.ipv6.transAddr).length = 16 := by simp [addrBytes]
    obtain ⟨h0, h1, h2, h3⟩ := field_addrBytes conf.ipv6.transAddr
    simp only [optHelloPrm, transAddrValue, hcode, hlen, h0, h1, h2, h3]
    rw [if_neg (by simp), if_neg hfirst]
    simp [received, zero, announcedAddr]

section

variable (hcisco : rconf.ciscoInterop = conf.ciscoInterop)

include hcisco

/-- The preference is read back as it was written, if both sides write it alike. -/
theorem optHelloPrm_ds (af : Af) (opts : OptHelloPrms) : optHelloPrm rconf af tlvTypeDualstack
        (if conf.ciscoInterop then toBe 4 conf.transPref.code
          else toBe 4 (conf.transPref.code <<< 28)) opts =
      some (if rconf.isDualStack then
        { opts with transPref := conf.transPref.code }.received fHelloTlvRcvdDs else opts) := by
  have hcode : HelloTlv.ofCode tlvTypeDualstack = .dualstack := rfl
  simp only [optHelloPrm, hcode, hcisco]
  cases rconf.isDualStack <;> cases conf.ciscoInterop <;> cases conf.transPref <;> rfl

theorem tlvDecodeOptHelloPrms_gen (af : Af) (seqnum : UInt32) (fuel : Nat) :
    let opts := genTransAddrTlv conf af ++ (genOpt4HelloPrmsTlv tlvTypeConfig (toBe 4 seqnum.toNat) ++
      if conf.isDualStack then genDsHelloPrmsTlv conf else [])
    tlvDecodeOptHelloPrms rconf af (fuel + 4) opts 0 .zero =
      some (opts.length,
        if conf.isDualStack ∧ rconf.isDualStack then
          ⟨fHelloTlvRcvdAddr ||| fHelloTlvRcvdConf ||| fHelloTlvRcvdDs, conf.announcedAddr af,
            bswap32 seqnum, conf.transPref.code⟩
        else ⟨fHelloTlvRcvdAddr ||| fHelloTlvRcvdConf, conf.announcedAddr af, bswap32 seqnum, 0⟩) := by
  intro opts
  let ds := if conf.ciscoInterop then toBe 4 conf.transPref.code
    else toBe 4 (conf.transPref.code <<< 28)
  have hds : ds.length = 4 := by
    simp only [ds]
    split <;> rfl
  have hconfigLen : (toBe 4 seqnum.toNat).length = 4 := length_toBe ..
  have hconfigTlv : genOpt4HelloPrmsTlv tlvTypeConfig (toBe 4 seqnum.toNat) =
      tlvHdr tlvTypeConfig (toBe 4 seqnum.toNat).length ++ toBe 4 seqnum.toNat := rfl
  have hdsTlv : genDsHelloPrmsTlv conf = tlvHdr tlvTypeDualstack ds.length ++ ds ++ [] := by
    rw [hds, append_nil]
    rfl
  obtain ⟨htype, hvalue⟩ := transAddrValue_lt conf af
  have hlen : opts.length =
      4 + (conf.transAddrValue af).2.length + 8 + if conf.isDualStack then 8 else 0 := by
    simp only [opts, genTransAddrTlv_eq, hconfigTlv, hdsTlv, length_append, length_tlvHdr,
      hconfigLen, tlvHdrSize]
    split <;> simp [hds, length_tlvHdr, tlvHdrSize]
  rw [hlen]
  simp only [opts, genTransAddrTlv_eq, hconfigTlv, hdsTlv]
  rw [tlvDecodeOptHelloPrms_cons htype hvalue, optHelloPrm_transAddr, Option.bind_some,
    tlvDecodeOptHelloPrms_cons (by decide) (by rw [hconfigLen]; decide), optHelloPrm_config,
    Option.bind_some, hconfigLen]
  by_cases hdual : conf.isDualStack
  · simp only [hdual, if_true, true_and]
    rw [tlvDecodeOptHelloPrms_cons (by decide) (by rw [hds]; decide), optHelloPrm_ds _ _ hcisco,
      Option.bind_some, tlvDecodeOptHelloPrms_nil, hds]
    simp only [tlvHdrSize]
    split <;> rfl
  · simp only [hdual]
    rfl

/-- What a receiver with the same encoding of the preference reads is what was
announced, but for the sequence number, whose bytes are reversed. -/
theorem recvHelloPrms_sendHello : recvHelloPrms rconf dest.af (sendHello conf global dest) =
      some (announced conf rconf global dest (bswap32 global.confSeqnum)) := by
  set opts := genTransAddrTlv conf dest.af ++
    (genOpt4HelloPrmsTlv tlvTypeConfig (toBe 4 global.confSeqnum.toNat) ++
      if conf.isDualStack then genDsHelloPrmsTlv conf else []) with hopts
  have hds : (genDsHelloPrmsTlv conf).length = 8 := by
    unfold genDsHelloPrmsTlv
    split <;> rfl
  have hoptsLen : helloSize conf dest.af = ldpHdrSize + (ldpMsgSize + (helloPrmsTlvSize + opts.length)) ∧
      opts.length ≤ 36 ∧ 3 ≤ opts.length := by
    simp only [hopts, helloSize, length_append]
    cases dest.af <;> cases conf.isDualStack <;>
      simp [hds, genTransAddrTlv, genOpt4HelloPrmsTlv, genOpt16HelloPrmsTlv, addrBytes, length_tlvHdr,
        tlvHdrSize, helloPrmsOpt4TlvSize, helloPrmsOpt16TlvSize, ldpHdrSize, ldpMsgSize,
        helloPrmsTlvSize]
  obtain ⟨hprms, hdrop⟩ := tlvDecodeHelloPrms_gen (dest.holdtime conf) (dest.flags conf) opts
  have hbody : (genHelloPrmsTlv (dest.holdtime conf) (dest.flags conf) ++ opts).length =
      helloPrmsTlvSize + opts.length := by
    simp only [genHelloPrmsTlv, length_append, length_tlvHdr, length_toBe, tlvHdrSize,
      helloPrmsTlvSize]
  have hdisc : discRecvPacket (sendHello conf global dest) =
      some (ldpRtrIdGet conf global, ⟨.ofNat msgTypeHello, global.msgcnt + 1⟩,
        genHelloPrmsTlv (dest.holdtime conf) (dest.flags conf) ++ opts) := by
    refine discRecvPacket_hello (by rw [hbody]; exact hoptsLen.1) ?_
    have := hoptsLen.2.1
    rw [hoptsLen.1]
    simp only [ldpHdrSize, ldpMsgSize, helloPrmsTlvSize, ldpMaxLen]
    omega
  have hgen := tlvDecodeOptHelloPrms_gen conf rconf hcisco dest.af global.confSeqnum
    (opts.length - 3)
  simp only [← hopts] at hgen
  rw [show opts.length - 3 + 4 = opts.length + 1 by omega] at hgen
  rw [recvHelloPrms, hdisc]
  simp only [decodeHello, hprms, hdrop, hgen, announced, ne_eq, not_true_eq_false, if_false]

end

/-- The receiver takes the second of two hellos for one with a higher sequence number. -/
def SeenIncreasing (rconf : LdpdConf) (af : Af) (pkt pkt' : List UInt8) : Prop :=
  ∃ hello hello', recvHelloPrms rconf af pkt = some hello ∧
    recvHelloPrms rconf af pkt' = some hello' ∧ hello.opts.confNumber < hello'.opts.confNumber

/-- A hello is accepted and says what was announced exactly if its sequence number
reads the same with its bytes reversed; a later hello with a higher number is seen
as such exactly if the reversed number is higher as well. -/
theorem hello_roundtrip_iff (hcisco : rconf.ciscoInterop = conf.ciscoInterop) (later : Global) :
    (recvHelloPrms rconf dest.af (sendHello conf global dest) =
        some (announced conf rconf global dest global.confSeqnum) ↔
      bswap32 global.confSeqnum = global.confSeqnum) ∧ (global.confSeqnum < later.confSeqnum →
      (SeenIncreasing rconf dest.af (sendHello conf global dest) (sendHello conf later dest) ↔
        bswap32 global.confSeqnum < bswap32 later.confSeqnum)) := by
  have hconf (g : Global) (n : UInt32) : (announced conf rconf g dest n).opts.confNumber = n := by
    simp only [announced]
    split <;> rfl
  have hnow := recvHelloPrms_sendHello conf rconf global dest hcisco
  have hlater := recvHelloPrms_sendHello conf rconf later dest hcisco
  constructor
  · rw [hnow]
    constructor
    · intro h
      have hsame := congrArg (fun hello => hello.opts.confNumber) (Option.some.inj h)
      simpa only [hconf] using hsame
    · intro h
      rw [h]
  · intro _
    constructor
    · rintro ⟨hello, hello', h, h', hlt⟩
      rw [hnow] at h
      rw [hlater] at h'
      cases h
      cases h'
      simpa only [hconf] using hlt
    · intro hlt
      refine ⟨_, _, hnow, hlater, ?_⟩
      simpa only [hconf] using hlt

end

/-- A dual-stack router that prefers LDP over IPv6, with the given router id. -/
def dualStackConf (rtrId : InAddr) : LdpdConf :=
  let af : AfConf := ⟨0, 0, ⟨rtrId, 0, 0, 1⟩, true, false, false⟩
  ⟨rtrId, af, af, 15, 45, .ldpov6, false⟩

theorem dualStackConf_roundtrip : recvHelloPrms (dualStackConf 2) .inet
        (sendHello (dualStackConf 1) ⟨0, 0x01000001, 0⟩ (.link .inet 0)) =
      some (announced (dualStackConf 1) (dualStackConf 2) ⟨0, 0x01000001, 0⟩ (.link .inet 0)
        0x01000001) :=
  (hello_roundtrip_iff (dualStackConf 1) (dualStackConf 2) ⟨0, 0x01000001, 0⟩ (.link .inet 0) rfl
    ⟨0, 2, 0⟩).1.mpr (by decide)

/-- The sequence number 1 is read as 2 ^ 24, and when it goes up from 255 to 256
the receiver sees it go down. -/
theorem seqnum_reversed : recvHelloPrms (dualStackConf 2) .inet
        (sendHello (dualStackConf 1) ⟨0, 1, 0⟩ (.link .inet 0)) =
      some (announced (dualStackConf 1) (dualStackConf 2) ⟨0, 1, 0⟩ (.link .inet 0) 0x01000000) ∧
    ¬SeenIncreasing (dualStackConf 2) .inet
      (sendHello (dualStackConf 1) ⟨0, 255, 0⟩ (.link .inet 0))
      (sendHello (dualStackConf 1) ⟨0, 256, 0⟩ (.link .inet 0)) := by
  refine ⟨by decide +kernel, ?_⟩
  rintro ⟨hello, hello', h, h', hlt⟩
  have hfirst : recvHelloPrms (dualStackConf 2) .inet
      (sendHello (dualStackConf 1) ⟨0, 255, 0⟩ (.link .inet 0)) =
    some (announced (dualStackConf 1) (dualStackConf 2) ⟨0, 255, 0⟩ (.link .inet 0) 0xff000000) := by
    decide +kernel
  have hsecond : recvHelloPrms (dualStackConf 2) .inet
      (sendHello (dualStackConf 1) ⟨0, 256, 0⟩ (.link .inet 0)) =
    some (announced (dualStackConf 1) (dualStackConf 2) ⟨0, 256, 0⟩ (.link .inet 0) 0x00010000) := by
    decide +kernel
  rw [hfirst] at h
  rw [hsecond] at h'
  cases h
  cases h'
  exact absurd hlt (by decide)

end Mp2mp.Ldpe
