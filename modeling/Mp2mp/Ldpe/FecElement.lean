import Mp2mp.Kit.Exec
import Mp2mp.Ldpd.Types

/-!
# FEC elements on the wire

The encoder `gen_fec_tlv` and the decoder `tlv_decode_fec_elm` of
`labelmapping.c`.

A decoder reads memory from the start of the received message on; the bytes
beyond the message's length are whatever memory holds there.  Besides its result
it leaves a `Trace`: the messages it sent, and a record of the bytes it looked
at, of the progress of its loops and of the unsigned counters that wrapped.  A
loop whose progress depends on the input takes fuel, one unit per iteration.

* `run_prefixElm`: what the decoder makes of a prefix element.
* `survives_iff`: which MP2MP FECs the wire carries unchanged.
-/

namespace Mp2mp.Ldpe

open Kit Ldpd List

variable {mem : Mem} {root : InAddr} {t : Trace} {ov : UInt8} {status : UInt32} {msg : LdpMsg}

/-! ## Constants -/

def sBadMsgLen : UInt32 := 0x80000005
def sUnknownTlv : UInt32 := 0x00000006
def sBadTlvLen : UInt32 := 0x80000007
def sBadTlvVal : UInt32 := 0x80000008
def sUnknownFec : UInt32 := 0x0000000c
def sMissMsg : UInt32 := 0x00000016
def sUnsupAddr : UInt32 := 0x00000017
def tlvTypeFec : Nat := 0x0100
def tlvHdrSize : Nat := 4
def fecElmWcardLen : Nat := 1
def fecElmPrefixMinLen : Nat := 4
def fecPwidElmMinLen : Nat := 8
def controlWordFlag : UInt16 := 0x8000
def subtlvHdrSize : Nat := 2
def subtlvIfmtu : UInt8 := 0x01
def fecSubtlvIfmtuSize : Nat := 4
def pwStatusTlvLen : Nat := 4

/-- `MAP_TYPE_*` -/
def mapTypeByte : MapType → UInt8
  | .none => 0x00
  | .wildcard => 0x01
  | .prefixElm => 0x02
  | .pwid => 0x80

def prefixSize (x : UInt8) : Nat := (x.toNat + 7) / 8

theorem prefixSize_le (x : UInt8) : prefixSize x ≤ 32 := by
  have := x.toNat_lt
  rw [prefixSize]
  omega

/-- `struct tlv` in network byte order. -/
def tlvHdr (type length : Nat) : List UInt8 := toBe 2 type ++ toBe 2 length

/-- `gen_fec_tlv`: the bytes it appends to the buffer. -/
def genFecTlv (map : Map) : List UInt8 :=
  match map.type with
  | .wildcard => tlvHdr tlvTypeFec 1 ++ [mapTypeByte .wildcard]
  | .prefixElm =>
    let len := prefixSize map.fec.prefixlen
    tlvHdr tlvTypeFec (1 + 2 + 1 + len) ++
      ([mapTypeByte .prefixElm] ++ toBe 2 map.fec.half.toNat ++ [map.fec.prefixlen] ++
        map.fromPrefix.take len)
  | .pwid =>
    let pwLen :=
      (if hasFlag map.flags fMapPwId then pwStatusTlvLen else 0) +
      (if hasFlag map.flags fMapPwIfmtu then fecSubtlvIfmtuSize else 0)
    let pwType := if hasFlag map.flags fMapPwCword then map.fec.half ||| controlWordFlag
      else map.fec.half
    tlvHdr tlvTypeFec (fecPwidElmMinLen + pwLen) ++
      ([mapTypeByte .pwid] ++ toBe 2 pwType.toNat ++ [UInt8.ofNat pwLen] ++
        toBe 4 map.fec.groupId.toNat ++
        (if hasFlag map.flags fMapPwId then toBe 4 map.fec.pwid.toNat else []) ++
        (if hasFlag map.flags fMapPwIfmtu then
          [subtlvIfmtu, UInt8.ofNat fecSubtlvIfmtuSize] ++ toBe 2 map.fec.ifmtu.toNat
        else []))
  | .none => []

/-! ## The parser -/

/-- `struct ldp_msg` without its length: what error reports echo, in network order. -/
structure LdpMsg where
  type : UInt16
  id : UInt32
deriving DecidableEq, Repr

/-- The `MSG_TYPE_*` that `recv_labelmessage` handles. -/
inductive LabelMsgType
  | mapping
  | request
  | withdraw
  | release
  | abortReq
deriving DecidableEq, Repr

/-- What a receiver does besides returning. -/
inductive Effect
  /-- `session_shutdown` -/
  | sessionShutdown (status : UInt32) (msg : LdpMsg)
  /-- `send_notification_nbr` -/
  | sendNotificationNbr (status : UInt32) (msg : LdpMsg)
  /-- `IMSG_LABEL_*` composed for the LDE -/
  | labelImsg (type : LabelMsgType) (map : Map)
  /-- `IMSG_NOTIFICATION` composed for the LDE -/
  | notificationImsg (nm : NotifyMsg)
  /-- `nbr_start_idtimer` -/
  | startIdtimer
  /-- `nbr_fsm(nbr, NBR_EVT_CLOSE_SESSION)` -/
  | closeSession
deriving DecidableEq, Repr

/-- Why a receiver stopped before its end. -/
inductive Stop
  /-- `return (-1)` -/
  | fail
  /-- `fatalx` -/
  | fatalx
  | outOfFuel
deriving DecidableEq, Repr

/-- The effects of a receiver, and how it got there: the offsets of the bytes it looked at, the
bytes each finished loop iteration consumed, and whether an unsigned counter went below zero. -/
structure Trace where
  reads : List Nat
  steps : List Nat
  wrapped : Bool
  out : List Effect
deriving DecidableEq, Repr

def Trace.empty : Trace := ⟨[], [], false, []⟩

abbrev Parser := EStateM Stop Trace

/-- Look at the `n` bytes from `off` on. -/
def touch (off n : Nat) : Parser Unit :=
  modify fun t => { t with reads := t.reads ++ List.range' off n }

/-- The end of a loop iteration that consumed `n` bytes. -/
def consumed (n : Nat) : Parser Unit :=
  modify fun t => { t with steps := t.steps ++ [n] }

/-- `a -= b` on an unsigned counter of `w` bits. -/
def decr (w a b : Nat) : Parser Nat := do
  modify fun t => { t with wrapped := t.wrapped || a < b }
  pure ((a + 2 ^ w - b) % 2 ^ w)

/-- A counter that is decreased by no more than its value does not wrap. -/
theorem sub_mod_of_le {w a b : Nat} (hb : b ≤ a) (ha : a < 2 ^ w) :
    (a + 2 ^ w - b) % 2 ^ w = a - b := by
  rw [show a + 2 ^ w - b = a - b + 2 ^ w by omega, Nat.add_mod_right]
  exact Nat.mod_eq_of_lt (by omega)

def emit (e : Effect) : Parser Unit :=
  modify fun t => { t with out := t.out ++ [e] }

/-- `session_shutdown`, after which every receiver returns -1. -/
def sessionShutdown {α : Type} (status : UInt32) (msg : LdpMsg) : Parser α := do
  emit (.sessionShutdown status msg)
  throw .fail

/-- `send_notification_nbr` followed by `return (-1)`. -/
def rejectWith {α : Type} (status : UInt32) (msg : LdpMsg) : Parser α := do
  emit (.sendNotificationNbr status msg)
  throw .fail

@[simp]
theorem run_touch (off n : Nat) (t : Trace) :
    (touch off n).run t = .ok () { t with reads := t.reads ++ List.range' off n } := rfl

/-! ## Decoding -/

/-- The number in the `n` bytes of network order at `off`. -/
def num (mem : Mem) (off n : Nat) : Nat := ofBe (slice mem off n)

/-- One interface parameter sub-TLV, whose header is at `pos`. -/
def decodeSubTlv (mem : Mem) (msg : LdpMsg) (pos : Nat) (stype : UInt8) (slen : Nat) (map : Map) :
    Parser Map :=
  if stype = subtlvIfmtu then
    if slen ≠ fecSubtlvIfmtuSize then sessionShutdown sBadTlvLen msg
    else do
      touch (pos + subtlvHdrSize) 2
      pure { map with
        fec := map.fec.setIfmtu (.ofNat (num mem (pos + subtlvHdrSize) 2))
        flags := map.flags ||| fMapPwIfmtu }
  else pure map

/-- The sub-TLV loop of `tlv_decode_fec_elm`, with `pw_len` bytes left at `buf + off`. -/
def decodeSubTlvs (mem : Mem) (msg : LdpMsg) (buf : Nat) :
    Nat → Nat → Nat → Map → Parser (Nat × Map)
  | 0, _, _, _ => throw .outOfFuel
  | fuel + 1, off, pwLen, map =>
    if pwLen = 0 then pure (off, map)
    else if pwLen < subtlvHdrSize then sessionShutdown sBadTlvLen msg
    else do
      touch (buf + off) subtlvHdrSize
      let slen := (mem (buf + off + 1)).toNat
      if pwLen < slen then sessionShutdown sBadTlvLen msg
      else do
        let map ← decodeSubTlv mem msg (buf + off) (mem (buf + off)) slen map
        let pwLen ← decr 8 pwLen slen
        consumed slen
        decodeSubTlvs mem msg buf fuel (off + slen) pwLen map

def setPrefix (map : Map) (af : UInt16) (prefixlen : UInt8) (bytes : List UInt8) : Map :=
  { map with
    type := .prefixElm
    fec := { map.fec with half := af, prefixlen := prefixlen } }.copyPrefix bytes

/-- The case `MAP_TYPE_PREFIX`. -/
def decodePrefix (mem : Mem) (msg : LdpMsg) (buf len : Nat) (map : Map) : Parser (Nat × Map) :=
  if len < fecElmPrefixMinLen then sessionShutdown sBadTlvLen msg
  else do
    touch (buf + 1) 2
    let af := UInt16.ofNat (num mem (buf + 1) 2)
    if af ≠ afIpv4 ∧ af ≠ afIpv6 then rejectWith sUnsupAddr msg
    else do
      touch (buf + 3) 1
      let prefixlen := mem (buf + 3)
      if len < 4 + prefixSize prefixlen then sessionShutdown sBadTlvLen msg
      else do
        touch (buf + 4) (prefixSize prefixlen)
        pure (4 + prefixSize prefixlen,
          setPrefix map af prefixlen (slice mem (buf + 4) (prefixSize prefixlen)))

/-- The case `MAP_TYPE_PWID` from the pseudowire id on, with `pw_len` bytes left. -/
def decodePwidInfo (mem : Mem) (fuel : Nat) (msg : LdpMsg) (buf pwLen : Nat) (map : Map) :
    Parser (Nat × Map) :=
  if pwLen = 0 then pure (8, map)
  else if pwLen < 4 then sessionShutdown sBadTlvLen msg
  else do
    touch (buf + 8) 4
    let map := { map with
      fec := map.fec.setPwid (.ofNat (num mem (buf + 8) 4))
      flags := map.flags ||| fMapPwId }
    let pwLen ← decr 8 pwLen 4
    decodeSubTlvs mem msg buf fuel 12 pwLen map

/-- The case `MAP_TYPE_PWID`. -/
def decodePwid (mem : Mem) (fuel : Nat) (msg : LdpMsg) (buf len : Nat) (map : Map) :
    Parser (Nat × Map) :=
  if len < fecPwidElmMinLen then sessionShutdown sBadTlvLen msg
  else do
    touch (buf + 1) 2
    let pwType := UInt16.ofNat (num mem (buf + 1) 2)
    let cword := pwType &&& controlWordFlag ≠ 0
    touch (buf + 3) 1
    let pwLen := (mem (buf + 3)).toNat
    if len ≠ fecPwidElmMinLen + pwLen then sessionShutdown sBadTlvLen msg
    else do
      touch (buf + 4) 4
      let fec := { map.fec with half := if cword then pwType &&& ~~~controlWordFlag else pwType }
      decodePwidInfo mem fuel msg buf pwLen { map with
        type := .pwid
        fec := fec.setGroupId (.ofNat (num mem (buf + 4) 4))
        flags := if cword then map.flags ||| fMapPwCword else map.flags }

/-- `tlv_decode_fec_elm`: the number of bytes the element takes, and the map
with the element entered. -/
def tlvDecodeFecElm (mem : Mem) (fuel : Nat) (msg : LdpMsg) (buf len : Nat) (map : Map) :
    Parser (Nat × Map) := do
  touch buf 1
  let type := mem buf
  if type = mapTypeByte .wildcard then
    if len = fecElmWcardLen then pure (1, { map with type := .wildcard })
    else sessionShutdown sBadTlvVal msg
  else if type = mapTypeByte .prefixElm then decodePrefix mem msg buf len map
  else if type = mapTypeByte .pwid then decodePwid mem fuel msg buf len map
  else rejectWith sUnknownFec msg

/-- A prefix element that fits in `len` is decoded, whatever its prefix length. -/
theorem run_prefixElm {buf len : Nat} (fuel : Nat) (msg : LdpMsg) (map : Map)
    (t : Trace) (htype : mem buf = mapTypeByte .prefixElm)
    (haf : UInt16.ofNat (num mem (buf + 1) 2) = afIpv4 ∨ UInt16.ofNat (num mem (buf + 1) 2) = afIpv6)
    (hlen : 4 + prefixSize (mem (buf + 3)) ≤ len) :
    ∃ t', t'.out = t.out ∧ (tlvDecodeFecElm mem fuel msg buf len map).run t =
      .ok (4 + prefixSize (mem (buf + 3)),
        setPrefix map (.ofNat (num mem (buf + 1) 2)) (mem (buf + 3))
          (slice mem (buf + 4) (prefixSize (mem (buf + 3))))) t' := by
  have hmin : ¬len < fecElmPrefixMinLen := by
    rw [fecElmPrefixMinLen]
    omega
  have hknown : ¬(UInt16.ofNat (num mem (buf + 1) 2) ≠ afIpv4 ∧
      UInt16.ofNat (num mem (buf + 1) 2) ≠ afIpv6) := by
    rcases haf with h | h <;> simp [h]
  have hfits : ¬len < 4 + prefixSize (mem (buf + 3)) := by omega
  have hwild : mapTypeByte .prefixElm ≠ mapTypeByte .wildcard := by decide
  simp only [tlvDecodeFecElm, decodePrefix, EStateM.run_bind, run_touch, htype, if_neg hwild,
    if_neg hmin, if_neg hknown, if_neg hfits, EStateM.run_pure, if_true]
  refine ⟨_, ?_, rfl⟩
  rfl

/-! ## MP2MP FECs on the wire -/

def tlvLength (tlv : List UInt8) : Nat := ofBe ((tlv.drop 2).take 2)

/-- The element bytes of an MP2MP FEC: type, family, opaque value, and as much
of the root address as the opaque value, read as a prefix length, asks for. -/
def mp2mpElement (root : InAddr) (ov : UInt8) : List UInt8 :=
  [mapTypeByte .prefixElm] ++ (toBe 2 afIpv4.toNat ++ ([ov] ++
    (toBe 4 root.toNat ++ replicate 28 0).take (prefixSize ov)))

theorem genFecTlv_mp2mp {root : InAddr} : genFecTlv (ldeFec2map (.ipv4 root ov)) =
      tlvHdr tlvTypeFec (4 + prefixSize ov) ++ mp2mpElement root ov := by
  simp only [genFecTlv, ldeFec2map, mp2mpElement, Map.fromPrefix, Map.zero, LdpdAddr.ofV4,
    append_assoc]
  rfl

theorem length_mp2mpElement (root : InAddr) (ov : UInt8) :
    (mp2mpElement root ov).length = 4 + prefixSize ov := by
  have := prefixSize_le ov
  simp [mp2mpElement]
  omega

theorem tlvLength_tlvHdr {type length : Nat} (h : length < 65536) (l : List UInt8) :
    tlvLength (tlvHdr type length ++ l) = length := by
  have hfield : ((tlvHdr type length ++ l).drop 2).take 2 = toBe 2 length := by
    simp [tlvHdr]
  rw [tlvLength, hfield, ofBe_toBe]
  omega

/-- Memory that holds the element, field by field. -/
theorem mp2mpElement_at {off : Nat}
    (h : slice mem off (mp2mpElement root ov).length = mp2mpElement root ov) :
    mem off = mapTypeByte .prefixElm ∧ UInt16.ofNat (num mem (off + 1) 2) = afIpv4 ∧
      mem (off + 3) = ov ∧
      slice mem (off + 4) (prefixSize ov) =
        (toBe 4 root.toNat ++ replicate 28 0).take (prefixSize ov) := by
  have hn := prefixSize_le ov
  obtain ⟨htype, h⟩ := slice_append h
  obtain ⟨haf, h⟩ := slice_append h
  obtain ⟨hov, h⟩ := slice_append h
  simp only [List.length_take, length_append, length_toBe, length_replicate,
    Nat.min_eq_left hn] at h
  simp only [length_singleton, length_toBe, slice_one] at htype haf hov
  refine ⟨singleton_inj.mp htype, ?_, singleton_inj.mp hov, h⟩
  rw [num, haf]
  rfl

/-- A decoded root is what the wire carried of it, filled up with zeros. -/
theorem ldeMap2fec_setPrefix {map : Map} {bytes : List UInt8} {lsrId : InAddr} :
    ldeMap2fec (setPrefix map afIpv4 ov bytes) lsrId =
      .ipv4 (.ofNat (ofBe (bytes.take 4 ++ replicate (4 - bytes.length) 0))) ov := by
  have hzero : (replicate 16 (0 : UInt8) ++ (Map.fromPrefix
      { map with
        type := .prefixElm
        fec := { map.fec with half := afIpv4, prefixlen := ov } }).drop 16).take 4 =
      replicate 4 0 := by
    rw [take_append_of_le_length (by simp), take_replicate]
    rfl
  have hne : afIpv4 ≠ afIpv6 := by decide
  simp only [ldeMap2fec, setPrefix, Map.copyPrefix, LdpdAddr.v4, take_overwrite, hzero,
    drop_replicate, if_neg hne]

theorem ofBe_take_eq_iff {x : UInt32} {n : Nat} :
    UInt32.ofNat (ofBe ((toBe 4 x.toNat).take n ++ replicate (4 - n) 0)) = x ↔
      ∀ b ∈ (toBe 4 x.toNat).drop n, b = 0 := by
  set B := toBe 4 x.toNat with hB
  have hlen : B.length = 4 := length_toBe ..
  have hx := x.toNat_lt
  have hofB : ofBe B = x.toNat := by
    rw [hB, ofBe_toBe]
    omega
  have cut : (B.take n ++ replicate (4 - n) 0).length = 4 := by
    simp [hlen]
    omega
  have small : ofBe (B.take n ++ replicate (4 - n) 0) < 2 ^ 32 := by
    have := ofBe_lt (B.take n ++ replicate (4 - n) 0)
    rw [cut] at this
    exact this
  constructor
  · intro h
    have hnum : ofBe (B.take n ++ replicate (4 - n) 0) = ofBe B := by
      rw [hofB, ← h, UInt32.toNat_ofNat', Nat.mod_eq_of_lt small]
    have heq := eq_of_ofBe_eq (cut.trans hlen.symm) hnum
    have htail : replicate (4 - n) 0 = B.drop n := by
      nth_rewrite 2 [← take_append_drop n B] at heq
      exact append_cancel_left heq
    intro b hb
    rw [← htail] at hb
    exact (mem_replicate.mp hb).2
  · intro h
    have htail : B.drop n = replicate (4 - n) 0 := by
      rw [eq_replicate_iff]
      exact ⟨by simp [hlen], h⟩
    rw [← htail, take_append_drop, hofB, UInt32.ofNat_toNat]

/-- What the receiver makes of an encoded MP2MP FEC. -/
theorem decode_mp2mp {buf : Nat}
    (h : slice mem buf (genFecTlv (ldeFec2map (.ipv4 root ov))).length =
      genFecTlv (ldeFec2map (.ipv4 root ov)))
    (fuel : Nat) (msg : LdpMsg) (map : Map) (lsrId : InAddr) (t : Trace) :
    ∃ map' t',
      (tlvDecodeFecElm mem fuel msg (buf + tlvHdrSize)
        (tlvLength (genFecTlv (ldeFec2map (.ipv4 root ov)))) map).run t =
        .ok ((genFecTlv (ldeFec2map (.ipv4 root ov))).length - tlvHdrSize, map') t' ∧
      ldeMap2fec map' lsrId =
        .ipv4 (.ofNat (ofBe ((toBe 4 root.toNat).take (prefixSize ov) ++
          replicate (4 - prefixSize ov) 0))) ov := by
  have hn := prefixSize_le ov
  have hhdr : (tlvHdr tlvTypeFec (4 + prefixSize ov)).length = tlvHdrSize := by
    simp [tlvHdr, tlvHdrSize]
  rw [genFecTlv_mp2mp] at h ⊢
  obtain ⟨htype, haf, hov, hbytes⟩ := mp2mpElement_at (slice_append h).2
  rw [hhdr] at htype haf hov hbytes
  have hfits : 4 + prefixSize (mem (buf + tlvHdrSize + 3)) ≤ 4 + prefixSize ov := by rw [hov]
  obtain ⟨t', -, hrun⟩ := run_prefixElm fuel msg map t htype (.inl haf) hfits
  rw [hov, haf, hbytes] at hrun
  rw [tlvLength_tlvHdr (by omega), length_append, hhdr, length_mp2mpElement,
    Nat.add_sub_cancel_left]
  refine ⟨_, t', hrun, ?_⟩
  have hcut : ((toBe 4 root.toNat ++ replicate 28 0).take (prefixSize ov)).take 4 =
      (toBe 4 root.toNat).take (prefixSize ov) := by
    rw [take_take, Nat.min_comm, ← take_take, take_left' (length_toBe ..)]
  rw [ldeMap2fec_setPrefix, hcut, List.length_take, length_append, length_toBe,
    length_replicate, Nat.min_eq_left hn]

/-- The FEC of the LSP `(root, ov)`, encoded and decoded again, is the same, and the decoder takes
exactly the bytes written. -/
def Survives (root : InAddr) (ov : UInt8) : Prop :=
  let tlv := genFecTlv (ldeFec2map (.ipv4 root ov))
  ∀ (mem : Mem) (buf fuel : Nat) (msg : LdpMsg) (map : Map) (lsrId : InAddr) (t : Trace),
    slice mem buf tlv.length = tlv →
    ∃ map' t',
      (tlvDecodeFecElm mem fuel msg (buf + tlvHdrSize) (tlvLength tlv) map).run t =
        .ok (tlv.length - tlvHdrSize, map') t' ∧
      ldeMap2fec map' lsrId = .ipv4 root ov

/-- The wire carries an MP2MP FEC unchanged exactly if the bytes of the root
address that the opaque value, taken for a prefix length, cuts off are zero. -/
theorem survives_iff (root : InAddr) (ov : UInt8) :
    Survives root ov ↔ ∀ b ∈ (toBe 4 root.toNat).drop (prefixSize ov), b = 0 := by
  rw [← ofBe_take_eq_iff]
  constructor
  · intro h
    -- any memory will do: take one that holds just the TLV
    set tlv := genFecTlv (ldeFec2map (.ipv4 root ov)) with htlv
    have held : slice (Mem.ofList tlv) 0 tlv.length = tlv := slice_ofList tlv
    obtain ⟨map₁, t₁, hrun₁, hfec₁⟩ := h _ 0 0 ⟨0, 0⟩ .zero 0 .empty held
    obtain ⟨map₂, t₂, hrun₂, hfec₂⟩ := decode_mp2mp held 0 ⟨0, 0⟩ .zero 0 .empty
    rw [← htlv, hrun₁] at hrun₂
    have hsame : map₁ = map₂ := by
      injection hrun₂ with hpair
      exact (Prod.mk.inj hpair).2
    rw [← hsame, hfec₁] at hfec₂
    exact (Fec.ipv4.inj hfec₂).1.symm
  · intro h mem buf fuel msg map lsrId t held
    obtain ⟨map', t', hrun, hfec⟩ := decode_mp2mp held fuel msg map lsrId t
    rw [h] at hfec
    exact ⟨map', t', hrun, hfec⟩

/-- The FEC a receiver reads from a FEC TLV, if it accepts it. -/
def receivedFec (tlv : List UInt8) : Option Fec :=
  match (tlvDecodeFecElm (Mem.ofList tlv) 0 ⟨0, 0⟩ tlvHdrSize (tlvLength tlv) .zero).run .empty with
  | .ok (_, map) _ => some (ldeMap2fec map 0)
  | .error _ _ => none

/-- The root 10.1.2.3 with the opaque value 8 comes back as 10.0.0.0. -/
theorem receivedFec_truncated :
    receivedFec (genFecTlv (ldeFec2map (.ipv4 0x0a010203 8))) = some (.ipv4 0x0a000000 8) ∧
      ¬Survives 0x0a010203 8 := by
  have received : receivedFec (genFecTlv (ldeFec2map (.ipv4 0x0a010203 8))) =
      some (.ipv4 0x0a000000 8) := by decide
  refine ⟨received, fun h => ?_⟩
  obtain ⟨map', t', hrun, hfec⟩ := h _ 0 0 ⟨0, 0⟩ .zero 0 .empty (slice_ofList _)
  rw [Nat.zero_add] at hrun
  simp only [receivedFec, hrun, hfec] at received
  exact absurd received (by decide)

end Mp2mp.Ldpe
