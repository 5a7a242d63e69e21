import Mp2mp.Kit.Bytes
import Mp2mp.Kit.Table

/-!
# Shared data of `ldpd`

The types of `ldp.h`, `ldpd.h` and `lde.h` that the LDP engine and the label
decision engine exchange: addresses, forwarding equivalence classes (FECs) and
label maps.

Addresses are stored as their value in network byte order, so that the
comparisons `ntohl(a) < ntohl(b)` and `memcmp(a, b)` of the source are the
ordinary orders.  The host is little-endian where a member of `struct fec` is
read through another member of its union (`Fec.ipv4Prefix`, `Fec.ipv4Prefixlen`):
the MP2MP code reads `u.ipv4` of every FEC, whatever its type.
-/

namespace Mp2mp.Ldpd

open Kit

/-! ## Constants -/

def noLabel : UInt32 := 0xffffffff
def mplsLabelIpv4null : UInt32 := 0
def mplsLabelIpv6null : UInt32 := 2
def mplsLabelImplnull : UInt32 := 3
def mplsLabelReservedMax : UInt32 := 15

/-- `F_MAP_REQ_ID`: optional request message id present -/
def fMapReqId : UInt8 := 0x01
/-- `F_MAP_STATUS`: status -/
def fMapStatus : UInt8 := 0x02
/-- `F_MAP_PW_CWORD`: pseudowire control word -/
def fMapPwCword : UInt8 := 0x04
/-- `F_MAP_PW_ID`: pseudowire connection id -/
def fMapPwId : UInt8 := 0x08
/-- `F_MAP_PW_IFMTU`: pseudowire interface parameter -/
def fMapPwIfmtu : UInt8 := 0x10
/-- `F_MAP_PW_STATUS`: pseudowire status -/
def fMapPwStatus : UInt8 := 0x20
def sPwStatus : UInt32 := 0x00000028

/-- `flags & f` as a condition. -/
def hasFlag (flags f : UInt8) : Bool := flags &&& f != 0

/-! ## Addresses -/

/-- Address families, as `AF_INET`/`AF_INET6` and on the wire as `AF_IPV4`/`AF_IPV6`. -/
inductive Af
  | inet
  | inet6
deriving DecidableEq, Repr

/-- `struct in_addr`, as `ntohl(s_addr)`. -/
abbrev InAddr := UInt32

/-- `union ldpd_addr`, and `struct in6_addr`: sixteen bytes as four words. -/
structure LdpdAddr where
  w0 : UInt32
  w1 : UInt32
  w2 : UInt32
  w3 : UInt32
deriving DecidableEq, Repr

/-- The `v4` member of the union. -/
def LdpdAddr.v4 (a : LdpdAddr) : InAddr := a.w0

/-- A union that was cleared before its `v4` member was set. -/
def LdpdAddr.ofV4 (a : InAddr) : LdpdAddr := ⟨a, 0, 0, 0⟩

/-- `memcmp` of two sixteen-byte addresses. -/
def memcmp16 (a b : LdpdAddr) : Ordering :=
  (compare a.w0 b.w0).then <| (compare a.w1 b.w1).then <|
    (compare a.w2 b.w2).then (compare a.w3 b.w3)

def ldpAddrcmp (af : Af) (a b : LdpdAddr) : Ordering :=
  match af with
  | .inet => compare a.v4 b.v4
  | .inet6 => memcmp16 a b

/-! ## Forwarding equivalence classes -/

/-- `enum fec_type`, in declaration order. -/
inductive FecType
  | ipv4
  | ipv6
  | pwid
deriving DecidableEq, Repr

/-- `struct fec`.  For an MP2MP LSP the member `ipv4` holds the root in
`prefix` and the opaque value in `prefixlen`. -/
inductive Fec
  | ipv4 (addr : InAddr) (prefixlen : UInt8)
  | ipv6 (addr : LdpdAddr) (prefixlen : UInt8)
  | pwid (type : UInt16) (pwid : UInt32) (lsrId : InAddr)
deriving DecidableEq, Repr

def Fec.type : Fec → FecType
  | .ipv4 .. => .ipv4
  | .ipv6 .. => .ipv6
  | .pwid .. => .pwid

/-- The bytes of a 32-bit word in reverse order. -/
def bswap32 (x : UInt32) : UInt32 := .ofNat (ofBe (toBe 4 x.toNat).reverse)

theorem bswap32_bswap32 (x : UInt32) : bswap32 (bswap32 x) = x := by
  have hlen : (toBe 4 x.toNat).reverse.length = 4 := by simp
  have hlt : ofBe (toBe 4 x.toNat).reverse < 2 ^ 32 := by
    have := ofBe_lt (toBe 4 x.toNat).reverse
    rwa [hlen] at this
  have hbytes : toBe 4 (bswap32 x).toNat = (toBe 4 x.toNat).reverse := by
    rw [bswap32, UInt32.toNat_ofNat_of_lt' hlt]
    have := toBe_ofBe (toBe 4 x.toNat).reverse
    rwa [hlen] at this
  have hx : x.toNat % 256 ^ 4 = x.toNat := Nat.mod_eq_of_lt x.toNat_lt
  rw [bswap32, hbytes, List.reverse_reverse, ofBe_toBe, hx, UInt32.ofNat_toNat]

/-- `fec->u.ipv4.prefix`: bytes 4 to 7 of the union, whatever the type. -/
def Fec.ipv4Prefix : Fec → InAddr
  | .ipv4 p _ => p
  | .ipv6 p _ => p.w1
  | .pwid _ id _ => bswap32 id

/-- `fec->u.ipv4.prefixlen`: byte 0 of the union, whatever the type. -/
def Fec.ipv4Prefixlen : Fec → UInt8
  | .ipv4 _ l => l
  | .ipv6 p _ => (p.w0 >>> 24).toUInt8
  | .pwid t _ _ => t.toUInt8

/-- `fec->u.pwid.lsr_id`, bytes 8 to 11 of the union, for a FEC that was
cleared before its own member was set. -/
def Fec.pwidLsrId : Fec → InAddr
  | .ipv4 _ _ => 0
  | .ipv6 p _ => p.w2
  | .pwid _ _ id => id

/-- A cleared FEC of the given type whose member `ipv4` was then set. -/
def Fec.ofV4 (type : FecType) (root : InAddr) (ov : UInt8) : Fec :=
  match type with
  | .ipv4 => .ipv4 root ov
  | .ipv6 => .ipv6 ⟨ov.toUInt32 <<< 24, root, 0, 0⟩ 0
  | .pwid => .pwid ov.toUInt16 (bswap32 root) 0

theorem Fec.ofV4_view (type : FecType) (root : InAddr) (ov : UInt8) :
    (ofV4 type root ov).ipv4Prefix = root ∧ (ofV4 type root ov).ipv4Prefixlen = ov := by
  cases type with
  | ipv4 => exact ⟨rfl, rfl⟩
  | ipv6 =>
    refine ⟨rfl, UInt8.toNat_inj.mp ?_⟩
    have hlt := ov.toNat_lt
    simp [ofV4, ipv4Prefixlen, Nat.shiftLeft_eq, Nat.shiftRight_eq_div_pow]
    omega
  | pwid => exact ⟨bswap32_bswap32 root, by simp [ofV4, ipv4Prefixlen]⟩

def fecCompare : Fec → Fec → Ordering
  | .ipv4 p l, .ipv4 p' l' => (compare p p').then (compare l l')
  | .ipv6 p l, .ipv6 p' l' => (memcmp16 p p').then (compare l l')
  | .pwid t i r, .pwid t' i' r' =>
    (compare t t').then <| (compare i i').then (compare r r')
  -- the types differ, and are compared as enumerators
  | .ipv4 .., _ => .lt
  | _, .ipv4 .. => .gt
  | .ipv6 .., _ => .lt
  | _, .ipv6 .. => .gt

/-! ## The order of FECs -/

theorem memcmp16_eq {a b : LdpdAddr} : memcmp16 a b = .eq ↔ a = b := by
  rcases a with ⟨a0, a1, a2, a3⟩
  rcases b with ⟨b0, b1, b2, b3⟩
  simp [memcmp16]

theorem fecCompare_eq {a b : Fec} : fecCompare a b = .eq ↔ a = b := by
  cases a <;> cases b <;> simp [fecCompare, memcmp16_eq]

instance : Std.TransCmp memcmp16 :=
  inferInstanceAs <| Std.TransCmp <|
    compareLex (compareOn LdpdAddr.w0) <| compareLex (compareOn LdpdAddr.w1) <|
      compareLex (compareOn LdpdAddr.w2) (compareOn LdpdAddr.w3)

/-- The enumerator of a FEC's type. -/
def Fec.rank : Fec → Nat
  | .ipv4 .. => 0
  | .ipv6 .. => 1
  | .pwid .. => 2

/-- The leading key words of a FEC, laid out as one sixteen-byte value. -/
def Fec.words : Fec → LdpdAddr
  | .ipv4 p _ => .ofV4 p
  | .ipv6 p _ => p
  | .pwid t i r => ⟨t.toUInt32, i, r, 0⟩

/-- The last key byte of a FEC. -/
def Fec.lastByte : Fec → UInt8
  | .ipv4 _ l => l
  | .ipv6 _ l => l
  | .pwid .. => 0

theorem compare_toUInt32 (a b : UInt16) : compare a.toUInt32 b.toUInt32 = compare a b := by
  simp only [compare, compareOfLessAndEq, UInt32.lt_iff_toNat_lt, UInt16.lt_iff_toNat_lt,
    ← UInt32.toNat_inj, ← UInt16.toNat_inj, UInt16.toNat_toUInt32]

/-- `fec_compare` is the lexicographic order of type, words and last byte. -/
theorem fecCompare_eq_lex : fecCompare = compareLex (compareOn Fec.rank)
      (compareLex (fun a b => memcmp16 a.words b.words) (compareOn Fec.lastByte)) := by
  funext a b
  cases a <;> cases b <;>
    first
    | rfl
    | simp [fecCompare, compareLex, compareOn, Fec.rank, Fec.words, Fec.lastByte, memcmp16,
        LdpdAddr.ofV4, compare_toUInt32]

instance : Std.TransCmp (fun a b : Fec => memcmp16 a.words b.words) where
  eq_swap := (inferInstance : Std.OrientedCmp memcmp16).eq_swap
  isLE_trans := (inferInstance : Std.TransCmp memcmp16).isLE_trans

instance : Std.TransCmp fecCompare := by
  rw [fecCompare_eq_lex]
  infer_instance

instance : Std.LawfulEqCmp fecCompare where
  eq_of_compare := fecCompare_eq.mp

/-! ## Label maps -/

/-- `AF_IPV4`, the address family on the wire -/
def afIpv4 : UInt16 := 1
def afIpv6 : UInt16 := 2

/-- `map.type`; `none` is the value of a cleared map. -/
inductive MapType
  | none
  | wildcard
  | prefixElm
  | pwid
deriving DecidableEq, Repr

/-- The union `map.fec`, as the storage its two members share: `half` is
`prefix.af` and `pwid.type`; `pwid.pwid`, `pwid.group_id` and `pwid.ifmtu` lie
over the address `prefix.prefix`. -/
structure MapFec where
  half : UInt16
  prefixlen : UInt8
  addr : LdpdAddr
deriving DecidableEq, Repr

/-- `map.fec.pwid.pwid` -/
def MapFec.pwid (f : MapFec) : UInt32 := bswap32 f.addr.w0
/-- `map.fec.pwid.group_id` -/
def MapFec.groupId (f : MapFec) : UInt32 := bswap32 f.addr.w1
/-- `map.fec.pwid.ifmtu` -/
def MapFec.ifmtu (f : MapFec) : UInt16 := (bswap32 f.addr.w2).toUInt16

def MapFec.setPwid (f : MapFec) (x : UInt32) : MapFec :=
  { f with addr := { f.addr with w0 := bswap32 x } }
def MapFec.setGroupId (f : MapFec) (x : UInt32) : MapFec :=
  { f with addr := { f.addr with w1 := bswap32 x } }
/-- Only the first two bytes of the third word belong to `ifmtu`. -/
def MapFec.setIfmtu (f : MapFec) (x : UInt16) : MapFec :=
  { f with addr := { f.addr with
      w2 := bswap32 (bswap32 f.addr.w2 &&& (0xffff0000 : UInt32) ||| x.toUInt32) } }

/-- `map.st`, the status of a withdraw; message id and type in network order. -/
structure MapStatus where
  statusCode : UInt32
  msgId : UInt32
  msgType : UInt16
deriving DecidableEq, Repr

structure Map where
  type : MapType
  msgId : UInt32
  fec : MapFec
  st : MapStatus
  label : UInt32
  requestid : UInt32
  pwStatus : UInt32
  flags : UInt8
deriving DecidableEq, Repr

/-- A map cleared by `memset`. -/
def Map.zero : Map :=
  { type := .none, msgId := 0, fec := ⟨0, 0, .ofV4 0⟩, st := ⟨0, 0, 0⟩,
    label := 0, requestid := 0, pwStatus := 0, flags := 0 }

/-- Bytes 12 to 43 of `struct map`: the address, and what the record keeps
after it (`st`, two bytes of padding, `label`; host order is little-endian). -/
def Map.fromPrefix (map : Map) : List UInt8 :=
  toBe 4 map.fec.addr.w0.toNat ++ toBe 4 map.fec.addr.w1.toNat ++
  toBe 4 map.fec.addr.w2.toNat ++ toBe 4 map.fec.addr.w3.toNat ++
  (toBe 4 map.st.statusCode.toNat).reverse ++ toBe 4 map.st.msgId.toNat ++
  toBe 2 map.st.msgType.toNat ++ [0, 0] ++ (toBe 4 map.label.toNat).reverse

/-- Clear `map.fec.prefix.prefix` and copy a byte string to its start.  Beyond
sixteen bytes the copy runs into the fields that follow the address. -/
def Map.copyPrefix (map : Map) (bytes : List UInt8) : Map :=
  let region := overwrite bytes (List.replicate 16 0 ++ map.fromPrefix.drop 16)
  let field (off n : Nat) := (region.drop off).take n
  { map with
    fec := { map.fec with
      addr :=
        { w0 := .ofNat (ofBe (region.take 4))
          w1 := .ofNat (ofBe (field 4 4))
          w2 := .ofNat (ofBe (field 8 4))
          w3 := .ofNat (ofBe (field 12 4)) } }
    st :=
      { statusCode := .ofNat (ofBe (field 16 4).reverse)
        msgId := .ofNat (ofBe (field 20 4))
        msgType := .ofNat (ofBe (field 24 2)) }
    label := .ofNat (ofBe (field 28 4).reverse) }

/-- `struct notify_msg`; message id and type in network order. -/
structure NotifyMsg where
  statusCode : UInt32
  msgId : UInt32
  msgType : UInt16
  pwStatus : UInt32
  fec : Map
  flags : UInt8
deriving DecidableEq, Repr

/-- A notification cleared by `memset`. -/
def NotifyMsg.zero : NotifyMsg :=
  { statusCode := 0, msgId := 0, msgType := 0, pwStatus := 0, fec := .zero, flags := 0 }

/-- `F_NOTIF_PW_STATUS`: pseudowire status tlv present -/
def fNotifPwStatus : UInt8 := 0x01
/-- `F_NOTIF_FEC`: fec tlv present -/
def fNotifFec : UInt8 := 0x02

def ldeFec2map : Fec → Map
  | .ipv4 p l => { Map.zero with type := .prefixElm, fec := ⟨afIpv4, l, .ofV4 p⟩ }
  | .ipv6 p l => { Map.zero with type := .prefixElm, fec := ⟨afIpv6, l, p⟩ }
  | .pwid t id _ =>
    { Map.zero with
      type := .pwid
      fec := ((⟨t, 0, .ofV4 0⟩ : MapFec).setGroupId 0).setPwid id
      flags := fMapPwId }

/-- A prefix map whose address family `lde_map2fec` calls `fatalx` on. -/
def Map.unknownAf (map : Map) : Bool :=
  map.type == .prefixElm && map.fec.half != afIpv4 && map.fec.half != afIpv6

/-- `lde_map2fec`, for a map that is not `unknownAf`.  A map of another type
leaves the cleared FEC, which is `0.0.0.0/0`. -/
def ldeMap2fec (map : Map) (lsrId : InAddr) : Fec :=
  match map.type with
  | .prefixElm =>
    if map.fec.half = afIpv6 then .ipv6 map.fec.addr map.fec.prefixlen
    else .ipv4 map.fec.addr.v4 map.fec.prefixlen
  | .pwid => .pwid map.fec.half map.fec.pwid lsrId
  | .wildcard | .none => .ipv4 0 0

end Mp2mp.Ldpd
