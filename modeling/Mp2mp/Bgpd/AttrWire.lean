import Mp2mp.Bgpd.Route
import Mp2mp.Bgpd.AsPathCanonical

/-!
# Path attributes in update messages

`bgp_packet_attribute` of `bgp_attr.c` writes the attributes of a path, and the loop of
`bgp_attr_parse` walks from one attribute header to the next.

* `attrWalk_bytes`: the walk over attributes with right length fields finds just these.
* `bgpPacketAttribute_wrote`: the bytes written are those of a list of attributes.
* `encodesWell_iff`: the length fields are right unless the AS path has a segment of more
  than two pieces, or a cluster list that is reflected does not fit a length of one byte.
* `packetLeaves_iff`: when the path of the route itself loses its confederation segments.
-/

namespace Mp2mp.Bgpd

open Kit Lib List Stream.Writes

variable {value : List UInt8} {segs : List Segment} {rounds : Nat} {use32bit : Bool}

/-! ## Attributes on the wire -/

/-- `BGP_ATTR_FLAG_OPTIONAL` -/
def flagOptional : UInt8 := 0x80
/-- `BGP_ATTR_FLAG_TRANS` -/
def flagTrans : UInt8 := 0x40
/-- `BGP_ATTR_FLAG_PARTIAL` -/
def flagPartial : UInt8 := 0x20
/-- `BGP_ATTR_FLAG_EXTLEN` -/
def flagExtlen : UInt8 := 0x10

/-- The type codes `BGP_ATTR_ORIGIN` to `BGP_ATTR_ENCAP`. -/
inductive AttrType
  | origin
  | asPath
  | nextHop
  | multiExitDisc
  | localPref
  | atomicAggregate
  | aggregator
  | communities
  | originatorId
  | clusterList
  | mpReachNlri
  | mpUnreachNlri
  | extCommunities
  | as4Path
  | as4Aggregator
  | encap
deriving DecidableEq, Repr

def AttrType.code : AttrType → UInt8
  | origin => 1
  | asPath => 2
  | nextHop => 3
  | multiExitDisc => 4
  | localPref => 5
  | atomicAggregate => 6
  | aggregator => 7
  | communities => 8
  | originatorId => 9
  | clusterList => 10
  | mpReachNlri => 14
  | mpUnreachNlri => 15
  | extCommunities => 16
  | as4Path => 17
  | as4Aggregator => 18
  | encap => 23

/-- An attribute as it is laid out in a message. -/
structure PathAttribute where
  flags : UInt8
  type : UInt8
  lengthField : List UInt8
  value : List UInt8
deriving DecidableEq

open PathAttribute

namespace PathAttribute

def bytes (a : PathAttribute) : List UInt8 := a.flags :: a.type :: (a.lengthField ++ a.value)

/-- The size of the length field, by the flags. -/
def fieldSize (flags : UInt8) : Nat := if flags &&& flagExtlen != 0 then 2 else 1

/-- The length field has the size that the flags announce and gives the length of the value. -/
def Whole (a : PathAttribute) : Prop :=
  a.lengthField.length = fieldSize a.flags ∧ ofBe a.lengthField = a.value.length

end PathAttribute

/-- The walk of `bgp_attr_parse` from header to header, with the attributes it delimits.
Every round takes at least one byte. -/
def attrWalkFrom : Nat → List UInt8 → Option (List PathAttribute)
  | _, [] => some []
  | 0, _ => none
  | rounds + 1, r =>
    match r with
    | flags :: type :: rest =>
      -- the remaining length is at least that of a header
      if rest.length < PathAttribute.fieldSize flags then none
      else
        let lengthField := rest.take (PathAttribute.fieldSize flags)
        let rest := rest.drop (PathAttribute.fieldSize flags)
        let length := ofBe lengthField
        if rest.length < length then none
        else do
          let attrs ← attrWalkFrom rounds (rest.drop length)
          some (⟨flags, type, lengthField, rest.take length⟩ :: attrs)
    | _ => none

/-- The header walk of `bgp_attr_parse` -/
def attrWalk (r : List UInt8) : Option (List PathAttribute) := attrWalkFrom r.length r

variable {attrs : List PathAttribute}

theorem attrWalkFrom_bytes (whole : ∀ a ∈ attrs, a.Whole)
    (enough : (attrs.flatMap bytes).length ≤ rounds) :
    attrWalkFrom rounds (attrs.flatMap bytes) = some attrs := by
  induction attrs generalizing rounds with
  | nil => cases rounds <;> rfl
  | cons a attrs ih =>
    obtain ⟨size, length⟩ := whole a (by simp)
    cases rounds with
    | zero => simp [bytes] at enough
    | succ rounds =>
      have left : (attrs.flatMap bytes).length ≤ rounds := by
        simp only [flatMap_cons, bytes, length_append, length_cons] at enough ⊢
        omega
      have next := ih (fun b hb => whole b (by simp [hb])) left
      rw [flatMap_cons, bytes]
      simp only [cons_append, attrWalkFrom, append_assoc]
      rw [if_neg (by simp only [length_append]; omega), ← size, take_left,
        drop_left, length, if_neg (by simp only [length_append]; omega),
        take_left, drop_left, next]
      rfl

/-- The walk finds the attributes that were written, if their length fields are right. -/
theorem attrWalk_bytes (whole : ∀ a ∈ attrs, a.Whole) :
    attrWalk (attrs.flatMap bytes) = some attrs :=
  attrWalkFrom_bytes whole le_rfl

theorem attrWalkFrom_whole {r : List UInt8}
    (h : attrWalkFrom rounds r = some attrs) : ∀ a ∈ attrs, a.Whole := by
  fun_induction attrWalkFrom rounds r generalizing attrs with
  | case1 =>
    cases h
    exact nofun
  | case5 rounds flags type rest header lengthField value length fits =>
    rename_i ih
    obtain ⟨others, walk, same⟩ := Option.bind_eq_some_iff.mp h
    obtain rfl := Option.some.inj same
    refine forall_mem_cons.mpr ⟨⟨?_, ?_⟩, ih walk⟩
    · exact length_take_of_le (by omega)
    · exact (length_take_of_le (Nat.le_of_not_lt fits)).symm
  | _ => cases h

/-! ## Attribute sets -/

/-- What `bgp_attr_unknown` does with an attribute: one that is not optional is an error, a
transitive one is kept, as partial. -/
def bgpAttrUnknown (transit : List PathAttribute) (a : PathAttribute) :
    Option (List PathAttribute) :=
  if a.flags &&& flagOptional = 0 then none
  else if a.flags &&& flagTrans = 0 then some transit
  else some (transit ++ [{ a with flags := a.flags ||| flagPartial }])

theorem bgpAttrUnknown_whole {transit transit' : List PathAttribute} {a : PathAttribute}
    (kept : ∀ b ∈ transit, b.Whole) (whole : a.Whole)
    (h : bgpAttrUnknown transit a = some transit') : ∀ b ∈ transit', b.Whole := by
  have sameBit : (a.flags ||| flagPartial) &&& flagExtlen = a.flags &&& flagExtlen := by
    apply UInt8.eq_of_toBitVec_eq
    ext i hi
    simp only [UInt8.toBitVec_and, UInt8.toBitVec_or, BitVec.getElem_and, BitVec.getElem_or]
    interval_cases i <;> simp [flagPartial, flagExtlen]
  rw [bgpAttrUnknown] at h
  split_ifs at h
  · cases h
    exact kept
  · cases h
    refine forall_mem_append.mpr ⟨kept, ?_⟩
    rw [forall_mem_singleton, PathAttribute.Whole, fieldSize] at *
    simp only [sameBit]
    exact whole

/-- What a router keeps of the attributes it does not know, the next one reads as it was
written. -/
theorem transit_forwarded {r : List UInt8} {transit : List PathAttribute} (unknown : UInt8 → Bool)
    (walk : attrWalk r = some attrs)
    (kept : (attrs.filter fun a => unknown a.type).foldlM bgpAttrUnknown [] = some transit) :
    attrWalk (transit.flatMap bytes) = some transit := by
  apply attrWalk_bytes
  have whole : ∀ a ∈ attrs.filter fun a => unknown a.type, a.Whole :=
    fun a ha => attrWalkFrom_whole walk a (mem_filter.mp ha).1
  generalize attrs.filter (fun a => unknown a.type) = todo at kept whole
  have start : ∀ a ∈ ([] : List PathAttribute), a.Whole := nofun
  generalize ([] : List PathAttribute) = done at kept start
  induction todo generalizing done with
  | nil =>
    cases kept
    exact start
  | cons a todo ih =>
    obtain ⟨next, first, rest⟩ := Option.bind_eq_some_iff.mp kept
    obtain ⟨here, later⟩ := forall_mem_cons.mp whole
    exact ih later next rest (bgpAttrUnknown_whole start here first)

theorem unknown99_forwarded : ∃ transit ≠ [], attrWalk (transit.flatMap bytes) = some transit :=
  ⟨_, cons_ne_nil _ _, transit_forwarded (r := [0xc0, 99, 2, 5, 6]) (fun _ => true) rfl rfl⟩

/-- `struct attr` with its extra part.  The sizes are those of values received in attributes,
whose length is a 16-bit number. -/
structure AttrSet where
  origin : UInt8
  aspath : List Segment
  /-- `ATTR_FLAG_BIT (BGP_ATTR_NEXT_HOP)` -/
  nexthopFlag : Bool
  nexthop : Nat
  med : Option Nat
  localPref : Nat
  atomicAggregate : Bool
  aggregator : Option (As × Nat)
  community : Option (List Nat)
  originatorId : Option Nat
  cluster : Option (List Nat)
  ecommunity : Option (List Nat)
  encapTunneltype : Nat
  encapSubtlvs : List (UInt8 × List UInt8)
  transit : List PathAttribute
  mpNexthopLen : UInt8
  mpNexthopGlobalIn : Nat
  mpNexthopGlobal : Nat
  mpNexthopLocal : Nat
  normal : Normal aspath
  aspath_fits : (aspath.flatMap Segment.as).length + 2 < 65536
  community_fits : ∀ c ∈ community, c.length * 4 < 65536
  ecommunity_fits : ∀ c ∈ ecommunity, c.length * 8 < 65536
  transit_whole : ∀ a ∈ transit, a.Whole

/-! ## Writing -/

/-- `afi_t` -/
inductive Afi
  | ip
  | ip6
deriving DecidableEq, Repr

/-- `safi_t` -/
inductive Safi
  | unicast
  | multicast
  | mplsVpn
  | encap
deriving DecidableEq, Repr

def Afi.code : Afi → Nat
  | ip => 1
  | ip6 => 2

/-- The code on the wire; that of VPN routes is `SAFI_MPLS_LABELED_VPN`. -/
def Safi.code : Safi → UInt8
  | unicast => 1
  | multicast => 2
  | mplsVpn => 128
  | encap => 7

/-- A prefix, with the route distinguisher and the tag of a VPN route. -/
structure Nlri where
  prefixlen : UInt8
  addr : List UInt8
  prd : List UInt8
  tag : List UInt8
  psize : addr.length = (prefixlen.toNat + 7) / 8
  prd_size : prd.length = 8
  tag_size : tag.length = 3

/-- What of `struct bgp` is written in attributes. -/
structure AttrBgp where
  confedId : Option As
  clusterId : Option Nat
  routerId : Nat

/-- `struct peer`, with its flags for the address family. -/
structure AttrPeer where
  sort : PeerSort
  /-- `PEER_CAP_AS4_RCV` -/
  use32bit : Bool
  asPathUnchanged : Bool
  rserverClient : Bool
  sendCommunity : Bool
  sendExtCommunity : Bool
  localAs : As
  changeLocalAs : As
  localAsReplaceAs : Bool

/-- The peer a path was received from. -/
structure AttrFrom where
  sort : PeerSort
  remoteId : Nat

/-- A write of one attribute, or of the unknown ones. -/
inductive AttrPut
  /-- A value of a fixed size. -/
  | fixed (flags : UInt8) (type : AttrType) (length : UInt8) (value : List UInt8)
  /-- A list, with a length field of one or two bytes. -/
  | sized (flags : UInt8) (type : AttrType) (length : Nat) (value : List UInt8)
  | aspath (flags : UInt8) (type : AttrType) (segs : List Segment) (use32bit : Bool)
  | mpReach (value : List UInt8)
  | transit (attrs : List PathAttribute)

open AttrPut

def AttrPut.put (s : Stream) : AttrPut → Option Stream
  | fixed flags type length value => do
      let s ← s.putc flags
      let s ← s.putc type.code
      let s ← s.putc length
      s.put value
  | sized flags type length value =>
    if length > 255 then do
      let s ← s.putc (flags ||| flagExtlen)
      let s ← s.putc type.code
      let s ← s.putw length
      s.put value
    else do
      let s ← s.putc flags
      let s ← s.putc type.code
      let s ← s.putc (UInt8.ofNat length)
      s.put value
  | aspath flags type segs use32bit => do
      let s ← s.putc (flags ||| flagExtlen)
      let s ← s.putc type.code
      let sizep := s.endp
      let s ← s.putw 0
      let (s, size) ← aspathPut s segs use32bit
      s.putwAt sizep size
  | mpReach value => do
      let s ← s.putc (flagOptional ||| flagExtlen)
      let s ← s.putc AttrType.mpReachNlri.code
      let sizep := s.endp
      let s ← s.putw 0
      let s ← s.put value
      s.putwAt sizep (s.endp - sizep - 2)
  | transit attrs => s.put (attrs.flatMap PathAttribute.bytes)

/-- The next hop that `bgp_packet_mpattr_start` writes. -/
def mpNexthop (attr : AttrSet) : Afi → Safi → List UInt8
  | .ip, .multicast => 4 :: toBe 4 attr.nexthop
  | .ip, .mplsVpn => 12 :: (toBe 4 0 ++ toBe 4 0 ++ toBe 4 attr.mpNexthopGlobalIn)
  | .ip, .encap => 4 :: toBe 4 attr.mpNexthopGlobalIn
  | .ip, .unicast => []
  | .ip6, .unicast | .ip6, .multicast =>
    attr.mpNexthopLen :: (toBe 16 attr.mpNexthopGlobal ++
      if attr.mpNexthopLen = 32 then toBe 16 attr.mpNexthopLocal else [])
  | .ip6, .mplsVpn =>
    if attr.mpNexthopLen = 16 then 24 :: (toBe 4 0 ++ toBe 4 0 ++ toBe 16 attr.mpNexthopGlobal)
    else if attr.mpNexthopLen = 32 then
      48 :: (toBe 4 0 ++ toBe 4 0 ++ toBe 16 attr.mpNexthopGlobal ++
        toBe 4 0 ++ toBe 4 0 ++ toBe 16 attr.mpNexthopLocal)
    else []
  | .ip6, .encap => 16 :: toBe 16 attr.mpNexthopGlobal

/-- `bgp_packet_mpattr_prefix` -/
def mpattrNlri (safi : Safi) (p : Nlri) : List UInt8 :=
  if safi = .mplsVpn then (p.prefixlen + 88) :: (p.tag ++ p.prd ++ p.addr)
  else p.prefixlen :: p.addr

/-- The value of `MP_REACH_NLRI`; a zero stands for the number of SNPAs. -/
def mpattrValue (attr : AttrSet) (afi : Afi) (safi : Safi) (p : Nlri) : List UInt8 :=
  toBe 2 afi.code ++ [safi.code] ++ mpNexthop attr afi safi ++ [0] ++ mpattrNlri safi p

/-- The path that is sent: the own ASN is put in front for external and confederation peers. -/
def packetAspath (bgp : AttrBgp) (peer : AttrPeer) (attr : AttrSet) : Option (List Segment) :=
  if peer.sort = .ebgp ∧ (¬ peer.asPathUnchanged ∨ attr.aspath = []) ∧ ¬ peer.rserverClient then
    match bgp.confedId with
    | some confedId => aspathAddSeqN (aspathDeleteConfedSeq attr.aspath) confedId 1
    | none =>
      if peer.changeLocalAs ≠ 0 then
        if peer.localAsReplaceAs then aspathAddSeqN attr.aspath peer.changeLocalAs 1
        else do
          let aspath ← aspathAddSeqN attr.aspath peer.localAs 1
          aspathAddSeqN aspath peer.changeLocalAs 1
      else aspathAddSeqN attr.aspath peer.localAs 1
  else if peer.sort = .confed then aspathAddConfedSeq attr.aspath peer.localAs
  else some attr.aspath

def aspathHasAs4 (aspath : List Segment) : Bool := aspath.any fun seg => seg.as.any (bgpAsMax < ·)

section

variable (bgp : AttrBgp) (peer : AttrPeer) (attr : AttrSet) (p : Option Nlri) (afi : Afi)
  (safi : Safi) (src : Option AttrFrom) (aspath : List Segment)

def mpReachPuts : List AttrPut :=
  match p with
  | some p => if afi = .ip ∧ safi = .unicast then [] else [.mpReach (mpattrValue attr afi safi p)]
  | none => []

def nexthopPuts : List AttrPut :=
  if attr.nexthopFlag ∧ afi = .ip ∧ safi = .unicast then
    [.fixed flagTrans .nextHop 4 (toBe 4 attr.nexthop)] else []

def medPuts : List AttrPut :=
  match attr.med with
  | some med => [.fixed flagOptional .multiExitDisc 4 (toBe 4 med)]
  | none => []

def localPrefPuts : List AttrPut :=
  if peer.sort = .ibgp ∨ peer.sort = .confed then
    [.fixed flagTrans .localPref 4 (toBe 4 attr.localPref)] else []

def atomicAggregatePuts : List AttrPut :=
  if attr.atomicAggregate then [.fixed flagTrans .atomicAggregate 0 []] else []

def aggregatorPuts : List AttrPut :=
  match attr.aggregator with
  | some (as, addr) =>
    if peer.use32bit then
      [.fixed (flagOptional ||| flagTrans) .aggregator 8 (toBe 4 as ++ toBe 4 addr)]
    else if as > bgpAsMax then
      [.fixed (flagOptional ||| flagTrans) .aggregator 6 (toBe 2 bgpAsTrans ++ toBe 4 addr)]
    else [.fixed (flagOptional ||| flagTrans) .aggregator 6 (toBe 2 as ++ toBe 4 addr)]
  | none => []

def communityPuts : List AttrPut :=
  match attr.community with
  | some val =>
    if peer.sendCommunity then
      [.sized (flagOptional ||| flagTrans) .communities (val.length * 4) (val.flatMap (toBe 4))]
    else []
  | none => []

/-- The attributes of a route reflector.  The length of the cluster list is a single byte. -/
def reflectorPuts : List AttrPut :=
  match src with
  | some src =>
    if peer.sort = .ibgp ∧ src.sort = .ibgp then
      let own := toBe 4 (bgp.clusterId.getD bgp.routerId)
      [.fixed flagOptional .originatorId 4 (toBe 4 (attr.originatorId.getD src.remoteId)),
        match attr.cluster with
        | some list => .fixed flagOptional .clusterList (UInt8.ofNat (list.length * 4 + 4))
            (own ++ list.flatMap (toBe 4))
        | none => .fixed flagOptional .clusterList 4 own]
    else []
  | none => []

/-- `ECOMMUNITY_FLAG_NON_TRANSITIVE` in the first of the eight bytes. -/
def nonTransitive (ecom : Nat) : Bool := ecom.testBit 62

def ecommunityPuts : List AttrPut :=
  match attr.ecommunity with
  | some val =>
    if peer.sendExtCommunity then
      if peer.sort = .ibgp ∨ peer.sort = .confed then
        [.sized (flagOptional ||| flagTrans) .extCommunities (val.length * 8)
          (val.flatMap (toBe 8))]
      else
        let transitive := val.filter fun ecom => !nonTransitive ecom
        if transitive.length ≠ 0 then
          [.sized (flagOptional ||| flagTrans) .extCommunities (transitive.length * 8)
            (transitive.flatMap (toBe 8))]
        else []
    else []
  | none => []

def as4PathPuts : List AttrPut :=
  if !peer.use32bit && aspathHasAs4 aspath then
    [.aspath (flagTrans ||| flagOptional) .as4Path (aspathDeleteConfedSeq aspath) true] else []

def as4AggregatorPuts : List AttrPut :=
  match attr.aggregator with
  | some (as, addr) =>
    if !peer.use32bit && decide (as > bgpAsMax) then
      [.fixed (flagOptional ||| flagTrans) .as4Aggregator 8 (toBe 4 as ++ toBe 4 addr)]
    else []
  | none => []

/-- `bgp_packet_mpattr_tea` -/
def encapPuts : List AttrPut :=
  if (safi = .encap ∨ safi = .mplsVpn) ∧ attr.encapSubtlvs ≠ [] then
    let attrlenfield := 2 + 2 + (attr.encapSubtlvs.map fun st => 2 + st.2.length).sum
    if attrlenfield > 0xffff then []
    else [.sized (flagTrans ||| flagOptional) .encap attrlenfield
      (toBe 2 attr.encapTunneltype ++ toBe 2 (attrlenfield - 4) ++
        attr.encapSubtlvs.flatMap fun st => st.1 :: UInt8.ofNat st.2.length :: st.2)]
  else []

/-- The attributes in the order of the source. -/
def attrPuts : List AttrPut :=
  mpReachPuts attr p afi safi ++ [.fixed flagTrans .origin 1 [attr.origin]] ++
  [.aspath flagTrans .asPath aspath peer.use32bit] ++ nexthopPuts attr afi safi ++ medPuts attr ++
  localPrefPuts peer attr ++ atomicAggregatePuts attr ++ aggregatorPuts peer attr ++
  communityPuts peer attr ++ reflectorPuts bgp peer attr src ++ ecommunityPuts peer attr ++
  as4PathPuts peer aspath ++ as4AggregatorPuts peer attr ++ encapPuts attr safi ++
  [.transit attr.transit]

/-- `bgp_packet_attribute`, with the size it returns -/
def bgpPacketAttribute (s : Stream) : Option (Stream × Nat) := do
  let cp := s.endp
  let aspath ← packetAspath bgp peer attr
  let s ← (attrPuts bgp peer attr p afi safi src aspath).foldlM AttrPut.put s
  some (s, s.endp - cp)

end

/-! ## What is written -/

/-- The attributes a write leaves on the stream. -/
def AttrPut.attributes : AttrPut → List PathAttribute
  | fixed flags type length value => [⟨flags, type.code, [length], value⟩]
  | sized flags type length value =>
    if length > 255 then [⟨flags ||| flagExtlen, type.code, toBe 2 length, value⟩]
    else [⟨flags, type.code, [UInt8.ofNat length], value⟩]
  | aspath flags type segs use32bit =>
    [⟨flags ||| flagExtlen, type.code, toBe 2 (segs.map (Segment.count use32bit)).sum,
      Bgpd.wire use32bit segs⟩]
  | mpReach value =>
    [⟨flagOptional ||| flagExtlen, AttrType.mpReachNlri.code, toBe 2 value.length, value⟩]
  | transit attrs => attrs

/-- The paths written are in canonical form. -/
def AttrPut.Canonical : AttrPut → Prop
  | aspath _ _ segs _ => Normal segs
  | _ => True

theorem header_writes (flags type : UInt8) (lengthField value : List UInt8) :
    Stream.Writes (fun s => (s.putc flags).bind fun s => (s.putc type).bind fun s =>
      (s.put lengthField).bind fun s => s.put value)
      (bytes ⟨flags, type, lengthField, value⟩) :=
  (put [flags]).bind <| (put [type]).bind <|
    (put lengthField).bind (put value)

/-- A header whose length is filled in after the value has been written. -/
theorem openHeader_writes {flags type : UInt8} {size : Nat} (rest : Nat → Stream → Option Stream)
    (h : ∀ s s₁ : Stream, s.Wrote (toBe 2 0) s₁ → value.length ≤ s₁.writeable →
      ∃ s', rest s.endp s₁ = some s' ∧ s.Wrote (toBe 2 size ++ value) s') :
    Stream.Writes (fun s => (s.putc flags).bind fun s => (s.putc type).bind fun s =>
      (s.putw 0).bind fun s₁ => rest s.endp s₁)
      (bytes ⟨flags, type, toBe 2 size, value⟩) := by
  have body : Stream.Writes (fun s => (s.putw 0).bind fun s₁ => rest s.endp s₁)
      (toBe 2 size ++ value) := by
    intro s room
    rw [length_append, length_toBe] at room
    obtain ⟨s₁, put₁, wrote₁⟩ := Stream.put_wrote (s := s) (show (toBe 2 0).length ≤ _ by
      rw [length_toBe]
      omega)
    obtain ⟨s₂, run, wrote₂⟩ := h s s₁ wrote₁ (by rw [wrote₁.writeable, length_toBe]; omega)
    refine ⟨s₂, ?_, wrote₂⟩
    simp only [Stream.putw, put₁, Option.bind_some, run]
  exact (put [flags]).bind <| (put [type]).bind body

variable {a : AttrPut}

theorem AttrPut.put_writes (canonical : a.Canonical) :
    Stream.Writes (fun s => a.put s) (a.attributes.flatMap bytes) := by
  cases a with
  | fixed flags type length value =>
    rw [attributes, flatMap_singleton]
    exact header_writes flags type.code [length] value
  | sized flags type length value =>
    by_cases long : length > 255
    · simp only [attributes, put, if_pos long, flatMap_singleton]
      exact header_writes (flags ||| flagExtlen) type.code (toBe 2 length) value
    · simp only [attributes, put, if_neg long, flatMap_singleton]
      exact header_writes flags type.code [UInt8.ofNat length] value
  | aspath flags type segs use32bit =>
    rw [attributes, flatMap_singleton]
    refine openHeader_writes (fun sizep s =>
      (aspathPut s segs use32bit).bind fun r => r.1.putwAt sizep r.2) ?_
    intro s s₁ wrote room
    obtain ⟨s₂, run, wrote₂⟩ := aspathPut_spec canonical room
    obtain ⟨s₃, fill, wrote₃⟩ := Stream.putwAt_wrote _ (wrote.trans wrote₂)
    exact ⟨s₃, by simp only [run, Option.bind_some, fill], wrote₃⟩
  | mpReach value =>
    rw [attributes, flatMap_singleton]
    refine openHeader_writes
      (fun sizep s => (s.put value).bind fun s => s.putwAt sizep (s.endp - sizep - 2)) ?_
    intro s s₁ wrote room
    obtain ⟨s₂, run, wrote₂⟩ := Stream.put_wrote room
    obtain ⟨s₃, fill, wrote₃⟩ := Stream.putwAt_wrote value.length (wrote.trans wrote₂)
    have size : s₂.endp - s.endp - 2 = value.length := by
      simp only [Stream.endp, (wrote.trans wrote₂).2, length_append, length_toBe]
      omega
    exact ⟨s₃, by simp only [run, Option.bind_some, size, fill], wrote₃⟩
  | transit attrs => exact Stream.Writes.put _

theorem addAsn_spec (asno : As) (type : SegType) (normal : Normal segs)
    (sequence : type.isSet = false) (fits : (segs.flatMap Segment.as).length + 1 < 65536) :
    ∃ path, aspathAddAsns segs asno type 1 = some path ∧ Normal path ∧
      (path.flatMap Segment.as).length = (segs.flatMap Segment.as).length + 1 := by
  have first : (segs.head?.toList.flatMap Segment.as).length ≤ (segs.flatMap Segment.as).length := by
    cases segs <;> simp
  obtain ⟨path, run, canonical⟩ :=
    addAsns_normal asno type normal sequence one_ne_zero (by omega)
  refine ⟨path, run, canonical, ?_⟩
  have one : (Segment.ofData type (List.replicate 1 asno)).as = [asno] := Segment.ofData_as (by simp)
  cases segs with
  | nil =>
    obtain rfl : [Segment.ofData type (List.replicate 1 asno)] = path := by
      simpa [aspathAddAsns] using run
    rw [flatMap_singleton, one]
    rfl
  | cons seg rest =>
    rw [flatMap_cons, length_append] at fits ⊢
    by_cases same : seg.type = type
    · rw [aspathAddAsns, if_pos same, Option.some.injEq] at run
      have grown : (List.replicate 1 asno ++ seg.as).length = seg.as.length + 1 := by
        rw [length_append, length_replicate, add_comm]
      rw [← run, Segment.prependAsns, if_neg one_ne_zero, if_neg (by decide), flatMap_cons,
        length_append, Segment.ofData_as (by omega), grown]
      omega
    · have nonempty : ¬ seg.length = 0 := by
        simpa [Segment.length] using normal.nonempty seg (by simp)
      rw [aspathAddAsns, if_neg same, if_neg (by decide), if_neg nonempty, Option.some.injEq] at run
      rw [← run, flatMap_cons, flatMap_cons, one]
      simp only [length_append, length_singleton]
      omega

/-- There is a path to send, in canonical form. -/
theorem packetAspath_spec {bgp : AttrBgp} {peer : AttrPeer} {attr : AttrSet} :
    ∃ path, packetAspath bgp peer attr = some path ∧ Normal path := by
  have fits := attr.aspath_fits
  have add : ∀ asno, ∃ path, aspathAddSeqN attr.aspath asno 1 = some path ∧ Normal path ∧
      (path.flatMap Segment.as).length = (attr.aspath.flatMap Segment.as).length + 1 :=
    fun asno => addAsn_spec asno .asSequence attr.normal rfl (by omega)
  rw [packetAspath]
  split
  · split
    · next confedId _ =>
      have suffix := aspathDeleteConfedSeq_suffix attr.aspath
      have shorter := (suffix.flatMap Segment.as).length_le
      obtain ⟨path, run, canonical, _⟩ := addAsn_spec confedId .asSequence
        (attr.normal.of_suffix suffix) rfl (by omega)
      exact ⟨path, run, canonical⟩
    · split
      · split
        · obtain ⟨path, run, canonical, _⟩ := add peer.changeLocalAs
          exact ⟨path, run, canonical⟩
        · obtain ⟨path, run, canonical, length⟩ := add peer.localAs
          obtain ⟨path', run', canonical', _⟩ := addAsn_spec peer.changeLocalAs
            .asSequence canonical rfl (by omega)
          exact ⟨path', by rw [run]; exact run', canonical'⟩
      · obtain ⟨path, run, canonical, _⟩ := add peer.localAs
        exact ⟨path, run, canonical⟩
  · split
    · obtain ⟨path, run, canonical, _⟩ := addAsn_spec peer.localAs .asConfedSequence
        attr.normal rfl (by omega)
      exact ⟨path, run, canonical⟩
    · exact ⟨attr.aspath, rfl, attr.normal⟩

/-! ### The length of a path -/

theorem sum_pairs_le (l : List Nat) : (l.map fun m => m * (m - 1)).sum ≤ l.sum * l.sum := by
  induction l with
  | nil => simp
  | cons m l ih =>
    have first : m * (m - 1) ≤ m * m := Nat.mul_le_mul_left m (Nat.sub_le m 1)
    have square : (m + l.sum) * (m + l.sum) = m * m + 2 * (m * l.sum) + l.sum * l.sum := by ring
    rw [map_cons, sum_cons, sum_cons, square]
    omega

/-- What `aspath_put` counts beyond the bytes it writes. -/
theorem count_excess {seg : Segment} :
    seg.count use32bit = (seg.wire use32bit).length +
      255 * (asValueSize use32bit / 2) * (seg.fullPieces * (seg.fullPieces - 1)) := by
  have pieces : ∀ m, ((List.range m).map fun i => assegmentSize (255 * (i + 1)) use32bit).sum =
      m * assegmentSize 255 use32bit + 255 * (asValueSize use32bit / 2) * (m * (m - 1)) := by
    intro m
    induction m with
    | zero => simp
    | succ m ih =>
      rw [range_succ, map_append, sum_append, ih]
      cases m with
      | zero => cases use32bit <;> rfl
      | succ m =>
        cases use32bit <;>
          simp only [assegmentSize, asValueSize, map_cons, map_nil, sum_cons,
            sum_nil, Nat.add_sub_cancel, if_true, Bool.false_eq_true, if_false] <;>
          ring
  rw [Segment.count, Segment.length_wire, pieces]
  ring

section

variable (use32bit : Bool) (segs : List Segment)

theorem counts_excess : (segs.map (Segment.count use32bit)).sum = (wire use32bit segs).length +
      255 * (asValueSize use32bit / 2) *
        ((segs.map Segment.fullPieces).map fun m => m * (m - 1)).sum := by
  induction segs with
  | nil => simp [wire]
  | cons seg segs ih =>
    rw [wire] at ih ⊢
    rw [map_cons, sum_cons, count_excess, ih, flatMap_cons, length_append,
      map_cons, map_cons, sum_cons]
    ring

theorem fullPieces_le_wire :
    512 * (segs.map Segment.fullPieces).sum ≤ (wire use32bit segs).length := by
  induction segs with
  | nil => simp
  | cons seg segs ih =>
    have piece : 512 ≤ assegmentSize 255 use32bit := by cases use32bit <;> decide
    have first := Nat.mul_le_mul_left seg.fullPieces piece
    rw [wire] at ih ⊢
    rw [map_cons, sum_cons, flatMap_cons, length_append, Segment.length_wire]
    omega

/-- The 16 bits of the count are the number of bytes written just when no segment has more than two
pieces: the error is too small to wrap. -/
theorem counts_field_iff :
    (segs.map (Segment.count use32bit)).sum % 65536 = (wire use32bit segs).length ↔
      (wire use32bit segs).length < 65536 ∧ ∀ seg ∈ segs, seg.length ≤ 510 := by
  have excess := counts_excess use32bit segs
  have pieces := fullPieces_le_wire use32bit segs
  have pairs := sum_pairs_le (segs.map Segment.fullPieces)
  have twoPieces : ∀ seg : Segment, seg.fullPieces * (seg.fullPieces - 1) = 0 ↔ seg.length ≤ 510 := by
    intro seg
    rw [Nat.mul_eq_zero, Segment.fullPieces]
    omega
  constructor
  · intro field
    have short : (wire use32bit segs).length < 65536 := field ▸ Nat.mod_lt _ (by decide)
    refine ⟨short, ?_⟩
    have few : (segs.map Segment.fullPieces).sum ≤ 127 := by omega
    have small := pairs.trans (Nat.mul_le_mul few few)
    have none : ((segs.map Segment.fullPieces).map fun m => m * (m - 1)).sum = 0 := by
      cases use32bit
      · simp only [asValueSize, Bool.false_eq_true, if_false] at excess
        omega
      · simp only [asValueSize, if_true] at excess
        omega
    intro seg hseg
    rw [← twoPieces]
    rw [sum_eq_zero_iff] at none
    exact none _ (by simpa using ⟨seg, hseg, rfl⟩)
  · rintro ⟨short, all⟩
    have none : ((segs.map Segment.fullPieces).map fun m => m * (m - 1)).sum = 0 := by
      rw [sum_eq_zero_iff]
      intro n hn
      simp only [map_map, mem_map, Function.comp_apply] at hn
      obtain ⟨seg, hseg, rfl⟩ := hn
      exact (twoPieces seg).mpr (all seg hseg)
    rw [excess, none, mul_zero, add_zero, Nat.mod_eq_of_lt short]

end

/-! ## Length fields -/

/-- The length fields of what a write leaves are right. -/
def AttrPut.Whole (a : AttrPut) : Prop := ∀ x ∈ a.attributes, x.Whole

def AllWhole (puts : List AttrPut) : Prop := ∀ a ∈ puts, a.Whole

theorem allWhole_nil : AllWhole [] := by simp [AllWhole]

theorem allWhole_cons {puts : List AttrPut} : AllWhole (a :: puts) ↔ a.Whole ∧ AllWhole puts :=
  forall_mem_cons

theorem allWhole_singleton : AllWhole [a] ↔ a.Whole := forall_mem_singleton

theorem allWhole_append {puts puts' : List AttrPut} :
    AllWhole (puts ++ puts') ↔ AllWhole puts ∧ AllWhole puts' :=
  forall_mem_append

theorem ofBe_singleton {b : UInt8} : ofBe [b] = b.toNat := by simp [ofBe]

theorem length_flatMap_toBe {n : Nat} {l : List Nat} : (l.flatMap (toBe n)).length = l.length * n := by
  simp [length_flatMap]

section

variable {flags : UInt8} {type : AttrType}

theorem fixed_whole_iff {length : UInt8} (plain : fieldSize flags = 1) :
    (fixed flags type length value).Whole ↔ length.toNat = value.length := by
  simp [AttrPut.Whole, attributes, PathAttribute.Whole, plain, ofBe_singleton]

theorem sized_whole {length : Nat} (plain : fieldSize flags = 1)
    (wide : fieldSize (flags ||| flagExtlen) = 2) (same : length = value.length)
    (fits : length < 65536) : (sized flags type length value).Whole := by
  by_cases long : length > 255
  · simp only [AttrPut.Whole, attributes, if_pos long, forall_mem_singleton]
    refine ⟨by rw [length_toBe, wide], ?_⟩
    rw [ofBe_toBe, Nat.mod_eq_of_lt (show length < 256 ^ 2 from fits), same]
  · simp only [AttrPut.Whole, attributes, if_neg long, forall_mem_singleton]
    refine ⟨by rw [length_singleton, plain], ?_⟩
    rw [ofBe_singleton, UInt8.toNat_ofNat', Nat.mod_eq_of_lt (by omega), same]

theorem aspath_whole_iff (wide : fieldSize (flags ||| flagExtlen) = 2) :
    (aspath flags type segs use32bit).Whole ↔
      (wire use32bit segs).length < 65536 ∧ ∀ seg ∈ segs, seg.length ≤ 510 := by
  rw [← counts_field_iff, AttrPut.Whole, attributes, forall_mem_singleton,
    PathAttribute.Whole, ofBe_toBe, length_toBe, wide]
  exact and_iff_right rfl

theorem mpReach_whole (fits : value.length < 65536) : (mpReach value).Whole := by
  rw [AttrPut.Whole, attributes, forall_mem_singleton, PathAttribute.Whole, ofBe_toBe, length_toBe]
  exact ⟨show 2 = fieldSize (flagOptional ||| flagExtlen) by decide, Nat.mod_eq_of_lt fits⟩

end

section

variable (bgp : AttrBgp) (peer : AttrPeer) (attr : AttrSet) (p : Option Nlri) (afi : Afi)
  (safi : Safi) (src : Option AttrFrom) (aspath : List Segment)

theorem mpNexthop_le : (mpNexthop attr afi safi).length ≤ 49 := by
  cases afi <;> cases safi <;> simp only [mpNexthop] <;> (try split_ifs) <;> simp

theorem mpReachPuts_whole : AllWhole (mpReachPuts attr p afi safi) := by
  cases p with
  | none => exact allWhole_nil
  | some p =>
    rw [mpReachPuts]
    split
    · exact allWhole_nil
    · rw [allWhole_singleton]
      apply mpReach_whole
      have nexthop := mpNexthop_le attr afi safi
      have nlri : (mpattrNlri safi p).length ≤ 12 + 32 := by
        have := p.psize
        have := p.prefixlen.toNat_lt
        rw [mpattrNlri]
        split
        · simp only [length_cons, length_append, p.tag_size, p.prd_size]
          omega
        · simp only [length_cons]
          omega
      simp only [mpattrValue, length_append, length_toBe, length_singleton]
      omega

theorem nexthopPuts_whole : AllWhole (nexthopPuts attr afi safi) := by
  rw [nexthopPuts]
  split
  · rw [allWhole_singleton, fixed_whole_iff (by decide), length_toBe]
    rfl
  · exact allWhole_nil

theorem medPuts_whole : AllWhole (medPuts attr) := by
  rw [medPuts]
  split
  · rw [allWhole_singleton, fixed_whole_iff (by decide), length_toBe]
    rfl
  · exact allWhole_nil

theorem localPrefPuts_whole : AllWhole (localPrefPuts peer attr) := by
  rw [localPrefPuts]
  split
  · rw [allWhole_singleton, fixed_whole_iff (by decide), length_toBe]
    rfl
  · exact allWhole_nil

theorem atomicAggregatePuts_whole : AllWhole (atomicAggregatePuts attr) := by
  rw [atomicAggregatePuts]
  split
  · rw [allWhole_singleton, fixed_whole_iff (by decide)]
    rfl
  · exact allWhole_nil

theorem aggregatorPuts_whole : AllWhole (aggregatorPuts peer attr) := by
  rw [aggregatorPuts]
  split
  · split_ifs <;>
    · rw [allWhole_singleton, fixed_whole_iff (by decide), length_append, length_toBe, length_toBe]
      rfl
  · exact allWhole_nil

theorem communityPuts_whole : AllWhole (communityPuts peer attr) := by
  rw [communityPuts]
  split
  · next val hval =>
    split
    · rw [allWhole_singleton]
      exact sized_whole (by decide) (by decide) (length_flatMap_toBe).symm
        (attr.community_fits val hval)
    · exact allWhole_nil
  · exact allWhole_nil

theorem ecommunityPuts_whole : AllWhole (ecommunityPuts peer attr) := by
  rw [ecommunityPuts]
  split
  · next val hval =>
    have fits := attr.ecommunity_fits val hval
    have fewer := val.length_filter_le fun ecom => !nonTransitive ecom
    split
    · split
      · rw [allWhole_singleton]
        exact sized_whole (by decide) (by decide) (length_flatMap_toBe).symm fits
      · dsimp only
        split
        · rw [allWhole_singleton]
          exact sized_whole (by decide) (by decide) (length_flatMap_toBe).symm (by omega)
        · exact allWhole_nil
    · exact allWhole_nil
  · exact allWhole_nil

theorem as4AggregatorPuts_whole : AllWhole (as4AggregatorPuts peer attr) := by
  rw [as4AggregatorPuts]
  split
  · split
    · rw [allWhole_singleton, fixed_whole_iff (by decide), length_append, length_toBe, length_toBe]
      rfl
    · exact allWhole_nil
  · exact allWhole_nil

theorem encapPuts_whole : AllWhole (encapPuts attr safi) := by
  rw [encapPuts]
  split
  · dsimp only
    split
    · exact allWhole_nil
    · next fits =>
      rw [allWhole_singleton]
      refine sized_whole (by decide) (by decide) ?_ (by omega)
      simp only [length_append, length_toBe, length_flatMap, length_cons]
      congr 3
      funext st
      omega
  · exact allWhole_nil

theorem reflectorPuts_whole_iff : AllWhole (reflectorPuts bgp peer attr src) ↔
      (peer.sort = .ibgp → ∀ from' ∈ src, from'.sort = .ibgp →
        ∀ list ∈ attr.cluster, list.length ≤ 62) := by
  cases src with
  | none => simp [reflectorPuts, allWhole_nil]
  | some source =>
    rw [reflectorPuts]
    split
    · next reflects =>
      have originator : (fixed flagOptional .originatorId 4
          (toBe 4 (attr.originatorId.getD source.remoteId))).Whole := by
        rw [fixed_whole_iff (by decide), length_toBe]
        rfl
      simp only [allWhole_cons, originator, true_and, allWhole_nil,
        and_true, reflects.1, reflects.2, Option.mem_def, Option.some.injEq,
        forall_eq', true_implies]
      cases cluster : attr.cluster with
      | none =>
        simp only [reduceCtorEq, false_implies, implies_true, iff_true]
        rw [fixed_whole_iff (by decide), length_toBe]
        rfl
      | some list =>
        simp only [Option.some.injEq, forall_eq']
        rw [fixed_whole_iff (by decide), length_append, length_toBe,
          length_flatMap_toBe, UInt8.toNat_ofNat']
        omega
    · next other =>
      refine iff_of_true allWhole_nil ?_
      intro ibgp x hx also
      obtain rfl : source = x := Option.some.inj hx
      exact absurd ⟨ibgp, also⟩ other

/-- What an attribute set has to be for its length fields to be right. -/
structure Encodable : Prop where
  pieces : ∀ seg ∈ aspath, seg.length ≤ 510
  aspathSize : (wire peer.use32bit aspath).length < 65536
  as4PathSize : peer.use32bit = false → aspathHasAs4 aspath = true →
    (wire true (aspathDeleteConfedSeq aspath)).length < 65536
  cluster : peer.sort = .ibgp → ∀ from' ∈ src, from'.sort = .ibgp →
    ∀ list ∈ attr.cluster, list.length ≤ 62

theorem as4PathPuts_whole_iff (pieces : ∀ seg ∈ aspath, seg.length ≤ 510) :
    AllWhole (as4PathPuts peer aspath) ↔
      (peer.use32bit = false → aspathHasAs4 aspath = true →
        (wire true (aspathDeleteConfedSeq aspath)).length < 65536) := by
  have rest : ∀ seg ∈ aspathDeleteConfedSeq aspath, seg.length ≤ 510 :=
    fun seg h => pieces seg ((aspathDeleteConfedSeq_suffix aspath).subset h)
  rw [as4PathPuts]
  split
  · next sent =>
    rw [Bool.and_eq_true, Bool.not_eq_true'] at sent
    rw [allWhole_singleton, aspath_whole_iff (by decide)]
    exact ⟨fun h _ _ => h.1, fun h => ⟨h sent.1 sent.2, rest⟩⟩
  · next unsent =>
    refine iff_of_true allWhole_nil fun old has => absurd ?_ unsent
    rw [old, has]
    rfl

theorem attrPuts_whole_iff : AllWhole (attrPuts bgp peer attr p afi safi src aspath) ↔
      Encodable peer attr src aspath := by
  have origin : (fixed flagTrans .origin 1 [attr.origin]).Whole :=
    (fixed_whole_iff (by decide)).mpr rfl
  have transit : (transit attr.transit).Whole := attr.transit_whole
  simp only [attrPuts, allWhole_append, allWhole_singleton, mpReachPuts_whole, origin,
    nexthopPuts_whole, medPuts_whole, localPrefPuts_whole, atomicAggregatePuts_whole,
    aggregatorPuts_whole, communityPuts_whole, ecommunityPuts_whole, as4AggregatorPuts_whole,
    encapPuts_whole, transit, reflectorPuts_whole_iff, true_and, and_true,
    aspath_whole_iff (show fieldSize (flagTrans ||| flagExtlen) = 2 by decide)]
  constructor
  · rintro ⟨⟨⟨size, pieces⟩, cluster⟩, as4⟩
    exact ⟨pieces, size, (as4PathPuts_whole_iff peer aspath pieces).mp as4, cluster⟩
  · intro h
    exact ⟨⟨⟨h.aspathSize, h.pieces⟩, h.cluster⟩,
      (as4PathPuts_whole_iff peer aspath h.pieces).mpr h.as4PathSize⟩

/-! ## Encoded attributes -/

def writtenAttributes : List PathAttribute :=
  (attrPuts bgp peer attr p afi safi src aspath).flatMap AttrPut.attributes

theorem attrPuts_canonical (normal : Normal aspath) :
    ∀ a ∈ attrPuts bgp peer attr p afi safi src aspath, a.Canonical := by
  have as4Path : ∀ a ∈ as4PathPuts peer aspath, a.Canonical := by
    rw [as4PathPuts]
    split
    · rw [forall_mem_singleton]
      exact normal.of_suffix (aspathDeleteConfedSeq_suffix aspath)
    · simp
  simp only [attrPuts, forall_mem_append, forall_mem_singleton, and_assoc]
  refine ⟨?_, trivial, normal, ?_, ?_, ?_, ?_, ?_, ?_, ?_, ?_, as4Path, ?_, ?_, trivial⟩
  -- no other attribute is a path
  all_goals
    simp only [mpReachPuts, nexthopPuts, medPuts, localPrefPuts, atomicAggregatePuts,
      aggregatorPuts, communityPuts, reflectorPuts, ecommunityPuts, as4AggregatorPuts, encapPuts]
    repeat' split
    all_goals simp [AttrPut.Canonical]

variable {bgp peer attr p afi safi src} {s : Stream}

theorem bgpPacketAttribute_wrote (sent : packetAspath bgp peer attr = some aspath)
    (normal : Normal aspath)
    (room : ((writtenAttributes bgp peer attr p afi safi src aspath).flatMap
      bytes).length ≤ s.writeable) :
    ∃ s', bgpPacketAttribute bgp peer attr p afi safi src s = some (s',
        ((writtenAttributes bgp peer attr p afi safi src aspath).flatMap bytes).length) ∧
      s.Wrote ((writtenAttributes bgp peer attr p afi safi src aspath).flatMap bytes) s' := by
  have canonical := attrPuts_canonical bgp peer attr p afi safi src aspath normal
  rw [writtenAttributes, flatMap_assoc] at room ⊢
  obtain ⟨s', run, wrote⟩ := foldlM (fun a ha => put_writes (canonical a ha)) s room
  refine ⟨s', ?_, wrote⟩
  dsimp only at run
  simp only [bgpPacketAttribute, sent, Option.bind_eq_bind, Option.bind_some, run, wrote.endp_sub]

variable (bgp peer attr p afi safi src)

/-- The bytes written are those of attributes whose length fields are right: the header walk over
them finds these attributes and ends where they end. -/
def EncodesWell (s : Stream) : Prop :=
  ∃ aspath s' size, packetAspath bgp peer attr = some aspath ∧
    bgpPacketAttribute bgp peer attr p afi safi src s = some (s', size) ∧
    s.Wrote ((writtenAttributes bgp peer attr p afi safi src aspath).flatMap PathAttribute.bytes) s' ∧
    (∀ a ∈ writtenAttributes bgp peer attr p afi safi src aspath, a.Whole) ∧
    attrWalk ((writtenAttributes bgp peer attr p afi safi src aspath).flatMap PathAttribute.bytes) =
      some (writtenAttributes bgp peer attr p afi safi src aspath)

variable {bgp peer attr p afi safi src}

theorem writtenAttributes_whole_iff :
    (∀ a ∈ writtenAttributes bgp peer attr p afi safi src aspath, a.Whole) ↔
      Encodable peer attr src aspath := by
  rw [← attrPuts_whole_iff bgp peer attr p afi safi src aspath, AllWhole, writtenAttributes]
  simp only [mem_flatMap, AttrPut.Whole, forall_exists_index, and_imp]
  exact ⟨fun h a ha x hx => h x a ha hx, fun h x a ha hx => h a ha x hx⟩

theorem EncodesWell.encodable (well : EncodesWell bgp peer attr p afi safi src s) :
    ∀ aspath, packetAspath bgp peer attr = some aspath → Encodable peer attr src aspath := by
  obtain ⟨path, s', size, sent, _, _, whole, _⟩ := well
  intro aspath also
  cases sent.symm.trans also
  exact (writtenAttributes_whole_iff path).mp whole

/-- The attributes of a path are well formed on the wire just when no segment of the AS path
has more than two pieces, the AS path fits a length of 16 bits, and a cluster list that is
reflected has at most 62 identifiers. -/
theorem encodesWell_iff (room : ∀ aspath, packetAspath bgp peer attr = some aspath →
      ((writtenAttributes bgp peer attr p afi safi src aspath).flatMap PathAttribute.bytes).length ≤
        s.writeable) :
    EncodesWell bgp peer attr p afi safi src s ↔
      ∀ aspath, packetAspath bgp peer attr = some aspath → Encodable peer attr src aspath := by
  refine ⟨EncodesWell.encodable, fun encodable => ?_⟩
  obtain ⟨aspath, sent, normal⟩ := packetAspath_spec
  obtain ⟨s', run, wrote⟩ := bgpPacketAttribute_wrote aspath sent normal (room aspath sent)
  have whole : ∀ a ∈ writtenAttributes bgp peer attr p afi safi src aspath, a.Whole :=
    (writtenAttributes_whole_iff aspath).mpr (encodable aspath sent)
  exact ⟨aspath, s', _, sent, run, wrote, whole, attrWalk_bytes whole⟩

end

/-- A path of one AS, with the cluster list it was received with. -/
def reflected (cluster : List Nat) : AttrSet where
  origin := 0
  aspath := [.ofData .asSequence [65001]]
  nexthopFlag := true
  nexthop := 0x0a000001
  med := none
  localPref := 100
  atomicAggregate := false
  aggregator := none
  community := some [0xfde90001]
  originatorId := some 0x0a000002
  cluster := some cluster
  ecommunity := none
  encapTunneltype := 0
  encapSubtlvs := []
  transit := []
  mpNexthopLen := 0
  mpNexthopGlobalIn := 0
  mpNexthopGlobal := 0
  mpNexthopLocal := 0
  normal := by decide
  aspath_fits := by decide
  community_fits := by simp
  ecommunity_fits := by simp
  transit_whole := by simp

def internalPeer : AttrPeer where
  sort := .ibgp
  use32bit := true
  asPathUnchanged := false
  rserverClient := false
  sendCommunity := true
  sendExtCommunity := false
  localAs := 65000
  changeLocalAs := 0
  localAsReplaceAs := false

theorem shortCluster_encodesWell :
    EncodesWell ⟨none, none, 0x0a0000ff⟩ internalPeer (reflected [1, 2]) none .ip .unicast
      (some ⟨.ibgp, 0x0a000003⟩) emptyPacket := by
  have path : ∀ aspath, packetAspath ⟨none, none, 0x0a0000ff⟩ internalPeer (reflected [1, 2]) =
      some aspath → [.ofData .asSequence [65001]] = aspath := by
    intro aspath sent
    exact Option.some.inj sent
  refine (encodesWell_iff fun aspath sent => ?_).mpr fun aspath sent => ?_
  · rw [← path aspath sent]
    decide
  · rw [← path aspath sent]
    exact ⟨by decide, by decide, by decide, by simp [reflected]⟩

/-- The list of 63 identifiers has 252 bytes; the own one is put in front, and 256 is not a
length of one byte. -/
theorem longCluster_not_encodesWell :
    ¬ EncodesWell ⟨none, none, 0x0a0000ff⟩ internalPeer (reflected (List.replicate 63 1)) none .ip
      .unicast (some ⟨.ibgp, 0x0a000003⟩) emptyPacket := by
  intro well
  have fits := (well.encodable _ rfl).cluster rfl _ rfl rfl _ rfl
  exact absurd fits (by decide)

/-! ## The path of the routes -/

/-- The attribute set without some leading segments of its path. -/
def AttrSet.unlink (attr : AttrSet) (segs : List Segment) (h : segs <:+ attr.aspath) : AttrSet :=
  { attr with
    aspath := segs
    normal := attr.normal.of_suffix h
    aspath_fits := by
      have := (h.flatMap Segment.as).length_le
      have := attr.aspath_fits
      omega }

/-- What `aspath` may point to: the path of the attribute set itself, or a copy. -/
structure PacketPath where
  attr : AttrSet
  copy : Option (List Segment)

namespace PacketPath

def aspath (o : PacketPath) : List Segment := o.copy.getD o.attr.aspath

/-- `aspath_delete_confed_seq`, which frees segments of the object it is given. -/
def deleteConfedSeq (o : PacketPath) : PacketPath :=
  match o.copy with
  | some copy => { o with copy := some (aspathDeleteConfedSeq copy) }
  | none => { o with attr := o.attr.unlink _ (aspathDeleteConfedSeq_suffix o.attr.aspath) }

end PacketPath

section

variable (bgp : AttrBgp) (peer : AttrPeer) (attr : AttrSet)

/-- The path is sent as it is. -/
def SharesPath : Prop :=
  ¬(peer.sort = .ebgp ∧ (¬peer.asPathUnchanged ∨ attr.aspath = []) ∧ ¬peer.rserverClient) ∧
    peer.sort ≠ .confed

instance : Decidable (SharesPath peer attr) := inferInstanceAs (Decidable (_ ∧ _))

/-- Where `aspath` points to before it is sent. -/
def packetPath : Option PacketPath :=
  if SharesPath peer attr then some ⟨attr, none⟩
  else (packetAspath bgp peer attr).map fun copy => ⟨attr, some copy⟩

/-- The attribute set that `bgp_packet_attribute` leaves. -/
def packetLeaves : Option AttrSet :=
  (packetPath bgp peer attr).map fun o =>
    (if !peer.use32bit && aspathHasAs4 o.aspath then o.deleteConfedSeq else o).attr

end

theorem aspathDeleteConfedSeq_eq_iff :
    aspathDeleteConfedSeq segs = segs ↔ ∀ seg ∈ segs.head?, seg.type ≠ .asConfedSequence := by
  cases segs with
  | nil => simp [aspathDeleteConfedSeq]
  | cons seg rest =>
    rw [aspathDeleteConfedSeq]
    split
    · next other => simpa using other
    · next confed =>
      have shorter := (dropWhile_suffix (l := rest) fun seg => seg.type.isConfed).length_le
      have stripped : (seg :: rest).dropWhile (fun seg => seg.type.isConfed) ≠ seg :: rest := by
        rw [dropWhile_cons_of_pos (by simp [not_not.mp confed, SegType.isConfed])]
        intro same
        simp [same] at shorter
      simpa [stripped] using confed

/-- Sending an update leaves the attribute set of the route as it is, unless its own path, with a
large AS number behind leading confederation segments, goes to a peer without `AS4`. -/
theorem packetLeaves_iff (bgp : AttrBgp) (peer : AttrPeer) (attr : AttrSet) :
    packetLeaves bgp peer attr = some attr ↔
      ¬(SharesPath peer attr ∧ peer.use32bit = false ∧ aspathHasAs4 attr.aspath ∧
        ∃ seg ∈ attr.aspath.head?, seg.type = .asConfedSequence) := by
  rw [packetLeaves, packetPath]
  split
  · next shares =>
    have unlinked : attr.unlink _ (aspathDeleteConfedSeq_suffix attr.aspath) = attr ↔
        aspathDeleteConfedSeq attr.aspath = attr.aspath := by
      constructor
      · exact congrArg AttrSet.aspath
      · intro same
        simp only [AttrSet.unlink, same]
    cases narrow : peer.use32bit <;> cases large : aspathHasAs4 attr.aspath <;>
      simp_all [PacketPath.aspath, PacketPath.deleteConfedSeq, aspathDeleteConfedSeq_eq_iff]
  · next copies =>
    obtain ⟨copy, sent, -⟩ := packetAspath_spec
    rw [sent]
    simp only [copies, false_and, not_false_iff, iff_true, Option.map_some, Option.some.injEq]
    split <;> rfl

/-- A path of the confederation and an AS number of more than 16 bits. -/
def confedPath : AttrSet :=
  { reflected [] with
    aspath := [.ofData .asConfedSequence [65100], .ofData .asSequence [70000]]
    normal := by decide
    aspath_fits := by decide }

theorem confedPath_stripped : packetLeaves ⟨some 65000, none, 0x0a0000ff⟩
    { internalPeer with use32bit := false } confedPath ≠ some confedPath := by
  intro h
  have same := congrArg (Option.map AttrSet.aspath) h
  exact absurd same (by decide)

end Mp2mp.Bgpd
