import Mp2mp.Ldpe.Termination

/-!
# Bounds of the label message receiver

`recv_labelmessage` checks the lengths of its TLVs before it looks at their
values, with two gaps.  The loop over the FEC elements is a do-while, so the type
byte of an element is looked at even when the FEC TLV is empty; if the message
ends there, that byte is not part of it.  And the length of a prefix is compared
with the bytes of the TLV but not with the size of an address.

* `InBounds n`: only bytes below offset `n` were looked at, and no counter wrapped.
* `decoding_in_bounds_iff`: which messages, and which elements, are decoded within bounds.
-/

namespace Mp2mp.Ldpe

open Kit Ldpd

variable {msg : LdpMsg} {mem : Mem} {map : Map} {buf len fuel n : Nat} {type : LabelMsgType}
  {nbr : Nbr} {status : UInt32}

/-! ## Staying in bounds -/

/-- Only bytes below offset `n` were looked at, and no counter went below zero. -/
def InBounds (n : Nat) (t : Trace) : Prop := (∀ off ∈ t.reads, off < n) ∧ t.wrapped = false

section

variable {α : Type} {Q : α → Trace → Prop}

/-- Bounds are kept, and `φ` holds of the result. -/
abbrev StaysIn (n : Nat) (x : Parser α) (φ : α → Prop) : Prop :=
  Triple (InBounds n) x (fun r t => φ r ∧ InBounds n t) fun _ => InBounds n

theorem sessionShutdown_inBounds :
    Triple (InBounds n) (sessionShutdown status msg) Q (fun _ => InBounds n) :=
  ⟨fun _ h => h⟩

theorem rejectWith_inBounds : Triple (InBounds n) (rejectWith status msg) Q (fun _ => InBounds n) :=
  ⟨fun _ h => h⟩

theorem checked_inBounds {c : Prop} [Decidable c] {x : Parser α}
    (h : ¬c → Triple (InBounds n) x Q (fun _ => InBounds n)) :
    Triple (InBounds n) (if c then sessionShutdown status msg else x) Q (fun _ => InBounds n) :=
  .ite (fun _ => sessionShutdown_inBounds) h

theorem touch_inBounds {off k : Nat} (hoff : off + k ≤ n) :
    Triple (InBounds n) (touch off k) (fun _ => InBounds n) (fun _ => InBounds n) := by
  refine .modify fun t h => ⟨fun o ho => ?_, h.2⟩
  rcases List.mem_append.mp ho with ho | ho
  · exact h.1 o ho
  · have := (List.mem_range'_1.mp ho).2
    omega

theorem consumed_inBounds {k : Nat} :
    Triple (InBounds n) (consumed k) (fun _ => InBounds n) (fun _ => InBounds n) :=
  .modify fun _ h => h

theorem decr_inBounds {w a b : Nat} (hb : b ≤ a) (ha : a < 2 ^ w) :
    StaysIn n (decr w a b) (· = a - b) := by
  refine ⟨fun t h => ⟨sub_mod_of_le hb ha, h.1, ?_⟩⟩
  simp [h.2, hb]

theorem decrInt_inBounds {a b : Nat} (hb : b ≤ a) : StaysIn n (decrInt a b) (· = a - b) := by
  refine ⟨fun t h => ⟨rfl, h.1, ?_⟩⟩
  simp [h.2, hb]

end

/-! ## FEC elements -/

/-- The length of an address of the family, in bits. -/
def maxPrefixlen (af : UInt16) : Nat := if af = afIpv4 then 32 else 128

/-- The element at `pos` is a prefix element longer than an address of its family. -/
def WidePrefix (mem : Mem) (pos len : Nat) : Prop :=
  PrefixElm mem pos len ∧
    maxPrefixlen (.ofNat (num mem (pos + 1) 2)) < (mem (pos + 3)).toNat

/-- The element decoded takes between one and all of its bytes; a prefix is no
longer than an address of its family. -/
def ElementFits (len r : Nat) (map : Map) : Prop :=
  1 ≤ r ∧ r ≤ len ∧
    (map.type = .prefixElm → map.fec.prefixlen.toNat ≤ maxPrefixlen map.fec.half)

theorem decodeSubTlv_inBounds {pos slen : Nat} {stype : UInt8} (hpos : pos + slen ≤ n) :
    StaysIn n (decodeSubTlv mem msg pos stype slen map) (·.type = map.type) := by
  refine .ite (fun _ => ?_) fun _ => .pure fun t h => ⟨rfl, h⟩
  refine checked_inBounds fun hlen => ?_
  have hfour : slen = 4 := not_not.mp hlen
  refine .bind (touch_inBounds (by rw [subtlvHdrSize]; omega)) fun _ => ?_
  exact .pure fun t h => ⟨rfl, h⟩

theorem decodeSubTlvs_inBounds (buf fuel off pwLen : Nat)
    (map : Map) (hpw : pwLen < 256) (hend : buf + off + pwLen ≤ n) :
    StaysIn n (decodeSubTlvs mem msg buf fuel off pwLen map)
      fun r => r.1 = off + pwLen ∧ r.2.type = map.type := by
  induction fuel generalizing off pwLen map with
  | zero => exact .throw fun _ h => h
  | succ fuel ih =>
    rw [decodeSubTlvs]
    refine .ite (fun hzero => .pure fun t h => ⟨⟨by simp [hzero], rfl⟩, h⟩) fun _ => ?_
    refine checked_inBounds fun hhdr => ?_
    refine .bind (touch_inBounds (by omega)) fun _ => ?_
    refine checked_inBounds fun hlen => ?_
    refine .bind_of (decodeSubTlv_inBounds (by omega)) fun map' htype => ?_
    refine .bind_of (decr_inBounds (not_lt.mp hlen) hpw) fun pwLen' hpw' => ?_
    refine .bind consumed_inBounds fun _ => ?_
    refine .conseq (fun _ h => h) (ih _ pwLen' map' (by omega) (by omega)) (fun r t h => ?_)
      fun _ _ h => h
    exact ⟨⟨by omega, h.1.2.trans htype⟩, h.2⟩

/-- What holds of an element decoded from `len` bytes at `buf`. -/
def Decoded (mem : Mem) (buf len : Nat) (r : Nat × Map) : Prop :=
  1 ≤ r.1 ∧ r.1 ≤ len ∧ (¬WidePrefix mem buf len → ElementFits len r.1 r.2)

theorem decodePrefix_inBounds (htype : mem buf = mapTypeByte .prefixElm) (hend : buf + len ≤ n) :
    StaysIn n (decodePrefix mem msg buf len map) (Decoded mem buf len) := by
  refine checked_inBounds fun hmin => ?_
  rw [fecElmPrefixMinLen] at hmin
  refine .bind (touch_inBounds (by omega)) fun _ => ?_
  refine .ite (fun _ => rejectWith_inBounds) fun haf => ?_
  refine .bind (touch_inBounds (by omega)) fun _ => ?_
  refine checked_inBounds fun hlen => ?_
  refine .bind (touch_inBounds (by omega)) fun _ => .pure fun t h => ⟨?_, h⟩
  have helm : PrefixElm mem buf len := ⟨htype, by tauto, by omega⟩
  refine ⟨by omega, by omega, fun hwide => ⟨by omega, by omega, fun _ => ?_⟩⟩
  exact not_lt.mp fun h => hwide ⟨helm, h⟩

theorem decodePwid_inBounds (hend : buf + len ≤ n) :
    StaysIn n (decodePwid mem fuel msg buf len map) (Decoded mem buf len) := by
  have hbyte := (mem (buf + 3)).toNat_lt
  have fits : ∀ r : Nat × Map, r.1 = len → 8 ≤ len → r.2.type = .pwid → Decoded mem buf len r := by
    intro r hr hmin htype
    refine ⟨by omega, by omega, fun _ => ⟨by omega, by omega, fun h => ?_⟩⟩
    rw [htype] at h
    cases h
  refine checked_inBounds fun hmin => ?_
  rw [fecPwidElmMinLen] at hmin
  refine .bind (touch_inBounds (by omega)) fun _ => ?_
  refine .bind (touch_inBounds (by omega)) fun _ => ?_
  refine checked_inBounds fun hlen => ?_
  rw [fecPwidElmMinLen] at hlen
  refine .bind (touch_inBounds (by omega)) fun _ => ?_
  refine .ite (fun hzero => ?_) fun _ => ?_
  · exact .pure fun t h => ⟨fits _ (by dsimp only; omega) (by omega) rfl, h⟩
  refine checked_inBounds fun hid => ?_
  refine .bind (touch_inBounds (by omega)) fun _ => ?_
  refine .bind_of (decr_inBounds (by omega) hbyte) fun pwLen hpw => ?_
  refine .conseq (fun _ h => h)
    (decodeSubTlvs_inBounds buf fuel 12 pwLen _ (by omega) (by omega)) (fun r t h => ?_)
    fun _ _ h => h
  exact ⟨fits r (by omega) (by omega) h.1.2, h.2⟩

theorem tlvDecodeFecElm_inBounds (hbuf : buf < n) (hend : buf + len ≤ n) :
    StaysIn n (tlvDecodeFecElm mem fuel msg buf len map) (Decoded mem buf len) := by
  refine .bind (touch_inBounds (by omega)) fun _ => ?_
  refine .ite (fun _ => ?_) fun _ => ?_
  · refine .ite (fun hlen => ?_) fun _ => sessionShutdown_inBounds
    rw [fecElmWcardLen] at hlen
    refine .pure fun t h => ⟨⟨by simp, by simp [hlen], fun _ => ⟨by simp, by simp [hlen], ?_⟩⟩, h⟩
    simp
  refine .ite (fun htype => decodePrefix_inBounds htype hend) fun _ => ?_
  exact .ite (fun _ => decodePwid_inBounds hend) fun _ => rejectWith_inBounds

/-! ## Label messages -/

/-- The FEC-element loop keeps its position and its counter in step: together
they make up the message. -/
theorem fecElements_inBounds
    (fuel buf len feclen : Nat) (mh : List Map) (hn : n < 2 ^ 16) (hbuf : buf < n)
    (hlen : buf + len = n) (hfec : feclen ≤ len) :
    StaysIn n (fecElements mem msg type fuel buf len feclen mh) fun r => r.1 + r.2.1 = n := by
  induction fuel generalizing buf len feclen mh with
  | zero => exact .throw fun _ h => h
  | succ fuel ih =>
    rw [fecElements]
    refine .bind_of (tlvDecodeFecElm_inBounds hbuf (by omega)) fun r hdecoded => ?_
    obtain ⟨tlen, map⟩ := r
    obtain ⟨hpos, hle, -⟩ := hdecoded
    dsimp only at hpos hle
    refine .ite (fun _ => rejectWith_inBounds) fun _ => ?_
    refine checked_inBounds fun _ => ?_
    refine checked_inBounds fun _ => ?_
    refine .bind_of (decr_inBounds (by omega) (by omega)) fun len' hlen' => ?_
    refine .bind_of (decrInt_inBounds hle) fun feclen' hfec' => ?_
    refine .bind consumed_inBounds fun _ => ?_
    refine .ite (fun hmore => ih _ len' feclen' _ (by omega) (by omega) (by omega)) fun _ => ?_
    exact .pure fun t h => ⟨by dsimp only; omega, h⟩

theorem tlvDecodeLabel_inBounds (hend : buf + len ≤ n) :
    StaysIn n (tlvDecodeLabel mem msg buf len) (·.1 ≤ len) := by
  refine checked_inBounds fun hlen => ?_
  refine .bind (touch_inBounds (by omega)) fun _ => ?_
  refine .ite (fun _ => rejectWith_inBounds) fun _ => ?_
  refine .ite (fun _ => ?_) fun _ => sessionShutdown_inBounds
  refine checked_inBounds fun _ => ?_
  refine checked_inBounds fun _ => ?_
  exact .pure fun t h => ⟨not_lt.mp hlen, h⟩

theorem mandatoryLabel_inBounds (hn : n < 2 ^ 16) (hlen : buf + len = n) :
    StaysIn n (mandatoryLabel mem msg type buf len) fun r => r.1 + r.2.1 = n := by
  refine .ite (fun _ => ?_) fun _ => .pure fun t h => ⟨hlen, h⟩
  refine .bind_of (tlvDecodeLabel_inBounds (by omega)) fun r hle => ?_
  obtain ⟨lbllen, label⟩ := r
  dsimp only at hle
  refine .bind_of (decr_inBounds hle (by omega)) fun len' hlen' => ?_
  exact .pure fun t h => ⟨by dsimp only; omega, h⟩

theorem optionalTlvs_inBounds
    (fuel buf len : Nat) (opts : Options) (hn : n < 2 ^ 16) (hlen : buf + len = n) :
    Triple (InBounds n) (optionalTlvs mem msg type fuel buf len opts) (fun _ => InBounds n)
      (fun _ => InBounds n) := by
  induction fuel generalizing buf len opts with
  | zero => exact .throw fun _ h => h
  | succ fuel ih =>
    rw [optionalTlvs, tlvHdrSize]
    refine .ite (fun _ => .pure fun _ h => h) fun _ => ?_
    refine checked_inBounds fun hhdr => ?_
    refine .bind (touch_inBounds (by omega)) fun _ => ?_
    refine checked_inBounds fun hfits => ?_
    refine .bind_of (decr_inBounds (by omega) (by omega)) fun len₁ hlen₁ => ?_
    refine .bind (optionalTlv_keeps (fun _ => touch_inBounds (by omega))
      (fun _ => sessionShutdown_inBounds) ?_) fun opts' => ?_
    · exact .ite (fun _ => .modify fun _ h => h) fun _ => .pure fun _ h => h
    refine .bind_of (decr_inBounds (by omega) (by omega)) fun len₂ hlen₂ => ?_
    exact .bind consumed_inBounds fun _ => ih _ len₂ opts' (by omega)

theorem notifyLde_inBounds {opts : Options} (mh : List Map) :
    Triple (InBounds n) (notifyLde nbr msg type opts mh) (fun _ => InBounds n)
      (fun _ => InBounds n) :=
  notifyLde_keeps (fun _ => .modify fun _ h => h) (fun _ => sessionShutdown_inBounds)
    (fun _ h => h) mh

/-- A message of twelve bytes that ends with an empty FEC TLV. -/
def EmptyFecAtEnd (mem : Mem) (len : UInt16) : Prop :=
  len = 12 ∧ num mem ldpMsgSize 2 = tlvTypeFec ∧ num mem (ldpMsgSize + 2) 2 = 0

theorem recvLabelmessage_inBounds {len : UInt16} (hlen : 8 ≤ len.toNat)
    (hempty : ¬EmptyFecAtEnd mem len) :
    Triple (InBounds len.toNat) (recvLabelmessage mem fuel nbr len type)
      (fun _ => InBounds len.toNat) (fun _ => InBounds len.toNat) := by
  have hn := len.toNat_lt
  refine .bind (touch_inBounds hlen) fun _ => ?_
  refine .bind_of (decr_inBounds hlen hn) fun body hbody => ?_
  rw [ldpMsgSize] at hbody
  refine checked_inBounds fun hhdr => ?_
  rw [tlvHdrSize] at hhdr
  refine .bind (touch_inBounds (by rw [ldpMsgSize, tlvHdrSize]; omega)) fun _ => ?_
  refine .ite (fun _ => rejectWith_inBounds) fun htype => ?_
  refine checked_inBounds fun hfits => ?_
  rw [tlvHdrSize] at hfits
  refine .bind_of (decr_inBounds (by rw [tlvHdrSize]; omega) (by omega)) fun len₁ hlen₁ => ?_
  rw [tlvHdrSize] at hlen₁
  -- the first element is inside the message, or there is an empty TLV at its end
  have hfirst : 12 < len.toNat := by
    by_contra h
    have hzero : num mem (ldpMsgSize + 2) 2 = 0 := by omega
    refine hempty ⟨?_, not_not.mp htype, hzero⟩
    apply UInt16.toNat_inj.mp
    show len.toNat = 12
    omega
  refine .bind
    (fecElements_inBounds fuel _ len₁ _ [] hn hfirst (by rw [ldpMsgSize, tlvHdrSize]; omega)
      (by omega)) fun r => .of_fact fun hr => ?_
  obtain ⟨buf, len₂, mh⟩ := r
  refine .bind_of (mandatoryLabel_inBounds hn hr) fun r hr => ?_
  obtain ⟨buf, len₃, label⟩ := r
  refine .bind (optionalTlvs_inBounds fuel buf len₃ _ hn hr) fun opts => ?_
  exact notifyLde_inBounds mh

/-! ## Where bounds are missed -/

/-- The byte at `off` was looked at. -/
def Saw (off : Nat) (t : Trace) : Prop := off ∈ t.reads

/-- The type byte of an element is looked at before any length. -/
theorem tlvDecodeFecElm_empty :
    Always (tlvDecodeFecElm mem fuel msg buf 0 map) (fun _ _ => False)
      (fun _ => Saw buf) := by
  have shutdown : ∀ {status : UInt32}, Triple (Saw buf)
      (sessionShutdown status msg : Parser (Nat × Map)) (fun _ _ => False)
      (fun _ => Saw buf) :=
    ⟨fun _ h => h⟩
  refine .bind (Q := fun _ => Saw buf)
    (.modify fun t _ => List.mem_append_right _ (by simp)) fun _ => ?_
  refine .ite (fun _ => ?_) fun _ => .ite (fun _ => ?_) fun _ => ?_
  · exact .ite (fun h => absurd h (by decide)) fun _ => shutdown
  · exact .ite (fun _ => shutdown) fun h => absurd (by decide) h
  · exact .ite (fun _ => .ite (fun _ => shutdown) fun h => absurd (by decide) h)
      fun _ => ⟨fun _ h => h⟩

/-- The header is looked at whatever the length of the message. -/
theorem recvLabelmessage_header {len : UInt16} :
    Always (recvLabelmessage mem 0 nbr len type) (fun _ => Saw 7)
      (fun _ => Saw 7) := by
  have stop : ∀ {status : UInt32} {msg : LdpMsg}, Triple (Saw 7)
      (sessionShutdown status msg : Parser Unit) (fun _ => Saw 7)
      (fun _ => Saw 7) :=
    ⟨fun _ h => h⟩
  refine .bind (Q := fun _ => Saw 7)
    (.modify fun t _ => List.mem_append_right _ (by decide)) fun _ => ?_
  refine .bind (Q := fun _ => Saw 7) ⟨fun _ h => h⟩ fun body => ?_
  refine .ite (fun _ => stop) fun _ => ?_
  refine .bind (Q := fun _ => Saw 7) (.modify fun t h => List.mem_append_left _ h) fun _ => ?_
  refine .ite (fun _ => ⟨fun _ h => h⟩) fun _ => .ite (fun _ => stop) fun _ => ?_
  refine .bind (Q := fun _ => Saw 7) ⟨fun _ h => h⟩ fun len' => ?_
  exact .bind (Q := fun _ _ => False) (.throw fun _ h => h) fun _ =>
    ⟨fun _ h => h.elim⟩

theorem recvLabelmessage_emptyFec {len : UInt16} (h : EmptyFecAtEnd mem len) :
    Always (recvLabelmessage mem 1 nbr len type) (fun _ _ => False)
      (fun _ => Saw 12) := by
  obtain ⟨rfl, htype, hzero⟩ := h
  refine touch_then (decr_then (by decide) (by decide) ?_)
  refine ite_then (by decide) (touch_then (ite_then (not_not.mpr htype) ?_))
  refine ite_then (by rw [hzero]; exact Nat.not_lt_zero _) (decr_then (by decide) (by decide) ?_)
  rw [hzero]
  refine .bind (Q := fun _ _ => False) ?_ fun _ => ⟨fun _ h => h.elim⟩
  exact .bind tlvDecodeFecElm_empty fun _ => ⟨fun _ h => h.elim⟩

/-- A triple says of the trace of a run what it says of both its ends. -/
theorem traceOf_of_triple {α : Type} {x : Parser α} {P I : Trace → Prop} {Q : α → Trace → Prop}
    {E : Stop → Trace → Prop} (h : Triple P x Q E) (start : P .empty) (hQ : ∀ a t, Q a t → I t)
    (hE : ∀ e t, E e t → I t) : I (traceOf x) := by
  have hrun := h.run .empty start
  rw [traceOf]
  cases hx : x.run .empty with
  | ok a t =>
    rw [hx] at hrun
    exact hQ a t hrun
  | error e t =>
    rw [hx] at hrun
    exact hE e t hrun

/-- A label message is decoded within bounds exactly if it has a whole header
and does not end in an empty FEC TLV; an element, with `rest` bytes of the
message behind it, exactly if the message has a byte at its position and it is
not a prefix longer than an address. -/
theorem decoding_in_bounds_iff (mem : Mem) : (∀ (nbr : Nbr) (len : UInt16) (type : LabelMsgType),
      (∀ fuel, InBounds len.toNat (traceOf (recvLabelmessage mem fuel nbr len type))) ↔
        8 ≤ len.toNat ∧ ¬EmptyFecAtEnd mem len) ∧
    (∀ (msg : LdpMsg) (map : Map) (buf len rest : Nat),
      (∀ fuel, InBounds (buf + len + rest) (traceOf (tlvDecodeFecElm mem fuel msg buf len map)) ∧
        ∀ r map' t, (tlvDecodeFecElm mem fuel msg buf len map).run .empty = .ok (r, map') t →
          ElementFits len r map') ↔
        0 < len + rest ∧ ¬WidePrefix mem buf len) := by
  have start : ∀ n, InBounds n Trace.empty := fun n => ⟨fun o ho => absurd ho List.not_mem_nil, rfl⟩
  refine ⟨fun nbr len type => ⟨fun h => ⟨?_, fun hempty => ?_⟩, fun h fuel => ?_⟩,
    fun msg map buf len rest => ⟨fun h => ⟨?_, fun hwide => ?_⟩, fun h fuel => ?_⟩⟩
  · have seen : Saw 7 (traceOf (recvLabelmessage mem 0 nbr len type)) :=
      traceOf_of_triple recvLabelmessage_header trivial (fun _ _ h => h) fun _ _ h => h
    exact (h 0).1 7 seen
  · have seen : Saw 12 (traceOf (recvLabelmessage mem 1 nbr len type)) :=
      traceOf_of_triple (recvLabelmessage_emptyFec hempty) trivial (fun _ _ h => h.elim)
        fun _ _ h => h
    have hlt := (h 1).1 12 seen
    rw [hempty.1] at hlt
    exact absurd hlt (by decide)
  · exact traceOf_of_triple (recvLabelmessage_inBounds h.1 h.2) (start _) (fun _ _ h => h)
      fun _ _ h => h
  · by_contra hnone
    obtain ⟨rfl, rfl⟩ : len = 0 ∧ rest = 0 := by omega
    have seen : Saw buf (traceOf (tlvDecodeFecElm mem 0 msg buf 0 map)) :=
      traceOf_of_triple tlvDecodeFecElm_empty trivial (fun _ _ h => h.elim) fun _ _ h => h
    have hlt := (h 0).1.1 buf seen
    omega
  · obtain ⟨helm, hwide⟩ := hwide
    obtain ⟨t, -, hrun⟩ := run_prefixElm 0 msg map .empty helm.1 helm.2.1 helm.2.2
    have hle := ((h 0).2 _ _ t hrun).2.2 rfl
    exact absurd hwide (not_lt.mpr hle)
  · have triple : Triple (InBounds (buf + len + rest)) (tlvDecodeFecElm mem fuel msg buf len map)
        (fun r t => Decoded mem buf len r ∧ InBounds (buf + len + rest) t)
        (fun _ => InBounds (buf + len + rest)) :=
      tlvDecodeFecElm_inBounds (by omega) (by omega)
    refine ⟨traceOf_of_triple triple (start _) (fun _ _ h => h.2) fun _ _ h => h, ?_⟩
    intro r map' t hrun
    have hdecoded := triple.run .empty (start _)
    rw [hrun] at hdecoded
    exact hdecoded.1.2.2 h.2

/-- A label mapping of twelve bytes: the header and an empty FEC TLV. -/
def emptyFecMapping : List UInt8 :=
  [0x04, 0x00, 0x00, 0x08, 0x00, 0x00, 0x00, 0x01, 0x01, 0x00, 0x00, 0x00]

/-- An IPv4 prefix element with prefix length 255, and the 32 bytes it asks for. -/
def widePrefixElement : List UInt8 := [0x02, 0x00, 0x01, 0xff] ++ List.replicate 32 0x0a

/-- The first is read beyond its end; the second is accepted. -/
theorem out_of_bounds_messages : ¬InBounds 12 (traceOf
      (recvLabelmessage (Mem.ofList emptyFecMapping) 1 ⟨true, true, .oper⟩ 12 .mapping)) ∧
    ∃ r map t, (tlvDecodeFecElm (Mem.ofList widePrefixElement) 0 ⟨0, 0⟩ 0 36 .zero).run .empty =
        .ok (r, map) t ∧
      map.type = .prefixElm ∧ map.fec.half = afIpv4 ∧ map.fec.prefixlen = 255 := by
  constructor
  · intro h
    exact absurd (h.1 12 (by decide)) (by decide)
  · have hfits : 4 + prefixSize (Mem.ofList widePrefixElement (0 + 3)) ≤ 36 := by decide
    obtain ⟨t, -, hrun⟩ := run_prefixElm 0 ⟨0, 0⟩ .zero .empty
      (show Mem.ofList widePrefixElement 0 = mapTypeByte .prefixElm by decide)
      (.inl (by decide)) hfits
    exact ⟨_, _, t, hrun, rfl, by decide, by decide⟩

end Mp2mp.Ldpe
