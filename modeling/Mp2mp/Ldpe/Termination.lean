import Mp2mp.Ldpe.LabelMessage

/-!
# Termination of the receivers

`tlv_decode_fec_elm` skips an interface parameter sub-TLV by the length its
header gives, and a length of zero is accepted for every type but the interface
MTU.  Such a sub-TLV is read again and again.  The predicates `SubTlvsStall`,
`ElmStalls`, `FecStalls`, `LabelMessageStalls` and `NotificationStalls` say of
the bytes of a message that the receiver gets to one.

`parsing_finishes_iff`: the three receivers finish, and each iteration of their
loops consumes a byte, exactly on the messages that do not stall them.
-/

namespace Mp2mp.Ldpe

open Kit Ldpd

variable {α : Type} {Q : α → Trace → Prop} {E : Stop → Trace → Prop} {x : Parser α}
  {enough : Prop} {msg : LdpMsg} {fuel len n buf r : Nat} {mem : Mem} {map : Map}
  {type : LabelMsgType} {nbr : Nbr} {status : UInt32} {off : Nat} {opts : Options} {nm : NotifyMsg}
  {p : Nat → Parser α} {I : Trace → Prop} {stype : UInt8}

/-! ## Where a receiver gets stuck -/

/-- The length byte of the sub-TLV at `pos`. -/
def subTlvLen (mem : Mem) (pos : Nat) : Nat := (mem (pos + 1)).toNat

/-- The sub-TLV at `pos` passes the checks of the loop, with `n` bytes left. -/
def SubTlvFits (mem : Mem) (pos n : Nat) : Prop :=
  subtlvHdrSize ≤ n ∧ subTlvLen mem pos ≤ n ∧
    (mem pos = subtlvIfmtu → subTlvLen mem pos = fecSubtlvIfmtuSize)

/-- The sub-TLV loop, started at `pos` with `n` bytes left, gets to a sub-TLV of length zero. -/
inductive SubTlvsStall (mem : Mem) : Nat → Nat → Prop
  | here {pos n : Nat} : SubTlvFits mem pos n → subTlvLen mem pos = 0 → SubTlvsStall mem pos n
  | next {pos n : Nat} : SubTlvFits mem pos n → 0 < subTlvLen mem pos →
    SubTlvsStall mem (pos + subTlvLen mem pos) (n - subTlvLen mem pos) → SubTlvsStall mem pos n

/-- The sub-TLV loop, started at `pos` with `n` bytes left, accepts all of them. -/
inductive SubTlvsEnd (mem : Mem) : Nat → Nat → Prop
  | done {pos : Nat} : SubTlvsEnd mem pos 0
  | next {pos n : Nat} : SubTlvFits mem pos n → 0 < subTlvLen mem pos →
    SubTlvsEnd mem (pos + subTlvLen mem pos) (n - subTlvLen mem pos) → SubTlvsEnd mem pos n

/-- The bytes at `pos` are a pseudowire element of exactly `len` bytes with a pseudowire id. -/
def PwidElm (mem : Mem) (pos len : Nat) : Prop :=
  mem pos = mapTypeByte .pwid ∧ len = fecPwidElmMinLen + (mem (pos + 3)).toNat

/-- The bytes at `pos` are a prefix element of at most `len` bytes. -/
def PrefixElm (mem : Mem) (pos len : Nat) : Prop :=
  mem pos = mapTypeByte .prefixElm ∧
    (UInt16.ofNat (num mem (pos + 1) 2) = afIpv4 ∨ UInt16.ofNat (num mem (pos + 1) 2) = afIpv6) ∧
    4 + prefixSize (mem (pos + 3)) ≤ len

/-- The FEC element at `pos` has a sub-TLV that the decoder never leaves. -/
def ElmStalls (mem : Mem) (pos len : Nat) : Prop :=
  PwidElm mem pos len ∧ 12 ≤ len ∧ SubTlvsStall mem (pos + 12) (len - 12)

/-- The FEC element at `pos` is accepted and takes `r` of the `len` bytes. -/
inductive ElmAccepted (mem : Mem) (pos len : Nat) : Nat → Prop
  | wildcard : mem pos = mapTypeByte .wildcard → len = fecElmWcardLen → ElmAccepted mem pos len 1
  | prefixElm : PrefixElm mem pos len →
    ElmAccepted mem pos len (4 + prefixSize (mem (pos + 3)))
  | pwid : PwidElm mem pos len →
    (len = fecPwidElmMinLen ∨ 12 ≤ len ∧ SubTlvsEnd mem (pos + 12) (len - 12)) →
    ElmAccepted mem pos len len

/-- The FEC-element loop, started at `pos` with `n` bytes left, gets to an
element it never leaves.  Only prefix elements have a successor. -/
inductive FecStalls (mem : Mem) (type : LabelMsgType) : Nat → Nat → Prop
  | here {pos n : Nat} : ElmStalls mem pos n → FecStalls mem type pos n
  | next {pos n : Nat} : type = .mapping → PrefixElm mem pos n →
    4 + prefixSize (mem (pos + 3)) < n →
    FecStalls mem type (pos + (4 + prefixSize (mem (pos + 3))))
      (n - (4 + prefixSize (mem (pos + 3)))) →
    FecStalls mem type pos n

/-- The bytes of the message behind its header, as `recv_labelmessage` counts them. -/
def bodyLen (len : UInt16) : Nat := (len.toNat + 2 ^ 16 - ldpMsgSize) % 2 ^ 16

/-- A label message whose FEC TLV the receiver never leaves. -/
def LabelMessageStalls (mem : Mem) (len : UInt16) (type : LabelMsgType) : Prop :=
  tlvHdrSize ≤ bodyLen len ∧ num mem ldpMsgSize 2 = tlvTypeFec ∧
    num mem (ldpMsgSize + 2) 2 ≤ bodyLen len - tlvHdrSize ∧
    FecStalls mem type (ldpMsgSize + tlvHdrSize) (num mem (ldpMsgSize + 2) 2)

/-- The parameter at `pos` is accepted by the loop of `recv_notification`. -/
def NotificationTlvAccepted (mem : Mem) (pos : Nat) : Prop :=
  match TlvType.ofCode (num mem pos 2) with
  | .pwStatus => num mem (pos + 2) 2 = 4
  | .fec => ElmAccepted mem (pos + tlvHdrSize) (num mem (pos + 2) 2) (num mem (pos + 2) 2)
  | _ => True

/-- The parameter loop of `recv_notification`, started at `pos` with `n` bytes
left, gets to a FEC element it never leaves. -/
inductive NotificationTlvsStall (mem : Mem) : Nat → Nat → Prop
  | here {pos n : Nat} : num mem (pos + 2) 2 + tlvHdrSize ≤ n →
    TlvType.ofCode (num mem pos 2) = .fec →
    ElmStalls mem (pos + tlvHdrSize) (num mem (pos + 2) 2) → NotificationTlvsStall mem pos n
  | next {pos n : Nat} : num mem (pos + 2) 2 + tlvHdrSize ≤ n →
    NotificationTlvAccepted mem pos →
    NotificationTlvsStall mem (pos + tlvHdrSize + num mem (pos + 2) 2)
      (n - (num mem (pos + 2) 2 + tlvHdrSize)) →
    NotificationTlvsStall mem pos n

/-- A notification that the receiver never leaves. -/
def NotificationStalls (mem : Mem) (len : UInt16) : Prop :=
  statusSize ≤ bodyLen len ∧ num mem (ldpMsgSize + 2) 2 ≤ statusSize - tlvHdrSize ∧
    num mem (ldpMsgSize + 2) 2 ≤ bodyLen len - tlvHdrSize ∧
    NotificationTlvsStall mem (ldpMsgSize + statusSize) (bodyLen len - statusSize)

/-! ## Finishing with progress -/

/-- Every finished loop iteration consumed a byte. -/
def Progress (t : Trace) : Prop := ∀ n ∈ t.steps, 1 ≤ n

/-- A stop with progress, and for another reason than lack of fuel if there was enough. -/
def StopsWell (enough : Prop) (e : Stop) (t : Trace) : Prop :=
  Progress t ∧ (enough → e ≠ .outOfFuel)

theorem sessionShutdown_stopsWell :
    Triple Progress (sessionShutdown status msg) Q (StopsWell enough) :=
  ⟨fun _ progress => ⟨progress, fun _ => Stop.noConfusion⟩⟩

theorem rejectWith_stopsWell : Triple Progress (rejectWith status msg) Q (StopsWell enough) :=
  ⟨fun _ progress => ⟨progress, fun _ => Stop.noConfusion⟩⟩

/-- What fails the check closes the session. -/
theorem checked_progress {c : Prop} [Decidable c]
    (h : ¬c → Triple Progress x Q (StopsWell enough)) :
    Triple Progress (if c then sessionShutdown status msg else x) Q (StopsWell enough) :=
  .ite (fun _ => sessionShutdown_stopsWell) h

theorem enough_progress {few : Prop}
    (h : Triple Progress x Q (StopsWell few)) (hfew : enough → few) :
    Triple Progress x Q (StopsWell enough) :=
  .conseq (fun _ h => h) h (fun _ _ h => h) fun _ _ h => ⟨h.1, h.2 ∘ hfew⟩

theorem touch_progress : Triple Progress (touch off n) (fun _ => Progress) (StopsWell enough) :=
  .modify fun _ progress => progress

theorem touching {f : Unit → Parser α} (hf : Triple Progress (f ()) Q (StopsWell enough)) :
    Triple Progress (touch off n >>= f) Q (StopsWell enough) :=
  .bind touch_progress fun _ => hf

theorem decr_progress {w a b : Nat} :
    Triple Progress (decr w a b) (fun r t => r = (a + 2 ^ w - b) % 2 ^ w ∧ Progress t)
      (StopsWell enough) :=
  ⟨fun _ progress => ⟨rfl, progress⟩⟩

theorem consumed_progress (h : 1 ≤ n) :
    Triple Progress (consumed n) (fun _ => Progress) (StopsWell enough) := by
  refine .modify fun t progress m hm => ?_
  rcases List.mem_append.mp hm with hm | hm
  · exact progress m hm
  · rw [List.mem_singleton.mp hm]
    exact h

theorem decodeSubTlv_progress {pos slen : Nat} :
    Triple Progress (decodeSubTlv mem msg pos stype slen map)
      (fun _ t => (stype = subtlvIfmtu → slen = fecSubtlvIfmtuSize) ∧ Progress t)
      (StopsWell enough) := by
  refine .ite (fun hmtu => ?_) fun hmtu => ?_
  · refine checked_progress fun hlen => ?_
    refine touching <| .pure fun t progress => ?_
    exact ⟨fun _ => not_not.mp hlen, progress⟩
  · exact .pure fun t progress => ⟨fun h => absurd h hmtu, progress⟩

theorem decodeSubTlvs_progress (msg : LdpMsg) (buf fuel off n : Nat) (map : Map)
    (hn : n < 256) (hok : ¬SubTlvsStall mem (buf + off) n) :
    Triple Progress (decodeSubTlvs mem msg buf fuel off n map)
      (fun r t => (r.1 = off + n ∧ SubTlvsEnd mem (buf + off) n) ∧ Progress t)
      (StopsWell (n < fuel)) := by
  induction fuel generalizing off n map with
  | zero => exact .throw fun t progress => ⟨progress, fun h => absurd h (Nat.not_lt_zero n)⟩
  | succ fuel ih =>
    rw [decodeSubTlvs]
    refine .ite (fun hzero => ?_) fun hpos => ?_
    · subst hzero
      exact .pure fun t progress => ⟨⟨rfl, .done⟩, progress⟩
    refine checked_progress fun hhdr => ?_
    refine touching ?_
    refine checked_progress fun hlen => ?_
    refine .bind_of decodeSubTlv_progress fun map' hmtu => ?_
    have fits : SubTlvFits mem (buf + off) n := ⟨by omega, by rw [subTlvLen]; omega, hmtu⟩
    -- a length of zero would stall the loop right here
    have hslen : 0 < subTlvLen mem (buf + off) :=
      Nat.pos_of_ne_zero fun h => hok (.here fits h)
    refine .bind_of decr_progress fun n' hn' => ?_
    refine .bind (consumed_progress hslen) fun _ => ?_
    have hsub : n' = n - subTlvLen mem (buf + off) := by
      rw [hn', subTlvLen]
      omega
    subst hsub
    refine .conseq (fun _ h => h)
      (ih (off + subTlvLen mem (buf + off)) (n - subTlvLen mem (buf + off)) map' (by omega)
        fun h => hok (.next fits hslen (by rwa [add_assoc])))
      (fun r t h => ?_) fun e t h => ⟨h.1, fun henough => h.2 (by omega)⟩
    obtain ⟨⟨hr, hend⟩, progress⟩ := h
    refine ⟨⟨?_, .next fits hslen (by rwa [add_assoc])⟩, progress⟩
    have := fits.2.1
    omega

theorem decodePrefix_progress (htype : mem buf = mapTypeByte .prefixElm) :
    Triple Progress (decodePrefix mem msg buf len map)
      (fun r t => ElmAccepted mem buf len r.1 ∧ Progress t) (StopsWell enough) := by
  refine checked_progress fun _ => ?_
  refine touching ?_
  refine .ite (fun _ => rejectWith_stopsWell) fun haf => ?_
  refine touching ?_
  refine checked_progress fun hlen => ?_
  refine touching <| .pure fun t progress => ⟨?_, progress⟩
  exact .prefixElm ⟨htype, by tauto, by omega⟩

theorem decodePwid_progress (htype : mem buf = mapTypeByte .pwid) (hok : ¬ElmStalls mem buf len) :
    Triple Progress (decodePwid mem fuel msg buf len map)
      (fun r t => ElmAccepted mem buf len r.1 ∧ Progress t) (StopsWell (len ≤ fuel)) := by
  refine checked_progress fun _ => ?_
  refine touching ?_
  refine touching ?_
  refine checked_progress fun hlen => ?_
  have helm : PwidElm mem buf len := ⟨htype, not_not.mp hlen⟩
  have hbyte := (mem (buf + 3)).toNat_lt
  refine touching ?_
  refine .ite (fun hzero => ?_) fun _ => ?_
  · refine .pure fun t progress => ⟨?_, progress⟩
    have hmin : len = fecPwidElmMinLen := by rw [helm.2, hzero, add_zero]
    have := ElmAccepted.pwid helm (.inl hmin)
    rwa [hmin] at this ⊢
  refine checked_progress fun hid => ?_
  refine touching ?_
  refine .bind_of decr_progress fun n hn => ?_
  have hlen' := helm.2
  rw [fecPwidElmMinLen] at hlen'
  have hsub : n = len - 12 := by omega
  subst hsub
  refine .conseq (fun _ h => h)
    (decodeSubTlvs_progress msg buf fuel 12 (len - 12) _ (by omega)
      fun h => hok ⟨helm, by omega, h⟩)
    (fun r t h => ?_) fun e t h => ⟨h.1, fun henough => h.2 (by omega)⟩
  obtain ⟨⟨hr, hend⟩, progress⟩ := h
  have hlast : r.1 = len := by omega
  rw [hlast]
  exact ⟨.pwid helm (.inr ⟨by omega, hend⟩), progress⟩

theorem tlvDecodeFecElm_progress (hok : ¬ElmStalls mem buf len) :
    Triple Progress (tlvDecodeFecElm mem fuel msg buf len map)
      (fun r t => ElmAccepted mem buf len r.1 ∧ Progress t) (StopsWell (len ≤ fuel)) := by
  refine touching ?_
  refine .ite (fun hwild => ?_) fun _ => ?_
  · refine .ite (fun hlen => ?_) fun _ => sessionShutdown_stopsWell
    exact .pure fun t progress => ⟨.wildcard hwild hlen, progress⟩
  refine .ite decodePrefix_progress fun _ => ?_
  exact .ite (fun htype => decodePwid_progress htype hok) fun _ => rejectWith_stopsWell

theorem ElmAccepted.pos {pos : Nat} (h : ElmAccepted mem pos len r) : 1 ≤ r := by
  cases h with
  | wildcard => exact le_refl 1
  | prefixElm => omega
  | pwid helm =>
    rw [helm.2, fecPwidElmMinLen]
    omega

/-- Only a prefix element leaves bytes for another element. -/
theorem ElmAccepted.prefixElm_of_lt {pos : Nat} (h : ElmAccepted mem pos len r)
    (hlt : r < len) : PrefixElm mem pos len ∧ r = 4 + prefixSize (mem (pos + 3)) := by
  cases h with
  | wildcard _ hlen =>
    rw [hlen, fecElmWcardLen] at hlt
    omega
  | prefixElm helm => exact ⟨helm, rfl⟩
  | pwid => omega

theorem fecElements_progress
    (fuel buf len feclen : Nat) (mh : List Map) (hok : ¬FecStalls mem type buf feclen) :
    Triple Progress (fecElements mem msg type fuel buf len feclen mh)
      (fun r t => r.2.1 < 2 ^ 16 ∧ Progress t) (StopsWell (feclen < fuel)) := by
  induction fuel generalizing buf len feclen mh with
  | zero =>
    exact .throw fun t progress => ⟨progress, fun h => absurd h (Nat.not_lt_zero feclen)⟩
  | succ fuel ih =>
    rw [fecElements]
    refine .bind
      (enough_progress (tlvDecodeFecElm_progress fun h => hok (.here h)) Nat.le_of_lt_succ)
      fun r => .of_fact fun haccepted => ?_
    obtain ⟨tlen, map⟩ := r
    refine .ite (fun _ => rejectWith_stopsWell) fun _ => ?_
    refine checked_progress fun _ => ?_
    refine checked_progress fun hmulti => ?_
    refine .bind_of decr_progress fun len' hlen' => ?_
    refine .bind (Q := fun r t => r = feclen - tlen ∧ Progress t)
      ⟨fun t progress => ⟨rfl, progress⟩⟩ fun feclen' => .of_fact fun hfeclen' => ?_
    have hpos : 1 ≤ tlen := haccepted.pos
    refine .bind (consumed_progress hpos) fun _ => ?_
    refine .ite (fun hmore => ?_) fun _ => ?_
    · -- bytes are left, so this was a prefix element of a label mapping
      have hlt : tlen < feclen := by omega
      obtain ⟨helm, hsize⟩ := haccepted.prefixElm_of_lt hlt
      have hmapping : type = .mapping := by
        by_contra h
        exact hmulti ⟨h, Nat.ne_of_lt hlt⟩
      subst hfeclen'
      refine enough_progress (ih (buf + tlen) len' (feclen - tlen) _ fun h => ?_) (by omega)
      dsimp only at hsize
      rw [hsize] at h hlt
      exact hok (.next hmapping helm hlt h)
    · refine .pure fun t progress => ⟨?_, progress⟩
      subst hlen'
      exact Nat.mod_lt _ (by norm_num)

theorem tlvDecodeLabel_progress :
    Triple Progress (tlvDecodeLabel mem msg buf len) (fun _ => Progress) (StopsWell enough) := by
  refine checked_progress fun _ => ?_
  refine touching ?_
  refine .ite (fun _ => rejectWith_stopsWell) fun _ => ?_
  refine .ite (fun _ => ?_) fun _ => sessionShutdown_stopsWell
  refine checked_progress fun _ => ?_
  exact checked_progress fun _ => .pure fun _ h => h

theorem mandatoryLabel_progress (hlen : len < 2 ^ 16) :
    Triple Progress (mandatoryLabel mem msg type buf len)
      (fun r t => r.2.1 < 2 ^ 16 ∧ Progress t) (StopsWell enough) := by
  refine .ite (fun _ => ?_) fun _ => .pure fun t progress => ⟨hlen, progress⟩
  refine .bind tlvDecodeLabel_progress fun r => ?_
  refine .bind_of decr_progress fun len' hlen' => ?_
  refine .pure fun t progress => ⟨?_, progress⟩
  subst hlen'
  exact Nat.mod_lt _ (by norm_num)

theorem reportUnknown_progress {type : Nat} :
    Triple Progress (reportUnknown msg type) (fun _ => Progress) (StopsWell enough) :=
  .ite (fun _ => .modify fun _ h => h) fun _ => .pure fun _ h => h

/-- An optional parameter is skipped, stored or reported, or closes the session. -/
theorem optionalTlv_keeps {tlvType tlvLen : Nat}
    (touched : tlvLen = 4 → Triple I (touch buf 4) (fun _ => I) E)
    (stopped : ∀ status, Triple I (sessionShutdown status msg : Parser Options) (fun _ => I) E)
    (reported : Triple I (reportUnknown msg tlvType) (fun _ => I) E) :
    Triple I (optionalTlv mem msg type tlvType buf tlvLen opts) (fun _ => I) E := by
  have keep : ∀ o : Options, Triple I (pure o : Parser Options) (fun _ => I) E :=
    fun _ => .pure fun _ h => h
  have store : ∀ o : Options, Triple I (if tlvLen ≠ 4 then sessionShutdown sBadTlvLen msg
      else do touch buf 4; pure o) (fun _ => I) E :=
    fun o => .ite (fun _ => stopped _) fun hlen => (touched (not_not.mp hlen)).bind fun _ => keep o
  rw [optionalTlv]
  cases TlvType.ofCode tlvType with
  | labelrequest | genericlabel | pwStatus => exact .ite (fun _ => store _) fun _ => keep _
  | hopcount | pathvector => exact keep _
  | atmlabel | frlabel | status => exact .ite (fun _ => stopped _) fun _ => keep _
  | fec | extstatus | returnedpdu | returnedmsg | other => exact reported.bind fun _ => keep _

theorem optionalTlvs_progress (fuel buf len : Nat) (opts : Options) (hlen : len < 2 ^ 16) :
    Triple Progress (optionalTlvs mem msg type fuel buf len opts) (fun _ => Progress)
      (StopsWell (len < fuel)) := by
  induction fuel generalizing buf len opts with
  | zero => exact .throw fun t progress => ⟨progress, fun h => absurd h (Nat.not_lt_zero len)⟩
  | succ fuel ih =>
    rw [optionalTlvs]
    refine .ite (fun _ => .pure fun _ h => h) fun _ => ?_
    refine checked_progress fun hhdr => ?_
    refine touching ?_
    refine checked_progress fun hfits => ?_
    refine .bind_of decr_progress fun len₁ hlen₁ => ?_
    refine .bind (optionalTlv_keeps (fun _ => touch_progress)
      (fun _ => sessionShutdown_stopsWell) reportUnknown_progress) fun opts' => ?_
    refine .bind_of decr_progress fun len₂ hlen₂ => ?_
    refine .bind (consumed_progress (by rw [tlvHdrSize]; omega)) fun _ => ?_
    have hsub : len₂ < len := by
      rw [tlvHdrSize] at hhdr hfits hlen₁
      omega
    exact enough_progress (ih _ len₂ opts' (by omega)) (by omega)

/-- What holds at every message composed and at every way to stop holds when the list of FEC
elements has been passed to the LDE. -/
theorem notifyLde_keeps (composed : ∀ map, Triple I (composeLabelImsg type opts map) (fun _ => I) E)
    (stopped : ∀ status, Triple I (sessionShutdown status msg : Parser Unit) (fun _ => I) E)
    (fatal : ∀ t, I t → E .fatalx t) (mh : List Map) :
    Triple I (notifyLde nbr msg type opts mh) (fun _ => I) E := by
  induction mh with
  | nil => exact .pure fun _ h => h
  | cons me mh ih =>
    have compose : ∀ map, Triple I (composeLabelImsg type opts map >>= fun _ =>
        notifyLde nbr msg type opts mh) (fun _ => I) E := fun map => (composed map).bind fun _ => ih
    have family : ∀ {c d : Prop} [Decidable c] [Decidable d] (map : Map), Triple I
        (if c then sessionShutdown sBadTlvVal msg else if d then composeLabelImsg type opts map
          >>= fun _ => notifyLde nbr msg type opts mh else notifyLde nbr msg type opts mh)
        (fun _ => I) E := fun map =>
      .ite (fun _ => stopped _) fun _ => .ite (fun _ => compose map) fun _ => ih
    rw [notifyLde]
    cases me.type with
    | prefixElm =>
      apply Triple.ite (fun _ => family _)
      intro _
      exact Triple.ite (fun _ => family _) fun _ => Triple.throw fatal
    | pwid => exact .ite (fun _ => stopped _) fun _ => compose _
    | wildcard | none => exact compose _

theorem notifyLde_progress {mh : List Map} :
    Triple Progress (notifyLde nbr msg type opts mh) (fun _ => Progress) (StopsWell enough) :=
  notifyLde_keeps (fun _ => .modify fun _ h => h) (fun _ => sessionShutdown_stopsWell)
    (fun _ progress => ⟨progress, fun _ => Stop.noConfusion⟩) mh

theorem recvLabelmessage_progress {len : UInt16} (hok : ¬LabelMessageStalls mem len type) :
    Triple Progress (recvLabelmessage mem fuel nbr len type) (fun _ => Progress)
      (StopsWell (2 ^ 16 ≤ fuel)) := by
  refine touching ?_
  refine .bind_of decr_progress fun body hbody => ?_
  refine checked_progress fun hhdr => ?_
  refine touching ?_
  refine .ite (fun _ => rejectWith_stopsWell) fun htype => ?_
  refine checked_progress fun hfits => ?_
  refine .bind_of decr_progress fun len' _ => ?_
  have hfec : ¬FecStalls mem type (ldpMsgSize + tlvHdrSize) (num mem (ldpMsgSize + 2) 2) := by
    rw [hbody] at hhdr hfits
    exact fun h => hok ⟨not_lt.mp hhdr, not_not.mp htype, not_lt.mp hfits, h⟩
  have hfeclen : num mem (ldpMsgSize + 2) 2 < 2 ^ 16 := by
    have := ofBe_lt (slice mem (ldpMsgSize + 2) 2)
    rw [length_slice] at this
    exact this
  refine .bind
    (enough_progress (fecElements_progress _ _ _ _ _ hfec) (by omega)) fun r =>
      .of_fact fun hr => ?_
  obtain ⟨buf, len₁, mh⟩ := r
  refine .bind_of (mandatoryLabel_progress hr) fun r hr => ?_
  obtain ⟨buf, len₂, label⟩ := r
  refine .bind
    (enough_progress (optionalTlvs_progress _ _ _ _ hr) (by dsimp only at hr; omega)) fun opts => ?_
  exact notifyLde_progress

theorem notificationTlv_progress {pos : Nat} (hok : TlvType.ofCode (num mem pos 2) = .fec →
      ¬ElmStalls mem (pos + tlvHdrSize) (num mem (pos + 2) 2)) :
    Triple Progress
      (notificationTlv mem fuel msg (num mem pos 2) (pos + tlvHdrSize) (num mem (pos + 2) 2) nm)
      (fun _ t => NotificationTlvAccepted mem pos ∧ Progress t)
      (StopsWell (num mem (pos + 2) 2 ≤ fuel)) := by
  rw [notificationTlv, NotificationTlvAccepted]
  cases htype : TlvType.ofCode (num mem pos 2) with
  | extstatus | returnedpdu | returnedmsg =>
    exact .pure fun t progress => ⟨trivial, progress⟩
  | pwStatus =>
    refine checked_progress fun hlen => ?_
    refine touching <| .pure fun t progress => ?_
    exact ⟨not_not.mp hlen, progress⟩
  | fec =>
    refine .bind_of (tlvDecodeFecElm_progress (hok htype)) fun r haccepted => ?_
    refine checked_progress fun hall => ?_
    refine .pure fun t progress => ⟨?_, progress⟩
    rwa [not_not.mp hall] at haccepted
  | hopcount | pathvector | genericlabel | atmlabel | frlabel | status | labelrequest | other =>
    refine .bind reportUnknown_progress fun _ => ?_
    exact .pure fun t progress => ⟨trivial, progress⟩

theorem notificationTlvs_progress (fuel buf len : Nat) (nm : NotifyMsg)
    (hlen : len < 2 ^ 16) (hok : ¬NotificationTlvsStall mem buf len) :
    Triple Progress (notificationTlvs mem msg fuel buf len nm) (fun _ => Progress)
      (StopsWell (len < fuel)) := by
  induction fuel generalizing buf len nm with
  | zero => exact .throw fun t progress => ⟨progress, fun h => absurd h (Nat.not_lt_zero len)⟩
  | succ fuel ih =>
    rw [notificationTlvs]
    refine .ite (fun _ => .pure fun _ h => h) fun _ => ?_
    refine checked_progress fun hhdr => ?_
    refine touching ?_
    refine checked_progress fun hfits => ?_
    refine .bind_of decr_progress fun len₁ hlen₁ => ?_
    have hfits := not_lt.mp hfits
    refine .bind
      (enough_progress (notificationTlv_progress fun hfec h => hok (.here hfits hfec h)) (by omega))
      fun nm' => .of_fact fun haccepted => ?_
    refine .bind_of decr_progress fun len₂ hlen₂ => ?_
    refine .bind (consumed_progress (by rw [tlvHdrSize]; omega)) fun _ => ?_
    have hsub : len₂ = len - (num mem (buf + 2) 2 + tlvHdrSize) := by
      rw [tlvHdrSize] at hhdr hfits hlen₁ ⊢
      omega
    subst hsub
    exact enough_progress (ih _ _ nm' (by omega) fun h => hok (.next hfits haccepted h))
      (by rw [tlvHdrSize]; omega)

theorem actOnNotification_progress :
    Triple Progress (actOnNotification nbr msg nm) (fun _ => Progress) (StopsWell enough) := by
  refine .ite (fun _ => rejectWith_stopsWell) fun _ => ?_
  refine .ite (fun _ => rejectWith_stopsWell) fun _ => ?_
  refine .ite (fun _ => ?_) fun _ => ?_
  · have close : Triple Progress (do emit .closeSession; throw .fail : Parser Unit)
        (fun _ => Progress) (StopsWell enough) :=
      ⟨fun _ progress => ⟨progress, fun _ => Stop.noConfusion⟩⟩
    exact .ite (fun _ => .bind (Q := fun _ => Progress) (.modify fun _ h => h) fun _ => close)
      fun _ => close
  · exact .ite (fun _ => .modify fun _ h => h) fun _ => .pure fun _ h => h

theorem recvNotification_progress {len : UInt16} (hok : ¬NotificationStalls mem len) :
    Triple Progress (recvNotification mem fuel nbr len) (fun _ => Progress)
      (StopsWell (2 ^ 16 ≤ fuel)) := by
  refine touching ?_
  refine .bind_of decr_progress fun body hbody => ?_
  refine checked_progress fun hhdr => ?_
  refine touching ?_
  refine checked_progress fun hst => ?_
  refine .bind_of decr_progress fun len' hlen' => ?_
  rw [not_or, not_lt, not_lt] at hst
  have hbody' : body = bodyLen len := hbody
  have hlt : bodyLen len < 2 ^ 16 := Nat.mod_lt _ (by norm_num)
  have hsub : len' = bodyLen len - statusSize := by
    rw [hbody'] at hhdr hlen'
    omega
  rw [hsub]
  refine .bind
    (enough_progress (notificationTlvs_progress _ _ _ _ (by omega) fun h => ?_) (by omega))
    fun nm => actOnNotification_progress
  rw [hbody'] at hhdr hst
  exact hok ⟨not_lt.mp hhdr, hst.1, hst.2, h⟩

/-! ## Running for ever -/

/-- The program returns nothing and stops for lack of fuel only. -/
def Diverges {α : Type} (x : Parser α) : Prop :=
  Triple (fun _ => True) x (fun _ _ => False) fun e _ => e = .outOfFuel

/-- Whatever came before. -/
abbrev Always {α : Type} (x : Parser α) (Q : α → Trace → Prop) (E : Stop → Trace → Prop) : Prop :=
  Triple (fun _ => True) x Q E

theorem Diverges.bind {β : Type} (f : α → Parser β) (h : Diverges x) : Diverges (x >>= f) :=
  Triple.bind h fun _ => ⟨fun _ h => h.elim⟩

theorem touch_then (h : Always x Q E) :
    Always (do touch off n; x) Q E :=
  .bind (.modify fun _ _ => trivial) fun _ => h

theorem consumed_then (h : Always x Q E) :
    Always (do consumed n; x) Q E :=
  .bind (.modify fun _ _ => trivial) fun _ => h

theorem decr_then {w a b : Nat} {f : Nat → Parser α} (hb : b ≤ a) (ha : a < 2 ^ w)
    (h : Always (f (a - b)) Q E) :
    Always (decr w a b >>= f) Q E := by
  refine .bind (Q := fun r _ => r = a - b ∧ True)
    ⟨fun _ _ => ⟨sub_mod_of_le hb ha, trivial⟩⟩ fun r => .of_fact fun hr => ?_
  rw [hr]
  exact h

theorem ite_then {c : Prop} [Decidable c] {y : Parser α} (hc : ¬c)
    (h : Always y Q E) : Always (if c then x else y) Q E := by
  rwa [if_neg hc]

theorem decodeSubTlv_then {pos slen : Nat}
    {f : Map → Parser α} (hmtu : stype = subtlvIfmtu → slen = fecSubtlvIfmtuSize)
    (h : ∀ map', Always (f map') Q E) :
    Always (decodeSubTlv mem msg pos stype slen map >>= f) Q E := by
  refine .bind (Q := fun _ _ => True) (.ite (fun htype => ?_) fun _ => ?_) h
  · exact ite_then (not_not.mpr (hmtu htype)) (touch_then (.pure fun _ h => h))
  · exact .pure fun _ h => h

/-- One iteration over a sub-TLV that passes the checks. -/
theorem decodeSubTlvs_then
    {Q : Nat × Map → Trace → Prop} (hn : n < 256) (fits : SubTlvFits mem (buf + off) n)
    (h : ∀ map', Always
      (decodeSubTlvs mem msg buf fuel (off + subTlvLen mem (buf + off))
        (n - subTlvLen mem (buf + off)) map') Q E) :
    Always (decodeSubTlvs mem msg buf (fuel + 1) off n map) Q E := by
  obtain ⟨hhdr, hlen, hmtu⟩ := fits
  have hpos : n ≠ 0 := by
    rw [subtlvHdrSize] at hhdr
    omega
  rw [decodeSubTlvs]
  refine ite_then hpos (ite_then (not_lt.mpr hhdr) (touch_then (ite_then (not_lt.mpr hlen) ?_)))
  exact decodeSubTlv_then hmtu fun map' => decr_then hlen hn (consumed_then (h map'))

section

variable {pos : Nat}

theorem decodeSubTlvs_diverges
    (h : SubTlvsStall mem pos n) : ∀ {off : Nat}, pos = buf + off → n < 256 →
      ∀ (fuel : Nat) (map : Map), Diverges (decodeSubTlvs mem msg buf fuel off n map) := by
  induction h with
  | @here pos n fits hzero =>
    intro off hpos hn fuel
    -- the position never changes: every unit of fuel goes into the same sub-TLV
    induction fuel with
    | zero => exact fun map => .throw fun _ _ => rfl
    | succ fuel ih =>
      intro map
      subst hpos
      refine decodeSubTlvs_then hn fits fun map' => ?_
      rw [hzero]
      exact ih map'
  | @next pos n fits hlen _ ih =>
    intro off hpos hn fuel map
    cases fuel with
    | zero => exact .throw fun _ _ => rfl
    | succ fuel =>
      subst hpos
      exact decodeSubTlvs_then hn fits fun map' =>
        ih (add_assoc ..) (by omega) fuel map'

/-- A sub-TLV loop that accepts all its bytes can only run out of fuel before that. -/
theorem decodeSubTlvs_accepts
    (h : SubTlvsEnd mem pos n) : ∀ {off : Nat}, pos = buf + off → n < 256 →
      ∀ (fuel : Nat) (map : Map), Always (decodeSubTlvs mem msg buf fuel off n map)
        (fun r _ => r.1 = off + n) fun e _ => e = .outOfFuel := by
  induction h with
  | done =>
    intro off _ _ fuel map
    cases fuel with
    | zero => exact .throw fun _ _ => rfl
    | succ fuel => exact .pure fun _ _ => rfl
  | @next pos n fits hlen _ ih =>
    intro off hpos hn fuel map
    cases fuel with
    | zero => exact .throw fun _ _ => rfl
    | succ fuel =>
      subst hpos
      refine decodeSubTlvs_then hn fits fun map' => ?_
      have hle := fits.2.1
      rw [show off + n = off + subTlvLen mem (buf + off) + (n - subTlvLen mem (buf + off)) by
        omega]
      exact ih (add_assoc ..) (by omega) fuel map'

/-- The decoder gets to the pseudowire id of a pseudowire element. -/
theorem tlvDecodeFecElm_pwid {Q : Nat × Map → Trace → Prop} (helm : PwidElm mem pos len)
    (h : ∀ map', Always
      (decodePwidInfo mem fuel msg pos (mem (pos + 3)).toNat map') Q E) :
    Always (tlvDecodeFecElm mem fuel msg pos len map) Q E := by
  obtain ⟨htype, hlen⟩ := helm
  have hwild : mem pos ≠ mapTypeByte .wildcard := by rw [htype]; decide
  have hother : mem pos ≠ mapTypeByte .prefixElm := by rw [htype]; decide
  refine touch_then (ite_then hwild (ite_then hother ?_))
  rw [if_pos htype]
  refine ite_then (by rw [hlen]; omega) (touch_then (touch_then ?_))
  exact ite_then (not_not.mpr hlen) (touch_then (h _))

/-- It gets to the sub-TLVs of an element that has an id. -/
theorem tlvDecodeFecElm_subTlvs {Q : Nat × Map → Trace → Prop} (helm : PwidElm mem pos len)
    (hid : 12 ≤ len) (h : ∀ map', len - 12 < 256 →
      Always (decodeSubTlvs mem msg pos fuel 12 (len - 12) map') Q E) :
    Always (tlvDecodeFecElm mem fuel msg pos len map) Q E := by
  have hbyte := (mem (pos + 3)).toNat_lt
  have hlen := helm.2
  rw [fecPwidElmMinLen] at hlen
  refine tlvDecodeFecElm_pwid helm fun map' => ?_
  refine ite_then (by omega) (ite_then (by omega) (touch_then (decr_then (by omega) hbyte ?_)))
  rw [show (mem (pos + 3)).toNat - 4 = len - 12 by omega]
  exact h _ (by omega)

theorem tlvDecodeFecElm_diverges
    (h : ElmStalls mem pos len) : Diverges (tlvDecodeFecElm mem fuel msg pos len map) := by
  obtain ⟨helm, hid, hstall⟩ := h
  exact tlvDecodeFecElm_subTlvs helm hid fun map' hn =>
    decodeSubTlvs_diverges hstall rfl hn fuel map'

theorem tlvDecodeFecElm_prefixElm (h : PrefixElm mem pos len) :
    Always (tlvDecodeFecElm mem fuel msg pos len map)
      (fun r _ => (r.1 = 4 + prefixSize (mem (pos + 3)) ∧ r.2.type = .prefixElm) ∧ True) E := by
  refine ⟨fun t _ => ?_⟩
  obtain ⟨t', -, hrun⟩ := run_prefixElm fuel msg map t h.1 h.2.1 h.2.2
  rw [hrun]
  exact ⟨⟨rfl, rfl⟩, trivial⟩

/-- An element that is accepted is decoded, if the fuel suffices. -/
theorem tlvDecodeFecElm_accepts (h : ElmAccepted mem pos len r) :
    Always (tlvDecodeFecElm mem fuel msg pos len map)
      (fun p _ => p.1 = r ∧ True) fun e _ => e = .outOfFuel := by
  cases h with
  | wildcard htype hlen =>
    refine touch_then ?_
    rw [if_pos htype, if_pos hlen]
    exact .pure fun _ _ => ⟨rfl, trivial⟩
  | prefixElm helm =>
    exact .conseq (fun _ h => h) (tlvDecodeFecElm_prefixElm helm)
      (fun _ _ h => ⟨h.1.1, trivial⟩) fun _ _ h => h
  | pwid helm hend =>
    rcases hend with hmin | ⟨hid, hend⟩
    · refine tlvDecodeFecElm_pwid helm fun map' => ?_
      have hzero : (mem (pos + 3)).toNat = 0 := by
        have := helm.2
        omega
      rw [decodePwidInfo, if_pos hzero]
      exact .pure fun _ _ => ⟨hmin.symm, trivial⟩
    · refine tlvDecodeFecElm_subTlvs helm hid fun map' hn => ?_
      exact .conseq (fun _ h => h) (decodeSubTlvs_accepts hend rfl hn fuel map')
        (fun _ _ h => ⟨by omega, trivial⟩) fun _ _ h => h

theorem fecElements_diverges (h : FecStalls mem type pos n) : ∀ (fuel len : Nat) (mh : List Map),
      Diverges (fecElements mem msg type fuel pos len n mh) := by
  induction h with
  | here helm =>
    intro fuel len mh
    cases fuel with
    | zero => exact .throw fun _ _ => rfl
    | succ fuel => exact Diverges.bind _ (tlvDecodeFecElm_diverges helm)
  | @next pos n hmapping helm hlt _ ih =>
    intro fuel len mh
    cases fuel with
    | zero => exact .throw fun _ _ => rfl
    | succ fuel =>
      rw [fecElements]
      refine Triple.bind_of (tlvDecodeFecElm_prefixElm helm) fun r hr => ?_
      obtain ⟨tlen, map⟩ := r
      obtain ⟨htlen, htype⟩ := hr
      dsimp only at htlen htype
      refine ite_then (by simp [htype]) (ite_then (by simp [htype]) ?_)
      refine ite_then (by simp [hmapping]) ?_
      refine .bind (Q := fun _ _ => True) ⟨fun _ _ => trivial⟩ fun len' => ?_
      refine .bind (Q := fun r _ => r = n - tlen ∧ True) ⟨fun _ _ => ⟨rfl, trivial⟩⟩
        fun feclen => .of_fact fun hfeclen => ?_
      refine consumed_then ?_
      rw [hfeclen, htlen, if_pos (Nat.sub_pos_of_lt hlt)]
      exact ih fuel len' _

end

theorem recvLabelmessage_diverges {len : UInt16} (h : LabelMessageStalls mem len type) :
    Diverges (recvLabelmessage mem fuel nbr len type) := by
  obtain ⟨hhdr, htype, hfits, hstall⟩ := h
  refine touch_then ?_
  refine .bind (Q := fun r _ => r = bodyLen len ∧ True) ⟨fun _ _ => ⟨rfl, trivial⟩⟩
    fun body => .of_fact fun hbody => ?_
  rw [hbody]
  refine ite_then (not_lt.mpr hhdr) (touch_then (ite_then (not_not.mpr htype) ?_))
  refine ite_then (not_lt.mpr hfits) ?_
  refine .bind (Q := fun _ _ => True) ⟨fun _ _ => trivial⟩ fun len' => ?_
  exact Diverges.bind _ (fecElements_diverges hstall fuel len' [])

theorem notificationTlv_accepts {pos : Nat} (h : NotificationTlvAccepted mem pos) :
    Always
      (notificationTlv mem fuel msg (num mem pos 2) (pos + tlvHdrSize) (num mem (pos + 2) 2) nm)
      (fun _ _ => True) fun e _ => e = .outOfFuel := by
  rw [notificationTlv]
  rw [NotificationTlvAccepted] at h
  cases htype : TlvType.ofCode (num mem pos 2) with
  | extstatus | returnedpdu | returnedmsg => exact .pure fun _ h => h
  | pwStatus =>
    rw [htype] at h
    exact ite_then (not_not.mpr h) (touch_then (.pure fun _ h => h))
  | fec =>
    rw [htype] at h
    refine .bind_of (tlvDecodeFecElm_accepts h) fun r hr => ?_
    exact ite_then (not_not.mpr hr) (.pure fun _ h => h)
  | hopcount | pathvector | genericlabel | atmlabel | frlabel | status | labelrequest | other =>
    refine .bind (Q := fun _ _ => True) ?_ fun _ => .pure fun _ h => h
    exact .ite (fun _ => .modify fun _ h => h) fun _ => .pure fun _ h => h

theorem notificationTlvs_diverges {pos : Nat}
    (h : NotificationTlvsStall mem pos n) : n < 2 ^ 16 → ∀ (fuel : Nat) (nm : NotifyMsg),
      Diverges (notificationTlvs mem msg fuel pos n nm) := by
  induction h with
  | @here pos n hfits hfec helm =>
    intro hn fuel nm
    cases fuel with
    | zero => exact .throw fun _ _ => rfl
    | succ fuel =>
      rw [notificationTlvs]
      rw [tlvHdrSize] at hfits
      refine ite_then (by omega) (ite_then (by rw [tlvHdrSize]; omega) (touch_then ?_))
      refine ite_then (by rw [tlvHdrSize]; omega) ?_
      refine decr_then (by rw [tlvHdrSize]; omega) hn (Diverges.bind _ ?_)
      rw [notificationTlv, hfec]
      exact Diverges.bind _ (tlvDecodeFecElm_diverges helm)
  | @next pos n hfits haccepted _ ih =>
    intro hn fuel nm
    cases fuel with
    | zero => exact .throw fun _ _ => rfl
    | succ fuel =>
      rw [notificationTlvs]
      have hfits' := hfits
      rw [tlvHdrSize] at hfits'
      refine ite_then (by omega) (ite_then (by rw [tlvHdrSize]; omega) (touch_then ?_))
      refine ite_then (not_lt.mpr hfits) (decr_then (by rw [tlvHdrSize]; omega) hn ?_)
      refine .bind (notificationTlv_accepts haccepted) fun nm' => ?_
      refine decr_then (by rw [tlvHdrSize]; omega) (by omega) (consumed_then ?_)
      rw [Nat.sub_sub, add_comm tlvHdrSize]
      exact ih (by omega) fuel nm'

theorem recvNotification_diverges {len : UInt16}
    (h : NotificationStalls mem len) : Diverges (recvNotification mem fuel nbr len) := by
  obtain ⟨hhdr, hst, hfits, hstall⟩ := h
  have hlt : bodyLen len < 2 ^ 16 := Nat.mod_lt _ (by norm_num)
  refine touch_then ?_
  refine .bind (Q := fun r _ => r = bodyLen len ∧ True) ⟨fun _ _ => ⟨rfl, trivial⟩⟩
    fun body => .of_fact fun hbody => ?_
  rw [hbody]
  refine ite_then (not_lt.mpr hhdr) (touch_then ?_)
  refine ite_then (by rw [not_or, not_lt, not_lt]; exact ⟨hst, hfits⟩) (decr_then hhdr hlt ?_)
  exact Diverges.bind _ (notificationTlvs_diverges hstall (by omega) fuel _)

/-! ## The receivers -/

/-- Given enough fuel, the program comes to an end. -/
def Finishes {α : Type} (p : Nat → Parser α) : Prop :=
  ∃ enough, ∀ fuel, enough ≤ fuel → ∀ t, (p fuel).run .empty ≠ .error .outOfFuel t

/-- The trace a program leaves, however it ends. -/
def traceOf {α : Type} (x : Parser α) : Trace :=
  match x.run .empty with
  | .ok _ t => t
  | .error _ t => t

/-- However long it runs, every finished loop iteration consumed a byte. -/
def Advances {α : Type} (p : Nat → Parser α) : Prop := ∀ fuel, Progress (traceOf (p fuel))

theorem finishes_and_advances {enough : Nat}
    (h : ∀ fuel, Triple Progress (p fuel) (fun a t => Q a t ∧ Progress t)
      (StopsWell (enough ≤ fuel))) : Finishes p ∧ Advances p := by
  have start : Progress Trace.empty := fun n hn => absurd hn List.not_mem_nil
  refine ⟨⟨enough, fun fuel hfuel t hrun => ?_⟩, fun fuel => ?_⟩
  · have hstop := (h fuel).run .empty start
    rw [hrun] at hstop
    exact hstop.2 hfuel rfl
  · have hstop := (h fuel).run .empty start
    rw [traceOf]
    cases hrun : (p fuel).run .empty with
    | ok a t =>
      rw [hrun] at hstop
      exact hstop.2
    | error e t =>
      rw [hrun] at hstop
      exact hstop.1

theorem not_finishes (h : ∀ fuel, Diverges (p fuel)) : ¬Finishes p := by
  rintro ⟨enough, hfinish⟩
  have hstop := (h enough).run .empty trivial
  cases hrun : (p enough).run .empty with
  | ok a t =>
    rw [hrun] at hstop
    exact hstop
  | error e t =>
    rw [hrun] at hstop
    dsimp only at hstop
    rw [hstop] at hrun
    exact hfinish enough (le_refl enough) t hrun

/-- Each of the receivers finishes, every iteration of its loops consuming a
byte, exactly on the messages that have no sub-TLV of length zero where it looks. -/
theorem parsing_finishes_iff (mem : Mem) : (∀ (nbr : Nbr) (len : UInt16) (type : LabelMsgType),
      (Finishes (recvLabelmessage mem · nbr len type) ∧
        Advances (recvLabelmessage mem · nbr len type)) ↔ ¬LabelMessageStalls mem len type) ∧
    (∀ (nbr : Nbr) (len : UInt16),
      (Finishes (recvNotification mem · nbr len) ∧ Advances (recvNotification mem · nbr len)) ↔
        ¬NotificationStalls mem len) ∧ (∀ (msg : LdpMsg) (buf len : Nat) (map : Map),
      (Finishes (tlvDecodeFecElm mem · msg buf len map) ∧
        Advances (tlvDecodeFecElm mem · msg buf len map)) ↔ ¬ElmStalls mem buf len) := by
  refine ⟨fun nbr len type => ⟨fun h hstall => ?_, fun h => ?_⟩,
    fun nbr len => ⟨fun h hstall => ?_, fun h => ?_⟩,
    fun msg buf len map => ⟨fun h hstall => ?_, fun h => ?_⟩⟩
  · exact not_finishes (fun _ => recvLabelmessage_diverges hstall) h.1
  · exact finishes_and_advances fun fuel =>
      .conseq (fun _ h => h) (recvLabelmessage_progress h) (fun _ _ h => ⟨trivial, h⟩)
        fun _ _ h => h
  · exact not_finishes (fun _ => recvNotification_diverges hstall) h.1
  · exact finishes_and_advances fun fuel =>
      .conseq (fun _ h => h) (recvNotification_progress h) (fun _ _ h => ⟨trivial, h⟩)
        fun _ _ h => h
  · exact not_finishes (fun _ => tlvDecodeFecElm_diverges hstall) h.1
  · exact finishes_and_advances fun fuel => tlvDecodeFecElm_progress h

/-- A label mapping of 26 bytes: one pseudowire element with id 1 and a VLAN
sub-TLV (type 6) of length zero. -/
def stallingMapping : List UInt8 :=
  [0x04, 0x00, 0x00, 0x16, 0x00, 0x00, 0x00, 0x01,
   0x01, 0x00, 0x00, 0x0e,
   0x80, 0x00, 0x05, 0x06, 0x00, 0x00, 0x00, 0x00, 0x00, 0x00, 0x00, 0x01, 0x06, 0x00]

theorem stallingMapping_never_finishes :
    ¬Finishes (recvLabelmessage (Mem.ofList stallingMapping) · ⟨true, true, .oper⟩ 26 .mapping) := by
  have stalls : LabelMessageStalls (Mem.ofList stallingMapping) 26 .mapping := by
    refine ⟨by decide, by decide, by decide, .here ⟨⟨by decide, by decide⟩, by decide, ?_⟩⟩
    exact .here ⟨by decide, by decide, by decide⟩ (by decide)
  exact not_finishes fun _ => recvLabelmessage_diverges stalls

end Mp2mp.Ldpe
