import Mp2mp.Lib.Stream
import Mp2mp.Bgpd.AsPath

/-!
# AS paths on the wire

`aspath_put` and `aspath_parse` of `bgp_aspath.c`.  On the wire a segment has at most 255
ASNs, so `aspath_put` cuts longer ones into pieces; `assegment_normalise` joins the pieces
of a sequence when they are read.

Every piece but the last is written from the start of the segment's data, and the byte
count of the `n`-th piece is that of `n` pieces.

* `aspathPut_spec`: what is written and what is returned.
* `aspathParse_wire`: what is read back from what was written.
* `putRoundTrips_iff`: a path comes back as it was sent, with the right byte count, when no
  sequence has more than 510 ASNs, and only then.
-/

namespace Mp2mp.Bgpd

open Kit Lib List Segment

variable {seg : Segment} {use32bit : Bool} {segs next : List Segment} {num length : Nat}
  {s : Stream} {as : List As}

/-! ## Writing -/

def SegType.code : SegType → UInt8
  | .asSet => 1
  | .asSequence => 2
  | .asConfedSequence => 3
  | .asConfedSet => 4

def SegType.ofCode (code : UInt8) : Option SegType :=
  if code = 1 then some .asSet
  else if code = 2 then some .asSequence
  else if code = 3 then some .asConfedSequence
  else if code = 4 then some .asConfedSet
  else none

def asSegmentMax : Nat := 255
def bgpAsMax : As := 65535
def bgpAsTrans : As := 23456

/-- `AS_VALUE_SIZE` or `AS16_VALUE_SIZE` -/
def asValueSize (use32bit : Bool) : Nat := if use32bit then 4 else 2

def assegmentSize (n : Nat) (use32bit : Bool) : Nat := 2 + n * asValueSize use32bit

/-- One ASN, as `assegment_data_put` writes it. -/
def asPut (use32bit : Bool) (s : Stream) (as : As) : Option Stream :=
  if use32bit then s.putl as
  else if as ≤ bgpAsMax then s.putw as
  else s.putw bgpAsTrans

def assegmentDataPut (s : Stream) (as : List As) (num : Nat) (use32bit : Bool) : Option Stream :=
  if num ≤ asSegmentMax then (as.take num).foldlM (asPut use32bit) s else none

/-- `assegment_header_put`, with the position of the length byte. -/
def assegmentHeaderPut (s : Stream) (type : SegType) (length : Nat) : Option (Nat × Stream) :=
  if length ≤ asSegmentMax then do
    let s ← s.putc type.code
    let lenp := s.endp
    let s ← s.putc (UInt8.ofNat length)
    some (lenp, s)
  else none

/-- The loop over the pieces of an overlength segment; `written` and `bytes` as in the source.
There are fewer pieces than ASNs. -/
def putPieces (seg : Segment) (use32bit : Bool) :
    Nat → Nat → Nat → Stream → Option (Nat × Nat × Stream)
  | 0, written, bytes, s => some (written, bytes, s)
  | pieces + 1, written, bytes, s =>
    if seg.length - written > asSegmentMax then do
      let (_, s) ← assegmentHeaderPut s seg.type asSegmentMax
      let s ← assegmentDataPut s seg.as asSegmentMax use32bit
      let written := written + asSegmentMax
      putPieces seg use32bit pieces written (bytes + assegmentSize written use32bit) s
    else some (written, bytes, s)

/-- `ASSEGMENTS_PACKABLE` -/
def Segment.packable (x y : Segment) : Bool :=
  x.typesPackable y && decide (x.length + y.length ≤ asSegmentMax)

/-- The loop that packs the following sequences into the piece written last. -/
def packNext (seg : Segment) (written lenp : Nat) (use32bit : Bool) :
    List Segment → Nat → Stream → Option (List Segment × Nat × Stream)
  | [], asnsPacked, s => some ([], asnsPacked, s)
  | next :: rest, asnsPacked, s =>
    if seg.packable next then do
      let s ← assegmentDataPut s next.as next.length use32bit
      let s ← s.putcAt lenp (UInt8.ofNat (seg.length - written + next.length))
      packNext seg written lenp use32bit rest (asnsPacked + next.length) s
    else some (next :: rest, asnsPacked, s)

/-- The loop of `aspath_put` over the segments; each round consumes one at least. -/
def putSegments (use32bit : Bool) : Nat → List Segment → Nat → Stream → Option (Stream × Nat)
  | 0, _, bytes, s => some (s, bytes)
  | _ + 1, [], bytes, s => some (s, bytes)
  | rounds + 1, seg :: next, bytes, s =>
    if assegmentSize seg.length use32bit ≤ s.writeable then do
      let (written, bytes, s) ← putPieces seg use32bit seg.length 0 bytes s
      let (lenp, s) ← assegmentHeaderPut s seg.type (seg.length - written)
      let s ← assegmentDataPut s (seg.as.drop written) (seg.length - written) use32bit
      let (next, asnsPacked, s) ← packNext seg written lenp use32bit next 0 s
      putSegments use32bit rounds next
        (bytes + assegmentSize (seg.length - written + asnsPacked) use32bit) s
    else some (s, bytes)

/-- `aspath_put`: the stream and the number of bytes it says it wrote. -/
def aspathPut (s : Stream) (segs : List Segment) (use32bit : Bool) : Option (Stream × Nat) :=
  match segs with
  | [] => some (s, 0)
  | seg :: _ => if seg.length = 0 then some (s, 0)
      else putSegments use32bit segs.length segs 0 s

/-! ## Reading -/

/-- `stream_getl` or `stream_getw`, `n` times. -/
def getAsns (use32bit : Bool) : Nat → List UInt8 → Option (List As × List UInt8)
  | 0, r => some ([], r)
  | n + 1, r =>
    if r.length < asValueSize use32bit then none
    else do
      let (as, r') ← getAsns use32bit n (r.drop (asValueSize use32bit))
      some (Fin.ofNat _ (ofBe (r.take (asValueSize use32bit))) :: as, r')

/-- The loop of `assegments_parse`; each round reads two bytes at least. -/
def parseSegments (length : Nat) (use32bit : Bool) :
    Nat → Nat → List UInt8 → Option (List Segment)
  | 0, _, _ => none
  | rounds + 1, bytes, r =>
    if bytes < length then
      if length - bytes ≤ 2 then none
      else
        match r with
        | code :: len :: r =>
          let segSize := assegmentSize len.toNat use32bit
          if bytes + segSize > length ∨ len.toNat = 0 then none
          else do
            let type ← SegType.ofCode code
            let (as, r) ← getAsns use32bit len.toNat r
            let rest ← parseSegments length use32bit rounds (bytes + segSize) r
            some (.ofData type as :: rest)
        | _ => none
    else some []

/-- `assegments_parse` of a stream whose readable bytes are `r`. -/
def assegmentsParse (r : List UInt8) (length : Nat) (use32bit : Bool) : Option (List Segment) :=
  if length = 0 then some []
  else if r.length < length ∨ r.length < 2 ∨ length % 2 ≠ 0 then none
  else (parseSegments length use32bit (length + 1) 0 r).map assegmentNormalise

def aspathParse (r : List UInt8) (length : Nat) (use32bit : Bool) : Option (List Segment) :=
  if length % 2 ≠ 0 then none else assegmentsParse r length use32bit

/-! ## What is written -/

/-- The ASN that arrives when `as` is sent. -/
def narrow (use32bit : Bool) (as : As) : As :=
  if use32bit then as else if as ≤ bgpAsMax then as else bgpAsTrans

def asBytes (use32bit : Bool) (as : As) : List UInt8 :=
  toBe (asValueSize use32bit) (narrow use32bit as)

/-- A segment of the wire format. -/
def pieceBytes (use32bit : Bool) (type : SegType) (as : List As) : List UInt8 :=
  [type.code, UInt8.ofNat as.length] ++ as.flatMap (asBytes use32bit)

/-- How many pieces of 255 ASNs precede the last piece. -/
def Segment.fullPieces (seg : Segment) : Nat := (seg.length - 1) / 255

def Segment.pieces (seg : Segment) : List (List As) :=
  replicate seg.fullPieces (seg.as.take 255) ++ [seg.as.drop (255 * seg.fullPieces)]

def Segment.wire (use32bit : Bool) (seg : Segment) : List UInt8 :=
  seg.pieces.flatMap (pieceBytes use32bit seg.type)

/-- The bytes `aspath_put` writes. -/
def wire (use32bit : Bool) (segs : List Segment) : List UInt8 :=
  segs.flatMap (Segment.wire use32bit)

/-- The count `aspath_put` adds up for one segment. -/
def Segment.count (use32bit : Bool) (seg : Segment) : Nat :=
  ((range seg.fullPieces).map fun i => assegmentSize (255 * (i + 1)) use32bit).sum +
    assegmentSize (seg.length - 255 * seg.fullPieces) use32bit

@[simp]
theorem length_asBytes (use32bit : Bool) (as : As) :
    (asBytes use32bit as).length = asValueSize use32bit := length_toBe ..

theorem length_pieceBytes (use32bit : Bool) (type : SegType) (as : List As) :
    (pieceBytes use32bit type as).length = assegmentSize as.length use32bit := by
  simp only [pieceBytes, length_append, length_cons, length_nil,
    length_flatMap, length_asBytes, assegmentSize, map_const', sum_replicate,
    smul_eq_mul]

section

variable (use32bit : Bool) (s : Stream) (type : SegType)

theorem Segment.fullPieces_lt (h : seg.as ≠ []) :
    255 * seg.fullPieces < seg.length ∧ seg.length ≤ 255 * seg.fullPieces + 255 := by
  have : 0 < seg.length := length_pos_iff.mpr h
  simp only [fullPieces]
  omega

theorem Segment.length_take (h : 0 < seg.fullPieces) : (seg.as.take 255).length = 255 := by
  simp only [fullPieces, length] at h
  rw [List.length_take]
  omega

theorem asPut_wrote (as : As) (room : asValueSize use32bit ≤ s.writeable) :
    ∃ s', asPut use32bit s as = some s' ∧ s.Wrote (asBytes use32bit as) s' := by
  have written : asPut use32bit s as = s.put (asBytes use32bit as) := by
    cases use32bit with
    | true => rfl
    | false =>
      rw [asPut, asBytes, narrow]
      simp only [Bool.false_eq_true, if_false]
      split <;> rfl
  rw [written]
  exact Stream.put_wrote (by simpa using room)

theorem asPuts_wrote {as : List As} (room : as.length * asValueSize use32bit ≤ s.writeable) :
    ∃ s', as.foldlM (asPut use32bit) s = some s' ∧
      s.Wrote (as.flatMap (asBytes use32bit)) s' := by
  induction as generalizing s with
  | nil => exact ⟨s, rfl, .refl s⟩
  | cons a as ih =>
    rw [length_cons, Nat.succ_mul] at room
    obtain ⟨s₁, put, wrote⟩ := asPut_wrote use32bit s a (by omega)
    obtain ⟨s₂, puts, wrote'⟩ := ih s₁ (by
      rw [wrote.writeable, length_asBytes]
      omega)
    refine ⟨s₂, ?_, wrote.trans wrote'⟩
    rw [foldlM_cons, put]
    exact puts

theorem assegmentDataPut_wrote (most : num ≤ 255) (enough : num ≤ as.length)
    (room : num * asValueSize use32bit ≤ s.writeable) :
    ∃ s', assegmentDataPut s as num use32bit = some s' ∧
      s.Wrote ((as.take num).flatMap (asBytes use32bit)) s' := by
  rw [assegmentDataPut, if_pos (show num ≤ asSegmentMax from most)]
  apply asPuts_wrote
  rwa [List.length_take, Nat.min_eq_left enough]

theorem assegmentHeaderPut_wrote (most : length ≤ 255) (room : 2 ≤ s.writeable) :
    ∃ lenp s', assegmentHeaderPut s type length = some (lenp, s') ∧
      s.Wrote [type.code, UInt8.ofNat length] s' := by
  obtain ⟨s₁, put₁, wrote₁⟩ := Stream.put_wrote
    (show [type.code].length ≤ s.writeable by simp only [length_singleton]; omega)
  obtain ⟨s₂, put₂, wrote₂⟩ := Stream.put_wrote (show [UInt8.ofNat length].length ≤ s₁.writeable by
    rw [wrote₁.writeable]
    simp only [length_singleton]
    omega)
  refine ⟨s₁.endp, s₂, ?_, wrote₁.trans wrote₂⟩
  simp [assegmentHeaderPut, if_pos (show length ≤ asSegmentMax from most), Stream.putc, put₁, put₂]

/-- A header and its data make up one piece. -/
theorem piece_wrote (most : num ≤ 255) (enough : num ≤ as.length)
    (room : assegmentSize num use32bit ≤ s.writeable) :
    ∃ lenp s₁ s₂, assegmentHeaderPut s type num = some (lenp, s₁) ∧
      assegmentDataPut s₁ as num use32bit = some s₂ ∧
      s.Wrote (pieceBytes use32bit type (as.take num)) s₂ := by
  rw [assegmentSize] at room
  obtain ⟨lenp, s₁, header, wrote₁⟩ := assegmentHeaderPut_wrote s type most (by omega)
  obtain ⟨s₂, data, wrote₂⟩ := assegmentDataPut_wrote use32bit s₁ most enough (by
    rw [wrote₁.writeable]
    simp only [length_cons, length_nil]
    omega)
  refine ⟨lenp, s₁, s₂, header, data, ?_⟩
  rw [pieceBytes, List.length_take, Nat.min_eq_left enough]
  exact wrote₁.trans wrote₂

end

/-- The overlength loop with `m` full pieces to go. -/
theorem putPieces_wrote (use32bit : Bool) (seg : Segment) (m j rounds bytes : Nat) (s : Stream)
    (more : 255 * (j + m) < seg.length) (last : seg.length ≤ 255 * (j + m) + 255)
    (enough : m < rounds) (room : m * assegmentSize 255 use32bit ≤ s.writeable) :
    ∃ s', putPieces seg use32bit rounds (255 * j) bytes s = some (255 * (j + m),
        bytes + ((range m).map fun i => assegmentSize (255 * (j + i + 1)) use32bit).sum, s') ∧
      s.Wrote ((replicate m (seg.as.take 255)).flatMap (pieceBytes use32bit seg.type)) s' := by
  induction m generalizing j rounds bytes s with
  | zero =>
    obtain ⟨rounds, rfl⟩ : ∃ k, rounds = k + 1 := ⟨rounds - 1, by omega⟩
    have done : ¬ seg.length - 255 * j > asSegmentMax := by
      rw [asSegmentMax]
      omega
    refine ⟨s, ?_, .refl s⟩
    rw [putPieces, if_neg done]
    simp
  | succ m ih =>
    obtain ⟨rounds, rfl⟩ : ∃ k, rounds = k + 1 := ⟨rounds - 1, by omega⟩
    have overlong : seg.length - 255 * j > asSegmentMax := by
      rw [asSegmentMax]
      omega
    have long : 255 ≤ seg.as.length := by
      rw [Segment.length] at overlong more
      omega
    rw [Nat.succ_mul] at room
    obtain ⟨lenp, s₁, s₂, header, data, wrote⟩ :=
      piece_wrote use32bit s seg.type (le_refl 255) long (by omega)
    have room₂ : m * assegmentSize 255 use32bit ≤ s₂.writeable := by
      rw [wrote.writeable, length_pieceBytes, List.length_take, Nat.min_eq_left long]
      omega
    obtain ⟨s', rest, wrote'⟩ := ih (j + 1) rounds
      (bytes + assegmentSize (255 * (j + 1)) use32bit) s₂ (by omega) (by omega) (by omega) room₂
    refine ⟨s', ?_, ?_⟩
    · rw [putPieces, if_pos overlong]
      simp only [asSegmentMax, header, data, Option.bind_eq_bind, Option.bind_some]
      rw [show 255 * j + 255 = 255 * (j + 1) by ring, rest,
        range_succ_eq_map, map_cons, sum_cons, map_map]
      simp only [Function.comp_def, Nat.succ_eq_add_one, Option.some.injEq, Prod.mk.injEq,
        and_true, add_zero]
      refine ⟨by ring, ?_⟩
      rw [add_assoc]
      congr 2
      exact congrArg List.sum (map_congr_left fun i _ => by
        rw [show j + 1 + i + 1 = j + (i + 1) + 1 by omega])
    · rw [replicate_succ, flatMap_cons]
      exact wrote.trans wrote'

theorem Segment.length_wire (seg : Segment) (use32bit : Bool) :
    (seg.wire use32bit).length = seg.fullPieces * assegmentSize 255 use32bit +
      assegmentSize (seg.length - 255 * seg.fullPieces) use32bit := by
  simp only [wire, pieces, flatMap_append, length_append, length_flatMap,
    length_pieceBytes, map_replicate, sum_replicate, map_cons, map_nil,
    sum_cons, sum_nil, length_drop, smul_eq_mul, add_zero]
  rcases Nat.eq_zero_or_pos seg.fullPieces with none | some
  · simp [none, Segment.length]
  · rw [Segment.length_take some]
    rfl

theorem packNext_apart {written lenp : Nat}
    (apart : (seg :: next).IsChain fun x y => x.typesPackable y = false) :
    packNext seg written lenp use32bit next 0 s = some (next, 0, s) := by
  cases next with
  | nil => rfl
  | cons y rest =>
    rw [isChain_cons_cons] at apart
    rw [packNext, Segment.packable, apart.1]
    rfl

/-- One round of `aspath_put` writes one segment. -/
theorem putSegments_round (rounds bytes : Nat) (nonempty : seg.as ≠ [])
    (apart : (seg :: next).IsChain fun x y => x.typesPackable y = false)
    (room : (seg.wire use32bit).length ≤ s.writeable) :
    ∃ s', s.Wrote (seg.wire use32bit) s' ∧
      putSegments use32bit (rounds + 1) (seg :: next) bytes s =
        putSegments use32bit rounds next (bytes + seg.count use32bit) s' := by
  have bounds := fullPieces_lt nonempty
  rw [length_wire seg use32bit] at room
  have size : assegmentSize seg.length use32bit ≤ s.writeable := by
    refine le_trans ?_ room
    have := bounds.1
    obtain ⟨r, hr⟩ : ∃ r, seg.length = 255 * seg.fullPieces + r :=
      ⟨seg.length - 255 * seg.fullPieces, by omega⟩
    simp only [assegmentSize, hr, Nat.add_sub_cancel_left]
    nlinarith
  obtain ⟨s₁, pieces, wrote₁⟩ :=
    putPieces_wrote use32bit seg seg.fullPieces 0 seg.length bytes s (by omega)
      (by omega) (by omega) (by omega)
  have left : assegmentSize (seg.length - 255 * seg.fullPieces) use32bit ≤ s₁.writeable := by
    rw [wrote₁.writeable]
    have full : ((replicate seg.fullPieces (seg.as.take 255)).flatMap
        (pieceBytes use32bit seg.type)).length = seg.fullPieces * assegmentSize 255 use32bit := by
      rcases Nat.eq_zero_or_pos seg.fullPieces with none | some
      · simp [none]
      · simp [length_flatMap, length_pieceBytes, Segment.length_take some]
    omega
  obtain ⟨lenp, s₂, s₃, header, data, wrote₃⟩ := piece_wrote use32bit s₁ seg.type (by omega)
    (show seg.length - 255 * seg.fullPieces ≤ (seg.as.drop (255 * seg.fullPieces)).length by
      rw [length_drop]
      rfl) left
  refine ⟨s₃, ?_, ?_⟩
  · rw [Segment.wire, Segment.pieces, flatMap_append]
    rw [take_of_length_le (by rw [length_drop]; rfl)] at wrote₃
    simpa using wrote₁.trans wrote₃
  · simp only [mul_zero, zero_add] at pieces
    rw [putSegments, if_pos size, pieces]
    simp only [Option.bind_eq_bind, Option.bind_some, header, data, packNext_apart apart,
      add_zero, Segment.count, add_assoc]

theorem putSegments_wrote (bytes rounds : Nat) (s : Stream) (nonempty : ∀ seg ∈ segs, seg.as ≠ [])
    (apart : segs.IsChain fun x y => x.typesPackable y = false) (enough : segs.length ≤ rounds)
    (room : (wire use32bit segs).length ≤ s.writeable) :
    ∃ s', putSegments use32bit rounds segs bytes s =
        some (s', bytes + (segs.map (Segment.count use32bit)).sum) ∧
      s.Wrote (wire use32bit segs) s' := by
  induction segs generalizing bytes rounds s with
  | nil =>
    refine ⟨s, ?_, .refl s⟩
    cases rounds <;> rfl
  | cons seg next ih =>
    obtain ⟨rounds, rfl⟩ : ∃ k, rounds = k + 1 := ⟨rounds - 1, by
      rw [length_cons] at enough
      omega⟩
    simp only [wire, flatMap_cons, length_append] at room
    obtain ⟨s₁, wrote, round⟩ := putSegments_round rounds bytes
      (nonempty seg (by simp)) apart (show (seg.wire use32bit).length ≤ s.writeable by omega)
    obtain ⟨s₂, rest, wrote'⟩ := ih (bytes + seg.count use32bit) rounds s₁
      (fun x hx => nonempty x (by simp [hx])) apart.tail
      (by simpa using enough) (by
        rw [wrote.writeable, wire]
        omega)
    refine ⟨s₂, ?_, ?_⟩
    · rw [round, rest, map_cons, sum_cons, add_assoc]
    · rw [wire, flatMap_cons]
      exact wrote.trans wrote'

/-- With room for it a path is written in pieces, and the count returned is the sum of the
segments' counts. -/
theorem aspathPut_spec (normal : Normal segs) (room : (wire use32bit segs).length ≤ s.writeable) :
    ∃ s', aspathPut s segs use32bit = some (s', (segs.map (Segment.count use32bit)).sum) ∧
      s.Wrote (wire use32bit segs) s' := by
  cases segs with
  | nil => exact ⟨s, rfl, .refl s⟩
  | cons seg next =>
    have nonempty : seg.length ≠ 0 := by
      have := normal.nonempty seg (by simp)
      simpa [Segment.length] using this
    rw [aspathPut, if_neg nonempty]
    simpa using putSegments_wrote 0 _ s normal.nonempty normal.apart (le_refl _) room

/-! ## What is read back -/

/-- The segments that arrive when `seg` is sent. -/
def Segment.arrive (use32bit : Bool) (seg : Segment) : List Segment :=
  seg.pieces.map fun as => .ofData seg.type (as.map (narrow use32bit))

theorem SegType.ofCode_code (type : SegType) : SegType.ofCode type.code = some type := by
  cases type <;> decide

theorem narrow_lt {use32bit : Bool} {as : As} :
    (narrow use32bit as).val < 256 ^ asValueSize use32bit := by
  cases use32bit with
  | true =>
    have := as.isLt
    simp only [narrow, asValueSize, if_true]
    omega
  | false =>
    simp only [narrow, asValueSize, Bool.false_eq_true, if_false]
    split
    · next small =>
      have := Fin.le_def.mp small
      simp only [bgpAsMax] at this
      exact lt_of_le_of_lt this (by decide)
    · decide

theorem getAsns_asBytes (use32bit : Bool) (as : List As) (tail : List UInt8) :
    getAsns use32bit as.length (as.flatMap (asBytes use32bit) ++ tail) =
      some (as.map (narrow use32bit), tail) := by
  induction as with
  | nil => rfl
  | cons a as ih =>
    have size := length_asBytes use32bit a
    have value : ofBe (asBytes use32bit a) = (narrow use32bit a).val := by
      rw [asBytes, ofBe_toBe, Nat.mod_eq_of_lt narrow_lt]
    rw [length_cons, flatMap_cons, append_assoc, getAsns, if_neg (by
      rw [length_append]
      omega), take_left' size, drop_left' size, ih, value]
    simp

/-- A reader that finds well-formed pieces reads them all. -/
theorem parseSegments_pieces {ps : List (SegType × List As)}
    {tail : List UInt8} (rounds bytes : Nat)
    (sizes : ∀ p ∈ ps, p.2 ≠ [] ∧ p.2.length ≤ 255) (enough : ps.length < rounds)
    (ends : bytes + (ps.flatMap fun p => pieceBytes use32bit p.1 p.2).length = length) :
    parseSegments length use32bit rounds bytes
        ((ps.flatMap fun p => pieceBytes use32bit p.1 p.2) ++ tail) =
      some (ps.map fun p => .ofData p.1 (p.2.map (narrow use32bit))) := by
  induction ps generalizing rounds bytes with
  | nil =>
    obtain ⟨rounds, rfl⟩ : ∃ k, rounds = k + 1 := ⟨rounds - 1, by omega⟩
    have done : ¬ bytes < length := by
      simp only [flatMap_nil, length_nil] at ends
      omega
    rw [parseSegments.eq_def]
    simp only [done, if_false, map_nil]
  | cons p ps ih =>
    obtain ⟨rounds, rfl⟩ : ∃ k, rounds = k + 1 := ⟨rounds - 1, by omega⟩
    obtain ⟨type, as⟩ := p
    obtain ⟨nonempty, most⟩ : as ≠ [] ∧ as.length ≤ 255 := sizes (type, as) (by simp)
    have one : 0 < as.length := length_pos_iff.mpr nonempty
    have len : (UInt8.ofNat as.length).toNat = as.length := by
      rw [UInt8.toNat_ofNat']
      omega
    simp only [flatMap_cons, length_append, length_pieceBytes] at ends
    have wide : 2 ≤ asValueSize use32bit := by
      cases use32bit <;> decide
    have size : 2 < assegmentSize as.length use32bit := by
      rw [assegmentSize]
      nlinarith
    have rest := ih rounds (bytes + assegmentSize as.length use32bit)
      (fun p hp => sizes p (by simp [hp])) (by simpa using enough) (by omega)
    have within : bytes < length := by omega
    have long : ¬ length - bytes ≤ 2 := by omega
    have fits : ¬ (bytes + assegmentSize as.length use32bit > length ∨ as.length = 0) := by
      omega
    rw [flatMap_cons, append_assoc, pieceBytes, append_assoc]
    simp only [cons_append, nil_append, parseSegments, if_pos within, if_neg long,
      len, if_neg fits, SegType.ofCode_code, getAsns_asBytes, rest, Option.bind_eq_bind,
      Option.bind_some, map_cons]

theorem two_mul_length_le_pieces (use32bit : Bool) (ps : List (SegType × List As)) :
    2 * ps.length ≤ (ps.flatMap fun p => pieceBytes use32bit p.1 p.2).length := by
  induction ps with
  | nil => exact zero_le
  | cons p ps ih =>
    rw [flatMap_cons, length_append, length_pieceBytes, assegmentSize, length_cons]
    omega

theorem Segment.pieces_sizes (nonempty : seg.as ≠ []) :
    ∀ as ∈ seg.pieces, as ≠ [] ∧ as.length ≤ 255 := by
  intro as has
  have bounds := fullPieces_lt nonempty
  simp only [pieces, mem_append, mem_replicate, mem_singleton] at has
  rcases has with ⟨some, rfl⟩ | rfl
  · have := length_take (Nat.pos_of_ne_zero some)
    exact ⟨length_pos_iff.mp (by omega), by omega⟩
  · have : (seg.as.drop (255 * seg.fullPieces)).length = seg.length - 255 * seg.fullPieces :=
      length_drop
    exact ⟨length_pos_iff.mp (by omega), by omega⟩

theorem even_length_wire (use32bit : Bool) (segs : List Segment) :
    (wire use32bit segs).length % 2 = 0 := by
  have even : ∀ n, assegmentSize n use32bit % 2 = 0 := by
    intro n
    cases use32bit
    · simp only [assegmentSize, asValueSize, Bool.false_eq_true, if_false]
      omega
    · simp only [assegmentSize, asValueSize, if_true]
      omega
  induction segs with
  | nil => rfl
  | cons seg segs ih =>
    have first := even 255
    have last := even (seg.length - 255 * seg.fullPieces)
    rw [wire, flatMap_cons, length_append, length_wire]
    have full : seg.fullPieces * assegmentSize 255 use32bit % 2 = 0 := by
      rw [Nat.mul_mod, first, Nat.mul_zero]
    rw [wire] at ih
    omega

theorem aspathParse_wire (tail : List UInt8) (nonempty : ∀ seg ∈ segs, seg.as ≠ []) :
    aspathParse (wire use32bit segs ++ tail) (wire use32bit segs).length use32bit =
      some (assegmentNormalise (segs.flatMap (Segment.arrive use32bit))) := by
  have even := even_length_wire use32bit segs
  rw [aspathParse, if_neg (by omega), assegmentsParse]
  cases segs with
  | nil => rfl
  | cons seg next =>
    let ps := (seg :: next).flatMap fun seg => seg.pieces.map fun as => (seg.type, as)
    have bytes : wire use32bit (seg :: next) = ps.flatMap fun p => pieceBytes use32bit p.1 p.2 := by
      simp only [ps, wire, flatMap_assoc, flatMap_map]
      rfl
    have sizes : ∀ p ∈ ps, p.2 ≠ [] ∧ p.2.length ≤ 255 := by
      intro p hp
      obtain ⟨seg', hseg', hp⟩ := mem_flatMap.mp hp
      obtain ⟨as, has, rfl⟩ := mem_map.mp hp
      exact pieces_sizes (nonempty seg' hseg') as has
    have some : 0 < ps.length := by
      apply length_pos_iff.mpr
      simp [ps, Segment.pieces]
    have long := two_mul_length_le_pieces use32bit ps
    rw [bytes] at even ⊢
    rw [if_neg (by omega), if_neg (by rw [length_append]; omega),
      parseSegments_pieces _ 0 sizes (by omega) (zero_add _)]
    simp only [ps, map_flatMap, map_map, Option.map_some, Function.comp_def]
    rfl

theorem assegmentNormalise_append {run : List Segment} {rest : List Segment}
    (others : ∀ seg ∈ run, seg.type ≠ .asSequence) :
    assegmentNormalise (run ++ rest) = run.map Segment.sortSet ++ assegmentNormalise rest := by
  induction run with
  | nil => rfl
  | cons seg run ih =>
    have first : seg.type ≠ .asSequence := others seg (by simp)
    have kept : ∀ next : List Segment,
        normaliseFrom seg.sortSet next = seg.sortSet :: assegmentNormalise next := by
      intro next
      cases next with
      | nil => rfl
      | cons y next =>
        have : seg.sortSet.typesPackable y = false := by
          rw [← Bool.not_eq_true, typesPackable_iff, sortSet_type]
          exact fun h => first h.1
        rw [normaliseFrom, if_neg (by simp [this]), assegmentNormalise]
    rw [cons_append, assegmentNormalise, kept,
      ih fun seg hseg => others seg (by simp [hseg]), map_cons, cons_append]

/-- What a reader makes of a segment: the pieces of a sequence in one again, those of
another segment one by one. -/
def Segment.back (use32bit : Bool) (seg : Segment) : List Segment :=
  if seg.type = .asSequence then
    [.ofData .asSequence (seg.pieces.flatten.map (narrow use32bit))]
  else (seg.arrive use32bit).map Segment.sortSet

theorem Segment.length_flatten_pieces (seg : Segment) : seg.pieces.flatten.length = seg.length := by
  simp only [pieces, flatten_append, length_append, length_flatten,
    map_replicate, sum_replicate, flatten_cons, flatten_nil,
    append_nil, length_drop, smul_eq_mul]
  rcases Nat.eq_zero_or_pos seg.fullPieces with none | some
  · simp [none, length]
  · rw [length_take some]
    simp only [fullPieces, length]
    omega

theorem Segment.arrive_as (use32bit : Bool) (nonempty : seg.as ≠ []) :
    (seg.arrive use32bit).flatMap Segment.as = seg.pieces.flatten.map (narrow use32bit) := by
  rw [arrive, flatMap_map, map_flatten, flatMap_def]
  congr 1
  apply map_congr_left
  intro as has
  have := (pieces_sizes nonempty as has).2
  exact ofData_as (by rw [length_map]; omega)

theorem Segment.arrive_type {x : Segment} (h : x ∈ seg.arrive use32bit) : x.type = seg.type := by
  obtain ⟨as, _, rfl⟩ := mem_map.mp h
  rfl

theorem Segment.arrive_ne_nil (use32bit : Bool) (seg : Segment) : seg.arrive use32bit ≠ [] := by
  simp [arrive, pieces]

theorem Normal.tail (h : Normal (seg :: segs)) : Normal segs :=
  ⟨fun x hx => h.nonempty x (by simp [hx]), fun x hx => h.strict x (by simp [hx]), h.apart.tail⟩

/-- Reading what was written, segment by segment. -/
theorem normalise_arrive (use32bit : Bool) (normal : Normal segs) :
    assegmentNormalise (segs.flatMap (Segment.arrive use32bit)) =
      segs.flatMap (Segment.back use32bit) := by
  induction segs with
  | nil => rfl
  | cons seg segs ih =>
    rw [flatMap_cons, flatMap_cons, ← ih normal.tail]
    have nonempty := normal.nonempty seg (by simp)
    by_cases sequence : seg.type = .asSequence
    · obtain ⟨x, xs, eq⟩ := exists_cons_of_ne_nil (arrive_ne_nil use32bit seg)
      have types : ∀ y ∈ x :: xs, y.type = .asSequence := by
        intro y hy
        rw [← eq] at hy
        exact (arrive_type hy).trans sequence
      have data := arrive_as use32bit nonempty
      have stop : ∀ y ∈ (segs.flatMap (Segment.arrive use32bit)).head?, y.type ≠ .asSequence := by
        intro y hy
        cases segs with
        | nil => simp at hy
        | cons z segs =>
          have apart := (isChain_cons_cons.mp normal.apart).1
          rw [flatMap_cons, head?_append_of_ne_nil _ (arrive_ne_nil use32bit z)] at hy
          rw [arrive_type (mem_of_mem_head? hy)]
          intro zseq
          rw [typesPackable_iff.mpr ⟨sequence, zseq⟩] at apart
          exact absurd apart (by decide)
      rw [eq, flatMap_cons] at data
      have fits : (x.as ++ xs.flatMap Segment.as).length < 65536 := by
        rw [data, length_map, length_flatten_pieces]
        exact seg.length_lt
      have unsorted : x.sortSet = x := sortSet_of_not_set (by
        rw [types x (by simp)]
        rfl)
      rw [Segment.back, if_pos sequence, eq, cons_append, assegmentNormalise, unsorted,
        normaliseFrom_sequences (types x (by simp)) (fun y hy => types y (by simp [hy])) stop
          fits, data, singleton_append]
    · rw [Segment.back, if_neg sequence, assegmentNormalise_append]
      intro y hy
      rwa [arrive_type hy]

/-! ## Round trips -/

theorem Segment.flatten_pieces (h : seg.length ≤ 510) : seg.pieces.flatten = seg.as := by
  have few : seg.fullPieces = 0 ∨ seg.fullPieces = 1 := by
    simp only [fullPieces]
    omega
  rcases few with none | one
  · simp [pieces, none]
  · simp [pieces, one]

theorem Segment.pieces_eq_singleton (h : seg.length ≤ 255) : seg.pieces = [seg.as] := by
  have none : seg.fullPieces = 0 := by
    simp only [fullPieces]
    omega
  simp [pieces, none]

theorem map_narrow_true (as : List As) : as.map (narrow true) = as := map_id as

theorem Segment.ofData_self (seg : Segment) : ofData seg.type seg.as = seg :=
  ext_as rfl (ofData_as seg.length_lt)

theorem Segment.back_true (short : seg.length ≤ 510)
    (other : seg.type ≠ .asSequence → seg.length ≤ 255)
    (strict : seg.type.isSet = true → seg.as.Pairwise (· < ·)) : seg.back true = [seg] := by
  by_cases sequence : seg.type = .asSequence
  · rw [back, if_pos sequence, flatten_pieces short, map_narrow_true, ← sequence, ofData_self]
  · rw [back, if_neg sequence, arrive, pieces_eq_singleton (other sequence), map_singleton,
      map_narrow_true, ofData_self, map_singleton, sortSet_of_strict strict]

theorem counts_spec (use32bit : Bool) (m : Nat) : m * assegmentSize 255 use32bit ≤
        ((range m).map fun i => assegmentSize (255 * (i + 1)) use32bit).sum ∧
      (((range m).map fun i => assegmentSize (255 * (i + 1)) use32bit).sum =
        m * assegmentSize 255 use32bit ↔ m ≤ 1) := by
  have wide : 0 < asValueSize use32bit := by
    cases use32bit <;> decide
  induction m with
  | zero => simp
  | succ m ih =>
    rw [range_succ, map_append, sum_append, Nat.succ_mul]
    have grows : assegmentSize (255 * (m + 1)) use32bit =
        assegmentSize 255 use32bit + 255 * m * asValueSize use32bit := by
      simp only [assegmentSize]
      ring
    simp only [map_singleton, sum_singleton, grows]
    have positive : 0 < m → 0 < 255 * m * asValueSize use32bit := fun h => by positivity
    constructor
    · omega
    · constructor
      · intro same
        by_contra more
        have := positive (by omega)
        omega
      · intro few
        obtain rfl : m = 0 := by omega
        simp

theorem Segment.wire_le_count (use32bit : Bool) (seg : Segment) :
    (seg.wire use32bit).length ≤ seg.count use32bit ∧
      (seg.count use32bit = (seg.wire use32bit).length ↔ seg.length ≤ 510) := by
  obtain ⟨least, tight⟩ := counts_spec use32bit seg.fullPieces
  rw [length_wire, Segment.count]
  have pieces : seg.fullPieces ≤ 1 ↔ seg.length ≤ 510 := by
    simp only [fullPieces]
    omega
  rw [← pieces, ← tight]
  omega

theorem counts_eq_iff (use32bit : Bool) (segs : List Segment) :
    (wire use32bit segs).length ≤ (segs.map (Segment.count use32bit)).sum ∧
      ((segs.map (Segment.count use32bit)).sum = (wire use32bit segs).length ↔
        ∀ seg ∈ segs, seg.length ≤ 510) := by
  induction segs with
  | nil => simp [wire]
  | cons seg segs ih =>
    obtain ⟨least, tight⟩ := seg.wire_le_count use32bit
    rw [wire] at ih
    rw [wire, flatMap_cons, length_append, map_cons, sum_cons, forall_mem_cons, ← ih.2, ← tight]
    omega

/-- The path is written to `s`, the number returned is the number of bytes written, and parsing them
gives a path that compares equal. -/
def PutRoundTrips (s : Stream) (segs : List Segment) : Prop :=
  ∃ s' bytes out, aspathPut s segs true = some (s', bytes) ∧ s.Wrote out s' ∧
    bytes = out.length ∧ ∃ path, aspathParse out out.length true = some path ∧
      aspathCmp path segs = true

theorem putRoundTrips_iff {s : Stream} {segs : List Segment} (normal : Normal segs)
    (others : ∀ seg ∈ segs, seg.type ≠ .asSequence → seg.length ≤ 255)
    (room : (wire true segs).length ≤ s.writeable) :
    PutRoundTrips s segs ↔ ∀ seg ∈ segs, seg.type = .asSequence → seg.length ≤ 510 := by
  obtain ⟨s', put, wrote⟩ := aspathPut_spec normal room
  have counted := (counts_eq_iff true segs).2
  constructor
  · rintro ⟨s₁, bytes, out, put₁, wrote₁, length, _⟩ seg hseg _
    rw [put] at put₁
    obtain ⟨rfl, rfl⟩ : s' = s₁ ∧ (segs.map (Segment.count true)).sum = bytes := by
      simpa using put₁
    have same : out = wire true segs :=
      append_cancel_left (wrote₁.2.symm.trans wrote.2)
    exact counted.mp (same ▸ length) seg hseg
  · intro short
    have all : ∀ seg ∈ segs, seg.length ≤ 510 := by
      intro seg hseg
      by_cases sequence : seg.type = .asSequence
      · exact short seg hseg sequence
      · exact (others seg hseg sequence).trans (by decide)
    have parsed : aspathParse (wire true segs ++ []) (wire true segs).length true =
        some (assegmentNormalise (segs.flatMap (Segment.arrive true))) :=
      aspathParse_wire [] normal.nonempty
    have same : segs.flatMap (Segment.back true) = segs := by
      rw [flatMap_congr fun seg hseg => back_true (all seg hseg)
        (others seg hseg) (normal.strict seg hseg)]
      simp
    rw [append_nil, normalise_arrive true normal, same] at parsed
    exact ⟨s', _, wire true segs, put, wrote, counted.mpr all, segs, parsed, aspathCmp_iff.mpr rfl⟩

/-- A packet buffer of `BGP_MAX_PACKET_SIZE` bytes with nothing in it. -/
def emptyPacket : Stream := ⟨4096, [], by decide⟩

theorem mixedPath_roundTrips : PutRoundTrips emptyPacket
      [.ofData .asSequence (replicate 300 4200000000), .ofData .asSet [7, 9]] :=
  (putRoundTrips_iff (by decide +kernel) (by decide +kernel) (by decide +kernel)).mpr
    (by decide +kernel)

/-- Three pieces: 2050 bytes are written, 3070 are reported. -/
theorem threePieces_miscounted :
    ∃ s', aspathPut emptyPacket [.ofData .asSequence (replicate 511 65001)] true =
        some (s', 3070) ∧
      s'.data.length = 2050 := by
  have room : (wire true [.ofData .asSequence (replicate 511 65001)]).length = 2050 := by
    decide +kernel
  have count : ([Segment.ofData .asSequence (replicate 511 65001)].map
      (Segment.count true)).sum = 3070 := by
    decide +kernel
  obtain ⟨s', put, wrote⟩ := aspathPut_spec (s := emptyPacket) (by decide +kernel)
    (room.le.trans (by decide))
  refine ⟨s', count ▸ put, ?_⟩
  rw [wrote.2, length_append, room]
  rfl

end Mp2mp.Bgpd
