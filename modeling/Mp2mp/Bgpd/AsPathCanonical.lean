import Mp2mp.Kit.Printing
import Mp2mp.Bgpd.AsPathReconcile
import Mp2mp.Bgpd.AsPathAggregate

/-!
# AS path operations and the canonical form

The operations of `bgp_aspath.c` that return a path, the text of a path, and the table of
interned paths.  Paths are interned by `aspath_cmp` under a key made from their text, so two
equal paths share one object only when both are in canonical form.

* `aspathStr_injective`: a path in canonical form is determined by its text.
* `canonical_iff`: which operations keep the canonical form, and when.
-/

namespace Mp2mp.Bgpd

open Kit List SegType
open Segment hiding length

variable {seg : Segment} {segs rest front rest2 : List Segment} {type : SegType}
  {use32bit : Bool} {start stop : Char} {rest' segs' path as1 as2 : List Segment} {seg' : Segment}
  {r : List UInt8} {num length : Nat}

/-! ## The operations -/

def aspathDeleteConfedSeq (segs : List Segment) : List Segment :=
  match segs with
  | [] => []
  | seg :: _ =>
    if seg.type ≠ .asConfedSequence then segs
    else segs.dropWhile fun seg => seg.type.isConfed

/-- `aspath_prepend`.  `seg2` is not fetched again after `aspath_delete_confed_seq` has freed
it: its type, overwritten by `assegment_free`, is none of the segment types. -/
def aspathPrepend (as1 as2 : List Segment) : Option (List Segment) :=
  match as1.getLast?, as2 with
  | _, [] => some as1
  | none, _ => some as2
  | some seg1, seg2 :: rest2 =>
    if seg1.type = .asSequence ∧ seg2.type = .asConfedSequence then
      aspathMerge as1 (aspathDeleteConfedSeq as2)
    else if seg1.type ≠ seg2.type then aspathMerge as1 as2
    else if seg1.type = .asSequence then
      some (as1.dropLast ++ seg1.appendAsns seg2.as :: rest2)
    else aspathMerge as1 as2

/-- The ASNs of a segment that no segment of the list names. -/
def Segment.excluding (excludeList : List Segment) (seg : Segment) : List As :=
  seg.as.filter fun as => !excludeList.any fun exclseg => exclseg.as.contains as

def aspathFilterExclude (source excludeList : List Segment) : List Segment :=
  source.filterMap fun srcseg =>
    match srcseg.excluding excludeList with
    | [] => none
    | as => some (.ofData srcseg.type as)

/-- `aspath_add_asns`.  The data of a new segment is allocated for `num` as a `u_short`; a
larger `num` writes beyond it. -/
def aspathAddAsns (segs : List Segment) (asno : As) (type : SegType) (num : Nat) :
    Option (List Segment) :=
  match segs with
  | seg :: rest =>
    if seg.type = type then some (seg.prependAsns asno num :: rest)
    else if num ≥ 65536 then none
    else if seg.length = 0 then some (.ofData type (replicate num asno) :: rest)
    else some (.ofData type (replicate num asno) :: seg :: rest)
  | [] => if num ≥ 65536 then none else some [.ofData type (replicate num asno)]

def aspathAddSeqN (segs : List Segment) (asno : As) (num : Nat) : Option (List Segment) :=
  aspathAddAsns segs asno .asSequence num

def aspathAddConfedSeq (segs : List Segment) (asno : As) : Option (List Segment) :=
  aspathAddAsns segs asno .asConfedSequence 1

/-- A call of one of the operations. -/
inductive Operation
  | parse (r : List UInt8) (length : Nat) (use32bit : Bool)
  | prepend (as1 as2 : List Segment)
  | addSeqN (segs : List Segment) (asno : As) (num : Nat)
  | addConfedSeq (segs : List Segment) (asno : As)
  | deleteConfedSeq (segs : List Segment)
  | filterExclude (source excludeList : List Segment)
  | aggregate (as1 as2 : List Segment)
  | reconcileAs4 (aspath as4path : List Segment)

open Operation

namespace Operation

/-- The path returned.  There is none when a received path is malformed, or when a wrapped
length has the operation write outside its data. -/
def run : Operation → Option (List Segment)
  | parse r length use32bit => aspathParse r length use32bit
  | prepend as1 as2 => aspathPrepend as1 as2
  | addSeqN segs asno num => aspathAddSeqN segs asno num
  | addConfedSeq segs asno => aspathAddConfedSeq segs asno
  | deleteConfedSeq segs => some (aspathDeleteConfedSeq segs)
  | filterExclude source excludeList => some (aspathFilterExclude source excludeList)
  | aggregate as1 as2 => aspathAggregate as1 as2
  | reconcileAs4 aspath as4path => aspathReconcileAs4 aspath as4path

def paths : Operation → List (List Segment)
  | parse .. => []
  | prepend as1 as2 => [as1, as2]
  | addSeqN segs _ _ => [segs]
  | addConfedSeq segs _ => [segs]
  | deleteConfedSeq segs => [segs]
  | filterExclude source excludeList => [source, excludeList]
  | aggregate as1 as2 => [as1, as2]
  | reconcileAs4 aspath as4path => [aspath, as4path]

/-- The number of ASNs that an operation puts into one segment, at most.  Two bytes are received
for each; where nothing is put together there is nothing to count. -/
def asns : Operation → Nat
  | parse _ length _ => length / 2
  | prepend as1 as2 => ((as1.getLast?.toList ++ as2.head?.toList).flatMap Segment.as).length
  | addSeqN segs _ num => (segs.head?.toList.flatMap Segment.as).length + num
  | addConfedSeq segs _ => (segs.head?.toList.flatMap Segment.as).length + 1
  | deleteConfedSeq _ | filterExclude .. => 0
  | aggregate as1 as2 | reconcileAs4 as1 as2 => ((as1 ++ as2).flatMap Segment.as).length

/-- Whether a path is returned in any case. -/
def IsParse : Operation → Prop
  | parse .. => True
  | _ => False

/-- What is returned is in canonical form, and only `aspath_parse` may return nothing. -/
def Canonical (op : Operation) : Prop :=
  (∀ path, op.run = some path → Normal path) ∧ (op.run = none → op.IsParse)

/-- No leading confederation segments between two sequences are stripped, no empty sequence is put
in front, and no exclusion empties what stands between two sequences. -/
def Keeps : Operation → Prop
  | prepend as1 as2 =>
    (∃ seg ∈ as1.getLast?, seg.type = .asSequence) →
      (∃ seg ∈ as2.head?, seg.type = .asConfedSequence) →
      ∀ seg ∈ (as2.dropWhile fun seg => seg.type.isConfed).head?, seg.type ≠ .asSequence
  | addSeqN segs _ num => num = 0 → ∃ seg ∈ segs.head?, seg.type = .asSequence
  | filterExclude source excludeList =>
    (source.filter fun seg => !(seg.excluding excludeList).isEmpty).IsChain
      fun x y => x.typesPackable y = false
  | _ => True

end Operation

/-! ## The text of a path -/

/-- `aspath_delimiter_char` -/
def SegType.delimiters : SegType → Option (Char × Char)
  | .asSet => some ('\x7b', '\x7d')
  | .asConfedSet => some ('[', ']')
  | .asConfedSequence => some ('(', ')')
  | .asSequence => none

def SegType.seperator (type : SegType) : Char := if type.isSet then ',' else ' '

def Segment.str (seg : Segment) : List Char :=
  let asns := joined seg.type.seperator (seg.as.map Fin.val)
  match seg.type.delimiters with
  | none => asns
  | some (start, stop) => start :: (asns ++ [stop])

/-- `aspath_make_str_count` -/
def aspathStr : List Segment → List Char
  | [] => []
  | [seg] => seg.str
  | seg :: next :: rest => seg.str ++ ' ' :: aspathStr (next :: rest)

def strBehind (rest : List Segment) : List Char :=
  match rest with
  | [] => []
  | rest => ' ' :: aspathStr rest

theorem aspathStr_cons {rest : List Segment} :
    aspathStr (seg :: rest) = seg.str ++ strBehind rest := by
  cases rest with
  | nil => simp [aspathStr, strBehind]
  | cons next rest => rfl

theorem Segment.str_of_delimiters (h : seg.type.delimiters = some (start, stop)) :
    seg.str = start :: (joined seg.type.seperator (seg.as.map Fin.val) ++ [stop]) := by
  simp only [str, h]

theorem Segment.str_sequence (h : seg.type = .asSequence) :
    seg.str = joined ' ' (seg.as.map Fin.val) := by
  simp only [str, h]
  rfl

theorem SegType.delimiters_digit (h : type.delimiters = some (start, stop)) :
    start.isDigit = false ∧ stop.isDigit = false ∧ stop ≠ type.seperator := by
  cases type <;> simp only [delimiters, Option.some.injEq, Prod.mk.injEq, reduceCtorEq] at h <;>
    obtain ⟨rfl, rfl⟩ := h <;> decide

theorem SegType.delimiters_inj {type' : SegType} {stop' : Char}
    (h : type.delimiters = some (start, stop)) (h' : type'.delimiters = some (start, stop')) :
    type = type' := by
  revert h h'
  cases type <;> cases type' <;> simp only [delimiters, Option.some.injEq, Prod.mk.injEq,
    reduceCtorEq, false_implies, implies_true] <;> rintro ⟨rfl, -⟩ ⟨eq, -⟩ <;>
    exact absurd eq (by decide)

theorem SegType.delimiters_eq_none (h : type.delimiters = none) : type = .asSequence := by
  cases type <;> simp_all [delimiters]

theorem SegType.seperator_digit {type : SegType} : type.seperator.isDigit = false := by
  cases type <;> decide

/-- The text of a segment that is not a sequence starts with its delimiter. -/
theorem Segment.str_noDigit (h : seg.type.delimiters = some (start, stop)) (r : List Char) :
    NoDigit (seg.str ++ r) := by
  intro c hc
  rw [str_of_delimiters h] at hc
  obtain rfl : start = c := by simpa using hc
  exact (delimiters_digit h).1

theorem aspathStr_noDigit
    (h : ∀ seg ∈ segs.head?, seg.type ≠ .asSequence) : NoDigit (aspathStr segs) := by
  cases segs with
  | nil => simp [aspathStr, NoDigit]
  | cons seg rest =>
    cases delimiters : seg.type.delimiters with
    | none => exact absurd (delimiters_eq_none delimiters) (h seg (by simp))
    | some pair =>
      rw [aspathStr_cons]
      exact str_noDigit delimiters _

theorem strBehind_ends (h : ∀ seg ∈ rest.head?, seg.type ≠ .asSequence) :
    Ends ' ' (strBehind rest) := by
  cases rest with
  | nil => exact ⟨by simp [strBehind, NoDigit], by simp [strBehind]⟩
  | cons seg rest =>
    refine ⟨fun c hc => ?_, fun tail eq => ?_⟩
    · obtain rfl : ' ' = c := by simpa [strBehind] using hc
      decide
    · have same : ' ' :: aspathStr (seg :: rest) = ' ' :: tail := eq
      exact (List.cons.inj same).2 ▸ aspathStr_noDigit h

theorem strBehind_injective (h : strBehind rest = strBehind rest')
    (inj : aspathStr rest = aspathStr rest' → rest = rest') : rest = rest' := by
  cases rest with
  | nil =>
    cases rest' with
    | nil => rfl
    | cons seg rest' => exact absurd h (by simp [strBehind])
  | cons seg rest =>
    cases rest' with
    | nil => exact absurd h (by simp [strBehind])
    | cons seg' rest' => exact inj (List.cons.inj h).2

/-- What follows a sequence in a path in canonical form is not one. -/
theorem Normal.behind_sequence (normal : Normal (seg :: rest))
    (sequence : seg.type = .asSequence) : ∀ next ∈ rest.head?, next.type ≠ .asSequence := by
  intro next hnext type
  cases rest with
  | nil => simp at hnext
  | cons z rest =>
    obtain rfl : z = next := by simpa using hnext
    have apart := (isChain_cons_cons.mp normal.apart).1
    rw [typesPackable_iff.mpr ⟨sequence, type⟩] at apart
    exact absurd apart (by decide)

theorem Segment.eq_of_vals (type : seg.type = seg'.type)
    (vals : seg.as.map Fin.val = seg'.as.map Fin.val) : seg = seg' :=
  ext_as type (map_injective_iff.mpr Fin.val_injective vals)

theorem Segment.str_head_digit (sequence : seg.type = .asSequence)
    (nonempty : seg.as ≠ []) (r : List Char) : ¬ NoDigit (seg.str ++ r) := by
  intro none
  obtain ⟨c, head, digit⟩ := joined_head ' ' (by simpa using nonempty : seg.as.map Fin.val ≠ [])
  rw [str_sequence sequence] at none
  have := none c (mem_head?_append_of_mem_head? head)
  rw [digit] at this
  exact absurd this (by decide)

/-- The first segment can be told from the text. -/
theorem first_segment_injective (normal : Normal (seg :: rest)) (normal' : Normal (seg' :: rest'))
    (h : seg.str ++ strBehind rest = seg'.str ++ strBehind rest') :
    seg = seg' ∧ strBehind rest = strBehind rest' := by
  have nonempty := normal.nonempty seg (by simp)
  have nonempty' := normal'.nonempty seg' (by simp)
  have vals : seg.as.map Fin.val ≠ [] := by simpa using nonempty
  have vals' : seg'.as.map Fin.val ≠ [] := by simpa using nonempty'
  cases delimiters : seg.type.delimiters with
  | none =>
    have sequence := delimiters_eq_none delimiters
    cases delimiters' : seg'.type.delimiters with
    | none =>
      have sequence' := delimiters_eq_none delimiters'
      rw [str_sequence sequence, str_sequence sequence'] at h
      obtain ⟨same, behind⟩ := joined_injective (by decide) vals vals'
        (strBehind_ends (normal.behind_sequence sequence))
        (strBehind_ends (normal'.behind_sequence sequence')) h
      exact ⟨eq_of_vals (sequence.trans sequence'.symm) same, behind⟩
    | some pair =>
      exact absurd (h ▸ str_noDigit delimiters' _) (str_head_digit sequence nonempty _)
  | some pair =>
    obtain ⟨start, stop⟩ := pair
    cases delimiters' : seg'.type.delimiters with
    | none =>
      have sequence' := delimiters_eq_none delimiters'
      exact absurd (h ▸ str_noDigit delimiters _) (str_head_digit sequence' nonempty' _)
    | some pair' =>
      obtain ⟨start', stop'⟩ := pair'
      rw [str_of_delimiters delimiters, str_of_delimiters delimiters',
        cons_append, cons_append, append_assoc, append_assoc,
        List.cons.injEq] at h
      obtain ⟨rfl, h⟩ := h
      have type := delimiters_inj delimiters delimiters'
      rw [type, delimiters', Option.some.injEq, Prod.mk.injEq] at delimiters
      obtain ⟨-, rfl⟩ := delimiters
      rw [type] at h
      have closed : ∀ r, Ends seg'.type.seperator ([stop'] ++ r) := by
        intro r
        obtain ⟨-, digit, other⟩ := delimiters_digit delimiters'
        refine ⟨fun c hc => ?_, fun tail eq => ?_⟩
        · obtain rfl : stop' = c := by simpa using hc
          exact digit
        · exact absurd (List.cons.inj eq).1 other
      obtain ⟨same, behind⟩ := joined_injective seperator_digit vals vals'
        (closed _) (closed _) h
      exact ⟨eq_of_vals type same, (List.cons.inj behind).2⟩

theorem aspathStr_injective {p q : List Segment} (normal : Normal p) (normal' : Normal q)
    (h : aspathStr p = aspathStr q) : p = q := by
  have empty : ∀ {seg : Segment} {rest : List Segment}, Normal (seg :: rest) →
      aspathStr (seg :: rest) ≠ [] := by
    intro seg rest normal none
    rw [aspathStr_cons] at none
    by_cases sequence : seg.type = .asSequence
    · have := str_head_digit sequence (normal.nonempty seg (by simp)) (strBehind rest)
      exact this (by simp [none, NoDigit])
    · cases delimiters : seg.type.delimiters with
      | none => exact sequence (delimiters_eq_none delimiters)
      | some pair => simp [str_of_delimiters delimiters] at none
  induction p generalizing q with
  | nil =>
    cases q with
    | nil => rfl
    | cons seg' rest' => exact absurd h.symm (empty normal')
  | cons seg rest ih =>
    cases q with
    | nil => exact absurd h (empty normal)
    | cons seg' rest' =>
      rw [aspathStr_cons, aspathStr_cons] at h
      obtain ⟨rfl, behind⟩ := first_segment_injective normal normal' h
      rw [strBehind_injective behind (ih normal.tail normal'.tail)]

/-! ## Canonical chains -/

theorem normal_append_iff : Normal (segs ++ segs') ↔ Normal segs ∧ Normal segs' ∧
      ∀ x ∈ segs.getLast?, ∀ y ∈ segs'.head?, x.typesPackable y = false := by
  constructor
  · intro normal
    have apart := isChain_append.mp normal.apart
    exact ⟨⟨fun x hx => normal.nonempty x (mem_append_left _ hx),
        fun x hx => normal.strict x (mem_append_left _ hx), apart.1⟩,
      ⟨fun x hx => normal.nonempty x (mem_append_right _ hx),
        fun x hx => normal.strict x (mem_append_right _ hx), apart.2.1⟩, apart.2.2⟩
  · rintro ⟨left, right, border⟩
    refine ⟨fun x hx => ?_, fun x hx => ?_, isChain_append.mpr ⟨left.apart, right.apart, border⟩⟩
    · exact (mem_append.mp hx).elim (left.nonempty x) (right.nonempty x)
    · exact (mem_append.mp hx).elim (left.strict x) (right.strict x)

theorem normal_nil : Normal [] := ⟨by simp, by simp, isChain_nil⟩

theorem normal_cons_iff :
    Normal (seg :: rest) ↔ seg.as ≠ [] ∧ (seg.type.isSet = true → seg.as.Pairwise (· < ·)) ∧
      Normal rest ∧ ∀ y ∈ rest.head?, seg.typesPackable y = false := by
  have single : Normal [seg] ↔ seg.as ≠ [] ∧ (seg.type.isSet = true → seg.as.Pairwise (· < ·)) :=
    ⟨fun h => ⟨h.nonempty seg (by simp), h.strict seg (by simp)⟩,
      fun h => ⟨by simpa using h.1, by simpa using h.2, isChain_singleton seg⟩⟩
  rw [← singleton_append, normal_append_iff, single, and_assoc]
  simp

theorem Normal.replace_head {x y : Segment} (normal : Normal (x :: rest))
    (type : x.type = y.type) (nonempty : y.as ≠ [])
    (strict : y.type.isSet = true → y.as.Pairwise (· < ·)) : Normal (y :: rest) := by
  obtain ⟨-, -, tail, border⟩ := normal_cons_iff.mp normal
  refine normal_cons_iff.mpr ⟨nonempty, strict, tail, fun z hz => ?_⟩
  have := border z hz
  rwa [Segment.typesPackable, type] at this

theorem Normal.of_suffix (normal : Normal segs) (suffix : segs' <:+ segs) : Normal segs' := by
  obtain ⟨front, rfl⟩ := suffix
  exact (normal_append_iff.mp normal).2.1

theorem typesPackable_eq_false {x y : Segment}
    (h : x.type = .asSequence → y.type ≠ .asSequence) : x.typesPackable y = false := by
  rw [← Bool.not_eq_true, typesPackable_iff]
  exact fun both => h both.1 both.2

/-! ### Parsing -/

theorem length_getAsns {n : Nat} {r' : List UInt8} {as : List As}
    (h : getAsns use32bit n r = some (as, r')) : as.length = n := by
  induction n generalizing r r' as with
  | zero =>
    rw [getAsns, Option.some.injEq, Prod.mk.injEq] at h
    rw [← h.1, length_nil]
  | succ n ih =>
    rw [getAsns] at h
    split at h
    · exact absurd h (by simp)
    · rw [Option.bind_eq_bind, Option.bind_eq_some_iff] at h
      obtain ⟨⟨rest, tail⟩, eq, h⟩ := h
      rw [Option.some.injEq, Prod.mk.injEq] at h
      rw [← h.1, length_cons, ih eq]

theorem parseSegments_spec {rounds bytes : Nat} (within : bytes ≤ length)
    (h : parseSegments length use32bit rounds bytes r = some segs) :
    (∀ seg ∈ segs, seg.as ≠ []) ∧ bytes + 2 * (segs.flatMap Segment.as).length ≤ length := by
  induction rounds generalizing bytes r segs with
  | zero => exact absurd h (by simp [parseSegments])
  | succ rounds ih =>
    rw [parseSegments.eq_def] at h
    simp only at h
    split at h
    · split at h
      · exact absurd h (by simp)
      · split at h
        · next code len tail =>
          split at h
          · exact absurd h (by simp)
          · next fits =>
            simp only [Option.bind_eq_bind, Option.bind_eq_some_iff, Prod.exists,
              Option.some.injEq] at h
            obtain ⟨type, -, as, tail', got, rest, parsed, rfl⟩ := h
            have count := length_getAsns got
            have small := len.toNat_lt
            have data : (Segment.ofData type as).as = as :=
              ofData_as (by omega)
            have wide : 2 ≤ asValueSize use32bit := by
              cases use32bit <;> decide
            have size : 2 * len.toNat ≤ assegmentSize len.toNat use32bit := by
              rw [assegmentSize]
              nlinarith
            obtain ⟨nonempty, bound⟩ := ih (by omega) parsed
            refine ⟨forall_mem_cons.mpr ⟨?_, nonempty⟩, ?_⟩
            · rw [data, ← length_pos_iff]
              omega
            · rw [flatMap_cons, length_append, data, count]
              omega
        · exact absurd h (by simp)
    · rw [Option.some.injEq] at h
      subst h
      exact ⟨by simp, by simpa using within⟩

theorem aspathParse_normal (short : length / 2 < 65536)
    (h : aspathParse r length use32bit = some path) : Normal path := by
  rw [aspathParse] at h
  split at h
  · exact absurd h (by simp)
  · rw [assegmentsParse] at h
    split at h
    · rw [Option.some.injEq] at h
      exact h ▸ normal_nil
    · split at h
      · exact absurd h (by simp)
      · obtain ⟨segs, parsed, rfl⟩ := Option.map_eq_some_iff.mp h
        obtain ⟨nonempty, bound⟩ := parseSegments_spec zero_le parsed
        exact assegmentNormalise_normal nonempty (by omega)

/-! ### Prepending -/

theorem aspathDeleteConfedSeq_suffix (segs : List Segment) :
    aspathDeleteConfedSeq segs <:+ segs := by
  cases segs with
  | nil => exact suffix_rfl
  | cons seg rest =>
    rw [aspathDeleteConfedSeq]
    split
    · exact suffix_rfl
    · exact dropWhile_suffix _

theorem aspathMerge_concat {as2 : List Segment} :
    aspathMerge (front ++ [seg]) as2 = some (front ++ [seg] ++ as2) := by
  cases front <;> rfl

section

variable {seg1 seg2 : Segment}

theorem merge_normal (normal1 : Normal (front ++ [seg1])) (normal2 : Normal (seg2 :: rest2))
    (border : seg1.type = .asSequence → seg2.type ≠ .asSequence) :
    Normal (front ++ [seg1] ++ seg2 :: rest2) := by
  refine normal_append_iff.mpr ⟨normal1, normal2, fun x hx y hy => ?_⟩
  obtain rfl : seg1 = x := by simpa using hx
  obtain rfl : seg2 = y := by simpa using hy
  exact typesPackable_eq_false border

theorem pack_normal (normal1 : Normal (front ++ [seg1])) (normal2 : Normal (seg2 :: rest2))
    (type : seg1.type = .asSequence) (type2 : seg2.type = .asSequence)
    (short : (seg1.as ++ seg2.as).length < 65536) :
    Normal (front ++ seg1.appendAsns seg2.as :: rest2) := by
  obtain ⟨left, single, border⟩ := normal_append_iff.mp normal1
  have data : (seg1.appendAsns seg2.as).as = seg1.as ++ seg2.as := ofData_as short
  refine normal_append_iff.mpr ⟨left, ?_, fun x hx y hy => ?_⟩
  · have packed : (seg1.appendAsns seg2.as).type = .asSequence := type
    apply normal2.replace_head (type2.trans packed.symm)
    · rw [data]
      simp [single.nonempty seg1 (by simp)]
    · rw [packed]
      exact fun set => absurd set (by decide)
  · obtain rfl : seg1.appendAsns seg2.as = y := by simpa using hy
    exact border x hx seg1 (by simp)

end

/-- A path that is returned decides. -/
theorem Operation.canonical_of_some {op : Operation}
    (eq : op.run = some path) : op.Canonical ↔ Normal path := by
  refine ⟨fun canonical => canonical.1 path eq, fun normal => ⟨fun path' eq' => ?_, fun none => ?_⟩⟩
  · cases eq.symm.trans eq'
    exact normal
  · exact absurd (eq.symm.trans none) (by simp)

theorem aspathPrepend_concat {seg1 seg2 : Segment} :
    aspathPrepend (front ++ [seg1]) (seg2 :: rest2) = some
      (if seg1.type = .asSequence ∧ seg2.type = .asConfedSequence then
        front ++ [seg1] ++ (seg2 :: rest2).dropWhile fun seg => seg.type.isConfed
      else if seg1.type = .asSequence ∧ seg2.type = .asSequence then
        front ++ seg1.appendAsns seg2.as :: rest2
      else front ++ [seg1] ++ seg2 :: rest2) := by
  have last : (front ++ [seg1]).getLast? = some seg1 := by simp
  have others : (front ++ [seg1]).dropLast = front := by simp
  simp only [aspathPrepend, last, aspathMerge_concat, others]
  split
  · next strips => rw [aspathDeleteConfedSeq, if_neg (by simp [strips.2])]
  · split
    · next differ => rw [if_neg fun both => differ (both.1.trans both.2.symm)]
    · next same =>
      by_cases sequence : seg1.type = .asSequence
      · rw [if_pos sequence, if_pos ⟨sequence, not_not.mp same ▸ sequence⟩]
      · rw [if_neg sequence, if_neg fun both => sequence both.1]

theorem prepend_canonical_iff (normal1 : Normal as1)
    (normal2 : Normal as2) (fits : (prepend as1 as2).asns < 65536) :
    (prepend as1 as2).Canonical ↔ (prepend as1 as2).Keeps := by
  rcases eq_nil_or_concat as1 with rfl | ⟨front, seg1, rfl⟩
  · rw [canonical_of_some (show (prepend [] as2).run = some as2 by
      cases as2 <;> rfl)]
    simp [Operation.Keeps, normal2]
  · rw [concat_eq_append] at *
    cases as2 with
    | nil =>
      rw [canonical_of_some (show (prepend (front ++ [seg1]) []).run =
        some (front ++ [seg1]) by simp [run, aspathPrepend])]
      simp [Operation.Keeps, normal1]
    | cons seg2 rest2 =>
      rw [canonical_of_some
        (show (prepend (front ++ [seg1]) (seg2 :: rest2)).run = _ from aspathPrepend_concat)]
      by_cases strips : seg1.type = .asSequence ∧ seg2.type = .asConfedSequence
      · obtain ⟨type1, type2⟩ := strips
        have normal : Normal ((seg2 :: rest2).dropWhile fun seg => seg.type.isConfed) :=
          normal2.of_suffix (dropWhile_suffix _)
        rw [if_pos ⟨type1, type2⟩, normal_append_iff]
        simp only [Operation.Keeps, getLast?_append, getLast?_singleton,
          Option.some_or, Option.mem_some_iff, head?_cons, exists_eq_left', type1, type2,
          true_implies, normal1, normal, true_and, forall_eq']
        refine forall₂_congr fun seg _ => ?_
        rw [← Bool.not_eq_true, typesPackable_iff]
        simp [type1]
      · have vacuous : (prepend (front ++ [seg1]) (seg2 :: rest2)).Keeps := by
          rintro ⟨x, hx, type1⟩ ⟨y, hy, type2⟩
          obtain rfl : seg1 = x := by simpa using hx
          obtain rfl : seg2 = y := by simpa using hy
          exact absurd ⟨type1, type2⟩ strips
        refine iff_of_true ?_ vacuous
        rw [if_neg strips]
        split
        · next both =>
          apply pack_normal normal1 normal2 both.1 both.2
          simpa only [asns, getLast?_append, getLast?_singleton, Option.some_or, head?_cons,
            Option.toList_some, flatMap_append, flatMap_cons, flatMap_nil, append_nil] using fits
        · next both => exact merge_normal normal1 normal2 fun type1 type2 => both ⟨type1, type2⟩

theorem addAsns_normal (asno : As) (type : SegType)
    (normal : Normal segs) (sequence : type.isSet = false) (positive : num ≠ 0)
    (fits : (segs.head?.toList.flatMap Segment.as).length + num < 65536) :
    ∃ path, aspathAddAsns segs asno type num = some path ∧ Normal path := by
  have data : (Segment.ofData type (replicate num asno)).as = replicate num asno :=
    ofData_as (by rw [length_replicate]; omega)
  have nonempty : (Segment.ofData type (replicate num asno)).as ≠ [] := by
    rw [data]
    simpa using positive
  have strict : (Segment.ofData type (replicate num asno)).type.isSet = true →
      (Segment.ofData type (replicate num asno)).as.Pairwise (· < ·) := by
    rw [ofData_type, sequence]
    exact fun set => absurd set (by decide)
  cases segs with
  | nil =>
    refine ⟨[.ofData type (replicate num asno)], ?_, normal_cons_iff.mpr
      ⟨nonempty, strict, normal_nil, by simp⟩⟩
    rw [aspathAddAsns, if_neg (by omega)]
  | cons seg rest =>
    have first := normal.nonempty seg (by simp)
    by_cases same : seg.type = type
    · refine ⟨seg.prependAsns asno num :: rest, by rw [aspathAddAsns, if_pos same], ?_⟩
      rw [Segment.prependAsns, if_neg positive]
      split
      · exact normal
      · have grown : (Segment.ofData seg.type (replicate num asno ++ seg.as)).as =
            replicate num asno ++ seg.as := by
          apply ofData_as
          simp only [head?_cons, Option.toList_some, flatMap_singleton, length_append,
            length_replicate] at fits ⊢
          omega
        apply normal.replace_head (ofData_type _ _).symm
        · rw [grown]
          simp [first]
        · rw [ofData_type, same, sequence]
          exact fun set => absurd set (by decide)
    · refine ⟨Segment.ofData type (replicate num asno) :: seg :: rest, ?_, normal_cons_iff.mpr
        ⟨nonempty, strict, normal, fun y hy => ?_⟩⟩
      · rw [aspathAddAsns, if_neg same, if_neg (by omega),
          if_neg (by simpa [Segment.length] using first)]
      · obtain rfl : seg = y := by simpa using hy
        exact typesPackable_eq_false fun left right => same (right.trans left.symm)

theorem addSeqN_canonical_iff {asno : As}
    (normal : Normal segs) (fits : (addSeqN segs asno num).asns < 65536) :
    (addSeqN segs asno num).Canonical ↔ (addSeqN segs asno num).Keeps := by
  by_cases zero : num = 0
  · subst zero
    cases segs with
    | nil =>
      rw [canonical_of_some (show (addSeqN [] asno 0).run = some [.ofData .asSequence []] from rfl)]
      exact iff_of_false (fun h => h.nonempty (.ofData .asSequence []) (by simp) rfl)
        (by simp [Operation.Keeps])
    | cons seg rest =>
      have first : ¬ seg.length = 0 := by
        simpa [Segment.length] using normal.nonempty seg (by simp)
      by_cases sequence : seg.type = .asSequence
      · have run : (addSeqN (seg :: rest) asno 0).run = some (seg :: rest) := by
          simp [run, aspathAddSeqN, aspathAddAsns, sequence, Segment.prependAsns]
        rw [canonical_of_some run]
        exact iff_of_true normal fun _ => ⟨seg, by simp, sequence⟩
      · have run : (addSeqN (seg :: rest) asno 0).run =
            some (.ofData .asSequence [] :: seg :: rest) := by
          simp [run, aspathAddSeqN, aspathAddAsns, sequence, first]
        rw [canonical_of_some run]
        refine iff_of_false (fun h => h.nonempty (.ofData .asSequence []) (by simp) rfl) ?_
        simp [Operation.Keeps, sequence]
  · obtain ⟨path, eq, canonical⟩ := addAsns_normal asno .asSequence normal rfl zero fits
    rw [canonical_of_some (show (addSeqN segs asno num).run = _ from eq)]
    exact iff_of_true canonical fun none => absurd none zero

theorem aspathFilterExclude_eq {source excludeList : List Segment} :
    aspathFilterExclude source excludeList =
      (source.filter fun seg => !(seg.excluding excludeList).isEmpty).map
        fun seg => .ofData seg.type (seg.excluding excludeList) := by
  induction source with
  | nil => rfl
  | cons seg source ih =>
    rw [aspathFilterExclude] at ih ⊢
    cases left : seg.excluding excludeList with
    | nil => simp [left, ih]
    | cons a as => simp [left, ih]

theorem filterExclude_canonical_iff {source excludeList : List Segment} (normal : Normal source) :
    (filterExclude source excludeList).Canonical ↔
      (filterExclude source excludeList).Keeps := by
  have data : ∀ seg : Segment, (Segment.ofData seg.type (seg.excluding excludeList)).as =
      seg.excluding excludeList :=
    fun seg => ofData_as ((length_filter_le ..).trans_lt seg.length_lt)
  rw [canonical_of_some rfl, aspathFilterExclude_eq, Operation.Keeps]
  constructor
  · intro canonical
    exact isChain_map _ |>.mp canonical.apart
  · intro apart
    refine ⟨?_, ?_, isChain_map _ |>.mpr apart⟩
    · rw [forall_mem_map]
      intro seg hseg
      rw [data]
      simpa using (mem_filter.mp hseg).2
    · rw [forall_mem_map]
      intro seg hseg set
      rw [data]
      exact (normal.strict seg (mem_filter.mp hseg).1 set).sublist filter_sublist

/-! ### Aggregating and reconciling -/

theorem length_asnsFrom_le (start : Nat) (segs : List Segment) :
    (asnsFrom start segs).length ≤ (segs.flatMap Segment.as).length := by
  cases segs with
  | nil => exact le_rfl
  | cons seg rest =>
    rw [asnsFrom, flatMap_cons, length_append, length_append, length_drop]
    omega

theorem aggregate_canonical (normal : Normal as1) (fits : (aggregate as1 as2).asns < 65536) :
    (aggregate as1 as2).Canonical := by
  have room : (collected as1 as2).toFinset.card < 65536 := by
    obtain ⟨left, right⟩ := commonSegments_append as1 as2
    have first := congrArg (fun segs => (segs.flatMap Segment.as).length) left
    have second := congrArg (fun segs => (segs.flatMap Segment.as).length) right
    have from1 := length_asnsFrom_le (leftCount 0 as1 as2) (afterCommon as1 as2).1
    have from2 := length_asnsFrom_le (leftCount 0 as1 as2) (afterCommon as1 as2).2
    have card := toFinset_card_le (collected as1 as2)
    simp only [asns, flatMap_append, length_append] at fits first second
    rw [collected, length_append] at card
    rw [collected]
    omega
  obtain ⟨tail, eq, canonical, -⟩ := (aspathAggregate_eq as2 normal).1 room
  exact (canonical_of_some (show (aggregate as1 as2).run = _ from eq)).mpr canonical

/-- The hops taken are nonempty segments, with no more ASNs than there were. -/
theorem takeHops_spec (hops : Nat) (nonempty : ∀ seg ∈ segs, seg.as ≠ []) :
    (∀ seg ∈ takeHops hops segs, seg.as ≠ []) ∧
      ((takeHops hops segs).flatMap Segment.as).length ≤ (segs.flatMap Segment.as).length := by
  have cut : ∀ (seg : Segment) (count : Nat),
      (Segment.ofData seg.type (seg.as.take count)).as = seg.as.take count :=
    fun seg count => ofData_as ((length_take_le' ..).trans_lt seg.length_lt)
  induction segs generalizing hops with
  | nil => simp [takeHops]
  | cons seg rest ih =>
    have first : 0 < seg.as.length := length_pos_iff.mpr (nonempty seg (by simp))
    have others : ∀ x ∈ rest, x.as ≠ [] := fun x hx => nonempty x (by simp [hx])
    -- each branch takes some ASNs of the segment and goes on
    have goes : ∀ count left, 0 < count →
        (∀ x ∈ Segment.ofData seg.type (seg.as.take count) :: takeHops left rest, x.as ≠ []) ∧
          ((Segment.ofData seg.type (seg.as.take count) :: takeHops left rest).flatMap
            Segment.as).length ≤ ((seg :: rest).flatMap Segment.as).length := by
      intro count left positive
      obtain ⟨tailed, shorter⟩ := ih left others
      refine ⟨forall_mem_cons.mpr ⟨?_, tailed⟩, ?_⟩
      · rw [cut, ← length_pos_iff, List.length_take]
        omega
      · rw [flatMap_cons, flatMap_cons, length_append, length_append, cut, List.length_take]
        omega
    rw [takeHops]
    split
    · simp
    · next positive =>
      have least : 0 < min seg.length hops := by
        rw [Segment.length]
        omega
      split
      · exact goes _ _ first
      · exact goes _ _ first
      · apply goes
        rw [Segment.length]
        split <;> omega
      · exact goes _ _ least

theorem takeHops_ne_nil {hops : Nat} (some : 0 < hops) (nonempty : segs ≠ []) :
    takeHops hops segs ≠ [] := by
  obtain ⟨seg, rest, rfl⟩ := exists_cons_of_ne_nil nonempty
  rw [takeHops, if_neg (by omega)]
  split <;> exact cons_ne_nil _ _

theorem reconcile_canonical {aspath as4path : List Segment} (normal : Normal aspath)
    (normal4 : Normal as4path) (fits : (reconcileAs4 aspath as4path).asns < 65536) :
    (reconcileAs4 aspath as4path).Canonical := by
  suffices ∃ path, aspathReconcileAs4 aspath as4path = some path ∧ Normal path by
    obtain ⟨path, eq, canonical⟩ := this
    exact (canonical_of_some (show (reconcileAs4 aspath as4path).run = _ from eq)).mpr canonical
  rw [aspathReconcileAs4]
  set hops : Int := (aspathCountHops aspath + aspathCountConfeds aspath : Nat) -
    (aspathCountHops as4path : Nat) with hopsEq
  set left : Int := if hops < 0 then aspathCountHops aspath else hops with leftEq
  by_cases none : left = 0
  · exact ⟨as4path, if_pos none, normal4⟩
  · have positive : 0 < left.toNat := by
      have : 0 ≤ left := by
        rw [leftEq]
        split <;> omega
      omega
    have nonempty : aspath ≠ [] := by
      rintro rfl
      apply none
      rw [leftEq]
      simp only [aspathCountHops, aspathCountConfeds, map_nil, sum_nil] at hopsEq ⊢
      split <;> omega
    obtain ⟨seg, rest, eq⟩ := exists_cons_of_ne_nil (takeHops_ne_nil positive nonempty)
    obtain ⟨taken, fewer⟩ := takeHops_spec left.toNat normal.nonempty
    have merged : aspathMerge (takeHops left.toNat aspath) as4path =
        some (takeHops left.toNat aspath ++ as4path) := by
      rw [eq]
      rfl
    refine ⟨_, by rw [if_neg none, merged, Option.map_some], assegmentNormalise_normal ?_ ?_⟩
    · intro x hx
      exact (mem_append.mp hx).elim (taken x) (normal4.nonempty x)
    · simp only [asns, flatMap_append, length_append] at fits ⊢
      omega

/-! ## Interned paths -/

/-- `hash_get` on `ashash`, the table of interned paths: the place of the object that `path`
is interned to, and the table.  The key is a hash of the text. -/
def ashashGet (jhash : List Char → UInt32) (ashash : List (List Segment)) (path : List Segment) :
    Nat × List (List Segment) :=
  match ashash.findIdx? fun entry =>
      jhash (aspathStr entry) == jhash (aspathStr path) && aspathCmp entry path with
  | some place => (place, ashash)
  | none => (ashash.length, ashash ++ [path])

/-- A path interned once is found at its place. -/
theorem ashashGet_again (jhash : List Char → UInt32) (ashash : List (List Segment))
    (path : List Segment) :
    (ashashGet jhash (ashashGet jhash ashash path).2 path).1 = (ashashGet jhash ashash path).1 := by
  let same := fun entry =>
    jhash (aspathStr entry) == jhash (aspathStr path) && aspathCmp entry path
  have itself : same path = true := by
    simp only [same, beq_self_eq_true, Bool.true_and]
    exact aspathCmp_iff.mpr rfl
  cases found : ashash.findIdx? same with
  | some place =>
    have first : ashashGet jhash ashash path = (place, ashash) := by
      simp only [ashashGet]
      rw [found]
    rw [first, first]
  | none =>
    have first : ashashGet jhash ashash path = (ashash.length, ashash ++ [path]) := by
      simp only [ashashGet]
      rw [found]
    have again : (ashash ++ [path]).findIdx? same = some ashash.length := by
      rw [findIdx?_append, found]
      simp [findIdx?_cons, itself]
    rw [first]
    simp only [ashashGet]
    rw [again]

/-- Given paths in canonical form, and fewer than 65536 ASNs for a segment, an operation returns one in
canonical form exactly when `Keeps` holds.  The path it returns then shares its interned
object with every path in canonical form that has its text. -/
theorem canonical_iff {op : Operation} (inputs : ∀ p ∈ op.paths, Normal p)
    (fits : op.asns < 65536) :
    (op.Canonical ↔ op.Keeps) ∧
      (op.Keeps → ∀ path, op.run = some path → ∀ q, Normal q → aspathStr q = aspathStr path →
        aspathCmp q path = true ∧
        ∀ jhash ashash, (ashashGet jhash (ashashGet jhash ashash path).2 q).1 =
          (ashashGet jhash ashash path).1) := by
  have keeps_iff : op.Canonical ↔ op.Keeps := by
    cases op with
    | parse r length use32bit =>
      exact iff_of_true ⟨fun path eq => aspathParse_normal fits eq, fun _ => trivial⟩ trivial
    | prepend as1 as2 =>
      exact prepend_canonical_iff (inputs as1 (by simp [paths])) (inputs as2 (by simp [paths])) fits
    | addSeqN segs asno num =>
      exact addSeqN_canonical_iff (inputs segs (by simp [paths])) fits
    | addConfedSeq segs asno =>
      obtain ⟨path, eq, canonical⟩ := addAsns_normal asno .asConfedSequence
        (inputs segs (by simp [paths])) rfl one_ne_zero fits
      exact iff_of_true ((canonical_of_some
        (show (addConfedSeq segs asno).run = _ from eq)).mpr canonical) trivial
    | deleteConfedSeq segs =>
      have normal := (inputs segs (by simp [paths])).of_suffix (aspathDeleteConfedSeq_suffix segs)
      exact iff_of_true ((canonical_of_some
        (show (deleteConfedSeq segs).run = _ from rfl)).mpr normal) trivial
    | filterExclude source excludeList =>
      exact filterExclude_canonical_iff (inputs source (by simp [paths]))
    | aggregate as1 as2 =>
      exact iff_of_true (aggregate_canonical (inputs as1 (by simp [paths])) fits) trivial
    | reconcileAs4 aspath as4path =>
      exact iff_of_true (reconcile_canonical (inputs aspath (by simp [paths]))
        (inputs as4path (by simp [paths])) fits) trivial
  refine ⟨keeps_iff, fun keeps path eq q normal text => ?_⟩
  obtain rfl : q = path := aspathStr_injective normal ((keeps_iff.mpr keeps).1 path eq) text
  exact ⟨aspathCmp_iff.mpr rfl, fun jhash ashash => ashashGet_again jhash ashash q⟩

theorem prependSequence_canonical : (Operation.prepend [.ofData .asSequence [1]]
      [.ofData .asSequence [2], .ofData .asSet [3, 4]]).Canonical :=
  (canonical_iff (by decide) (by decide)).1.mpr fun _ confed => by
    obtain ⟨seg, head, type⟩ := confed
    obtain rfl : Segment.ofData .asSequence [2] = seg := by simpa using head
    exact absurd type (by decide)

/-- Excluding `2` from `1 {2} 3` leaves the text `1 3` on two adjacent sequences. -/
theorem excludedSet_not_canonical : (Operation.filterExclude
        [.ofData .asSequence [1], .ofData .asSet [2], .ofData .asSequence [3]]
        [.ofData .asSequence [2]]).run =
      some [.ofData .asSequence [1], .ofData .asSequence [3]] ∧
    ¬ Normal [.ofData .asSequence [1], .ofData .asSequence [3]] ∧
    aspathStr [.ofData .asSequence [1], .ofData .asSequence [3]] =
      aspathStr [.ofData .asSequence [1, 3]] ∧
    aspathCmp [.ofData .asSequence [1], .ofData .asSequence [3]]
      [.ofData .asSequence [1, 3]] = false := by
  decide

/-- Prepending `1` to `(2) 3` strips the confederation segment and leaves two sequences. -/
example :
    aspathPrepend [.ofData .asSequence [1]]
        [.ofData .asConfedSequence [2], .ofData .asSequence [3]] =
      some [.ofData .asSequence [1], .ofData .asSequence [3]] := by
  decide

end Mp2mp.Bgpd
