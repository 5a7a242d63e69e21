import Mp2mp.Kit.BitTrie

/-!
# Address prefixes

`struct prefix` of `lib/prefix.h` with the functions of `prefix.c` and `table.c` that compare
prefixes byte by byte, and the bit strings they stand for.  Bytes beyond the prefix length may
hold anything.

* `prefixMatch_iff`: `prefix_match` tests whether one bit string starts with the other.
* `routeCommon_spec`: `route_common` finds where two prefixes part.
* `str2prefix_exact_iff`: a text is read as what it says, unless `atoi` and the truncation to a
  byte make a length of what is none.
-/

namespace Mp2mp.Lib

open List

variable {j s i : Nat}

/-- `struct prefix`, for one address family. -/
structure Prefix where
  prefixlen : Nat
  bytes : List UInt8
deriving DecidableEq, Repr

open Prefix

def Prefix.byte (p : Prefix) (i : Nat) : UInt8 := p.bytes.getD i 0

def maskbit (shift : Nat) : UInt8 :=
  [0x00, 0x80, 0xc0, 0xe0, 0xf0, 0xf8, 0xfc, 0xfe, 0xff].getD shift 0xff

/-- The bit of a byte that `prefix_bit` extracts. -/
def byteBit (x : UInt8) (j : Nat) : Bool := (x >>> UInt8.ofNat (7 - j)) &&& 1 == 1

def prefixBit (p : Prefix) (k : Nat) : Bool := byteBit (p.byte (k / 8)) (k % 8)

def prefixMatch (n p : Prefix) : Bool :=
  if n.prefixlen > p.prefixlen then false
  else
    let offset := n.prefixlen / 8
    let shift := n.prefixlen % 8
    if shift ≠ 0 ∧ maskbit shift &&& (n.byte offset ^^^ p.byte offset) ≠ 0 then false
    else (List.range offset).all fun i => n.byte i == p.byte i

/-- The first loop of `route_common`: the bytes that agree, `left` of them still to be looked
at. -/
def commonBytes (n p : Prefix) : Nat → Nat → Nat
  | 0, i => i
  | left + 1, i => if n.byte i = p.byte i then commonBytes n p left (i + 1) else i

/-- The second loop of `route_common`: the bits that agree, `left` of them still to be looked
at. -/
def commonBits (diff : UInt8) : Nat → UInt8 → Nat → Nat
  | 0, _, len => len
  | left + 1, mask, len =>
    if mask &&& diff = 0 then commonBits diff left (mask >>> 1) (len + 1) else len

def routeCommon (n p : Prefix) : Prefix :=
  let i := commonBytes n p (p.prefixlen / 8) 0
  let same := (List.range i).map n.byte
  if i * 8 = p.prefixlen then ⟨i * 8, same⟩
  else
    let len := commonBits (n.byte i ^^^ p.byte i) (p.prefixlen - i * 8) 0x80 (i * 8)
    ⟨len, same ++ [n.byte i &&& maskbit (len % 8)]⟩

/-- The bit string a prefix stands for. -/
def Prefix.bits (p : Prefix) : List Bool := (List.range p.prefixlen).map (prefixBit p)

@[simp] theorem bits_length (p : Prefix) : p.bits.length = p.prefixlen := by
  simp [bits]

/-! ## Bytes -/

theorem byteBit_eq : ∀ x : UInt8, ∀ j : Fin 8, byteBit x j = x.toBitVec.getLsbD (7 - j) := by
  decide +kernel

theorem byteBit_xor {x y : UInt8} (hj : j < 8) :
    byteBit (x ^^^ y) j = (byteBit x j ^^ byteBit y j) := by
  have hbit : ∀ z, byteBit z j = z.toBitVec.getLsbD (7 - j) := fun z => byteBit_eq z ⟨j, hj⟩
  rw [hbit, hbit, hbit, UInt8.toBitVec_xor, BitVec.getLsbD_xor]

theorem byteBit_and {x y : UInt8} (hj : j < 8) :
    byteBit (x &&& y) j = (byteBit x j && byteBit y j) := by
  have hbit : ∀ z, byteBit z j = z.toBitVec.getLsbD (7 - j) := fun z => byteBit_eq z ⟨j, hj⟩
  rw [hbit, hbit, hbit, UInt8.toBitVec_and, BitVec.getLsbD_and]

theorem byteBit_maskbit : ∀ s : Fin 9, ∀ j : Fin 8, byteBit (maskbit s) j = decide (j.val < s) := by
  decide +kernel

theorem byteBit_single : ∀ i j : Fin 8,
    byteBit ((0x80 : UInt8) >>> UInt8.ofNat i) j = decide (j.val = i) := by
  decide +kernel

theorem byte_eq_iff {x y : UInt8} : x = y ↔ ∀ j, j < 8 → byteBit x j = byteBit y j := by
  refine ⟨fun h j _ => by rw [h], fun h => UInt8.toBitVec_inj.mp ?_⟩
  apply BitVec.eq_of_getLsbD_eq
  intro i hi
  have hbit := h (7 - i) (by omega)
  rw [byteBit_eq x ⟨7 - i, by omega⟩, byteBit_eq y ⟨7 - i, by omega⟩] at hbit
  rwa [show 7 - (7 - i) = i by omega] at hbit

theorem byte_eq_zero_iff {z : UInt8} : z = 0 ↔ ∀ j, j < 8 → byteBit z j = false := by
  have hzero : ∀ j : Fin 8, byteBit 0 j = false := by decide
  rw [byte_eq_iff]
  exact forall₂_congr fun j hj => by rw [hzero ⟨j, hj⟩]

/-- Two bytes agree under the mask of `s` bits if they agree on those. -/
theorem masked_xor {x y : UInt8} (hs : s < 9) :
    maskbit s &&& (x ^^^ y) = 0 ↔ ∀ j, j < 8 → j < s → byteBit x j = byteBit y j := by
  rw [byte_eq_zero_iff]
  refine forall₂_congr fun j hj => ?_
  rw [byteBit_and hj, byteBit_xor hj, byteBit_maskbit ⟨s, hs⟩ ⟨j, hj⟩]
  simp

theorem masked_bit {z : UInt8} (hs : s < 9) (hj : j < 8) (hlt : j < s) :
    byteBit (z &&& maskbit s) j = byteBit z j := by
  rw [byteBit_and hj, byteBit_maskbit ⟨s, hs⟩ ⟨j, hj⟩]
  simp [hlt]

theorem single_bit (z : UInt8) (hi : i < 8) :
    (0x80 : UInt8) >>> UInt8.ofNat i &&& z = 0 ↔ byteBit z i = false := by
  rw [byte_eq_zero_iff]
  constructor
  · intro h
    have hbit := h i hi
    rw [byteBit_and hi, byteBit_single ⟨i, hi⟩ ⟨i, hi⟩] at hbit
    simpa using hbit
  · intro h j hj
    rw [byteBit_and hj, byteBit_single ⟨i, hi⟩ ⟨j, hj⟩]
    by_cases heq : j = i
    · subst heq
      rw [h, Bool.and_false]
    · simp [heq]

theorem mask_shift : ∀ j : Fin 7,
    (0x80 : UInt8) >>> UInt8.ofNat j >>> 1 = (0x80 : UInt8) >>> UInt8.ofNat (j + 1) := by
  decide +kernel

/-! ## Comparing prefixes -/

/-- The first `len` bits of two prefixes are the same. -/
def Agree (n p : Prefix) (len : Nat) : Prop := ∀ k < len, prefixBit n k = prefixBit p k

variable {n p : Prefix}

theorem bits_prefix_iff :
    n.bits <+: p.bits ↔ n.prefixlen ≤ p.prefixlen ∧ Agree n p n.prefixlen := by
  constructor
  · intro h
    have hlen := h.length_le
    rw [bits_length, bits_length] at hlen
    refine ⟨hlen, fun k hk => ?_⟩
    have hget := h.getElem (i := k) (by rwa [bits_length])
    simpa [bits] using hget
  · rintro ⟨hlen, h⟩
    rw [prefix_iff_eq_take, bits_length, bits, bits, ← map_take,
      take_range, Nat.min_eq_left hlen]
    apply map_congr_left
    intro k hk
    exact h k (mem_range.mp hk)

/-- A prefix goes on with `b` in another that is longer and has that bit. -/
theorem bits_bit_iff {b : Bool} : n.bits ++ [b] <+: p.bits ↔
      n.bits <+: p.bits ∧ n.prefixlen < p.prefixlen ∧ prefixBit p n.prefixlen = b := by
  have hlen : n.bits.length = n.prefixlen := bits_length n
  constructor
  · intro h
    have hlt := Kit.BitTrie.length_lt_of_bit h
    rw [bits_length, bits_length] at hlt
    refine ⟨Kit.BitTrie.prefix_of_bit h, hlt, ?_⟩
    have hget := h.getElem (i := n.prefixlen) (by simp)
    simpa [bits] using hget.symm
  · rintro ⟨h, hlt, rfl⟩
    obtain ⟨r, hr⟩ := h
    cases r with
    | nil =>
      rw [append_nil] at hr
      have := congrArg List.length hr
      rw [bits_length, bits_length] at this
      omega
    | cons b r =>
      refine ⟨r, ?_⟩
      have hget : p.bits[n.prefixlen]? = some b := by
        rw [← hr, getElem?_append_right (by omega), hlen]
        simp
      have hbit : p.bits[n.prefixlen]? = some (prefixBit p n.prefixlen) := by
        simp [bits, hlt]
      rw [hget] at hbit
      cases hbit
      rw [append_assoc, singleton_append, hr]

/-- Prefixes agree up to `8 * i + s` if their bytes below `i` are the same and `s` bits of the
next. -/
theorem agree_iff (hs : s < 8) : Agree n p (8 * i + s) ↔
      (∀ j < i, n.byte j = p.byte j) ∧ ∀ j < s, byteBit (n.byte i) j = byteBit (p.byte i) j := by
  constructor
  · intro h
    constructor
    · intro j hj
      rw [byte_eq_iff]
      intro x hx
      have hbit := h (8 * j + x) (by omega)
      rwa [prefixBit, prefixBit, show (8 * j + x) / 8 = j by omega,
        show (8 * j + x) % 8 = x by omega] at hbit
    · intro x hx
      have hbit := h (8 * i + x) (by omega)
      rwa [prefixBit, prefixBit, show (8 * i + x) / 8 = i by omega,
        show (8 * i + x) % 8 = x by omega] at hbit
  · rintro ⟨hbytes, hbits⟩ k hk
    rw [prefixBit, prefixBit]
    by_cases hi : k / 8 < i
    · rw [hbytes _ hi]
    · have hdiv : k / 8 = i := by omega
      rw [hdiv]
      exact hbits _ (by omega)

/-- `prefix_match` tests whether the first prefix contains the second. -/
theorem prefixMatch_iff : prefixMatch n p = true ↔ n.bits <+: p.bits := by
  rw [bits_prefix_iff]
  have hmod : n.prefixlen % 8 < 8 := Nat.mod_lt _ (by decide)
  have hagree := agree_iff (n := n) (p := p) (i := n.prefixlen / 8) hmod
  rw [Nat.div_add_mod] at hagree
  have hmask := masked_xor (x := n.byte (n.prefixlen / 8)) (y := p.byte (n.prefixlen / 8))
    (s := n.prefixlen % 8) (by omega)
  rw [hagree, prefixMatch]
  by_cases hlen : n.prefixlen > p.prefixlen
  · rw [if_pos hlen]
    simp only [Bool.false_eq_true, false_iff]
    omega
  · rw [if_neg hlen]
    dsimp only
    split
    · rename_i hdiff
      simp only [Bool.false_eq_true, false_iff]
      rintro ⟨-, -, hbits⟩
      exact hdiff.2 (hmask.mpr fun j _ hj => hbits j hj)
    · rename_i hsame
      simp only [all_eq_true, mem_range, beq_iff_eq]
      refine ⟨fun hbytes => ⟨by omega, hbytes, fun j hj => ?_⟩, fun h => h.2.1⟩
      have hzero : maskbit (n.prefixlen % 8) &&&
          (n.byte (n.prefixlen / 8) ^^^ p.byte (n.prefixlen / 8)) = 0 := by
        by_contra hne
        exact hsame ⟨by omega, hne⟩
      exact hmask.mp hzero j (by omega) hj

/-! ## Where prefixes part -/

theorem commonBytes_spec (left i : Nat) :
    i ≤ commonBytes n p left i ∧ commonBytes n p left i ≤ i + left ∧
      (∀ j, i ≤ j → j < commonBytes n p left i → n.byte j = p.byte j) ∧
      (commonBytes n p left i < i + left →
        n.byte (commonBytes n p left i) ≠ p.byte (commonBytes n p left i)) := by
  induction left generalizing i with
  | zero =>
    rw [commonBytes]
    exact ⟨le_refl i, by omega, fun j _ _ => by omega, fun h => by omega⟩
  | succ left ih =>
    rw [commonBytes]
    split
    · rename_i heq
      obtain ⟨hlow, hhigh, hsame, hdiff⟩ := ih (i + 1)
      refine ⟨by omega, by omega, fun j hj hlt => ?_, fun h => hdiff (by omega)⟩
      rcases Nat.eq_or_lt_of_le hj with rfl | hgt
      · exact heq
      · exact hsame j hgt hlt
    · rename_i hne
      exact ⟨le_refl i, by omega, fun j _ _ => by omega, fun _ => hne⟩

/-- The loop over the bits ends at the first bit set in `diff`, or after `left` of them. -/
theorem commonBits_spec {diff : UInt8} (base left j : Nat)
    (hend : j + left < 8 ∨ ∃ x, j ≤ x ∧ x < 8 ∧ byteBit diff x = true) :
    ∃ m, commonBits diff left ((0x80 : UInt8) >>> UInt8.ofNat j) (base + j) = base + m ∧
      j ≤ m ∧ m < 8 ∧ m ≤ j + left ∧ (∀ x, j ≤ x → x < m → byteBit diff x = false) ∧
      (m < j + left → byteBit diff m = true) := by
  have hj : j < 8 := by
    rcases hend with h | ⟨x, h₁, h₂, -⟩ <;> omega
  induction left generalizing j with
  | zero =>
    rw [commonBits]
    exact ⟨j, rfl, le_refl j, hj, by omega, fun x _ _ => by omega, fun h => by omega⟩
  | succ left ih =>
    rw [commonBits]
    have hbit := single_bit diff hj
    split
    · rename_i hzero
      have hfalse : byteBit diff j = false := hbit.mp hzero
      have hnext : j + 1 + left < 8 ∨ ∃ x, j + 1 ≤ x ∧ x < 8 ∧ byteBit diff x = true := by
        rcases hend with h | ⟨x, h₁, h₂, hx⟩
        · exact .inl (by omega)
        · refine .inr ⟨x, ?_, h₂, hx⟩
          rcases Nat.eq_or_lt_of_le h₁ with rfl | hgt
          · rw [hfalse] at hx
            cases hx
          · exact hgt
      have hj' : j + 1 < 8 := by
        rcases hnext with h | ⟨x, h₁, h₂, -⟩ <;> omega
      obtain ⟨m, hm, hlow, hlt, hhigh, hsame, hstop⟩ := ih (j + 1) hnext hj'
      have hshift := mask_shift ⟨j, by omega⟩
      refine ⟨m, ?_, by omega, hlt, by omega, fun x hx hxm => ?_, fun h => hstop (by omega)⟩
      · rw [← hm]
        exact congrArg₂ (commonBits diff left) hshift rfl
      · rcases Nat.eq_or_lt_of_le hx with rfl | hgt
        · exact hfalse
        · exact hsame x hgt hxm
    · rename_i hne
      have htrue : byteBit diff j = true := by
        by_contra hfalse
        exact hne (hbit.mpr (by simpa using hfalse))
      exact ⟨j, rfl, le_refl j, hj, by omega, fun x _ _ => by omega, fun _ => htrue⟩

theorem byte_map_range (n : Prefix) (len : Nat) (hj : j < i) (rest : List UInt8) :
    byte ⟨len, (List.range i).map n.byte ++ rest⟩ j = n.byte j := by
  simp [byte, List.getD, getElem?_append_left, hj]

/-- `route_common` ends at the first bit where the prefixes differ, or at the length of the
second. -/
theorem routeCommon_spec {n p : Prefix} :
    (routeCommon n p).prefixlen ≤ p.prefixlen ∧ Agree n p (routeCommon n p).prefixlen ∧
      Agree (routeCommon n p) n (routeCommon n p).prefixlen ∧
      ((routeCommon n p).prefixlen < p.prefixlen →
        prefixBit n (routeCommon n p).prefixlen ≠ prefixBit p (routeCommon n p).prefixlen) := by
  obtain ⟨-, hhigh, hsame, hdiff⟩ := commonBytes_spec (n := n) (p := p) (p.prefixlen / 8) 0
  rw [routeCommon]
  dsimp only
  generalize commonBytes n p (p.prefixlen / 8) 0 = i at hhigh hsame hdiff
  split
  · rename_i hall
    have hagree : Agree n p (i * 8) := by
      have := (agree_iff (n := n) (p := p) (i := i) (s := 0) (by decide)).mpr
        ⟨fun j hj => hsame j zero_le hj, fun j hj => absurd hj (Nat.not_lt_zero j)⟩
      rwa [add_zero, mul_comm] at this
    refine ⟨hall.le, hagree, fun k hk => ?_, fun h => absurd hall h.ne⟩
    replace hk : k < i * 8 := hk
    have := byte_map_range n (i * 8) (i := i) (j := k / 8) (by omega) []
    rw [append_nil] at this
    rw [prefixBit, prefixBit, this]
  · rename_i hrest
    have hend : 0 + (p.prefixlen - i * 8) < 8 ∨
        ∃ x, 0 ≤ x ∧ x < 8 ∧ byteBit (n.byte i ^^^ p.byte i) x = true := by
      by_cases hi : i < p.prefixlen / 8
      · right
        by_contra hno
        refine hdiff (by omega) (byte_eq_iff.mpr fun j hj => ?_)
        by_contra hne
        refine hno ⟨j, zero_le, hj, ?_⟩
        rw [byteBit_xor hj]
        simpa using hne
      · left
        omega
    obtain ⟨m, hm, -, hlt, hle, hzero, hone⟩ := commonBits_spec (i * 8) (p.prefixlen - i * 8) 0 hend
    have hm' : commonBits (n.byte i ^^^ p.byte i) (p.prefixlen - i * 8) 0x80 (i * 8) = i * 8 + m :=
      hm
    have hmod : (i * 8 + m) % 8 = m := by omega
    have hdiv : (i * 8 + m) / 8 = i := by omega
    rw [hm', hmod]
    refine ⟨?_, ?_, ?_, ?_⟩
    · change i * 8 + m ≤ _
      omega
    · have := (agree_iff (n := n) (p := p) (i := i) hlt).mpr
        ⟨fun j hj => hsame j zero_le hj, fun j hj => ?_⟩
      · rwa [mul_comm] at this
      · have hx := hzero j zero_le hj
        rw [byteBit_xor (by omega)] at hx
        simpa using hx
    · intro k hk
      replace hk : k < i * 8 + m := hk
      rw [prefixBit, prefixBit]
      by_cases hi : k / 8 < i
      · rw [byte_map_range n _ hi]
      · have hki : k / 8 = i := by omega
        have hlast : byte ⟨i * 8 + m, (List.range i).map n.byte ++
            [n.byte i &&& maskbit m]⟩ i = n.byte i &&& maskbit m := by
          simp [byte, List.getD]
        rw [hki, hlast]
        exact masked_bit (by omega) (by omega) (by omega)
    · intro h
      replace h : i * 8 + m < p.prefixlen := h
      have hx := hone (by omega)
      rw [byteBit_xor hlt] at hx
      change prefixBit n (i * 8 + m) ≠ prefixBit p (i * 8 + m)
      rw [prefixBit, prefixBit, hdiv, hmod]
      simpa using hx

/-- If the first prefix does not contain the second, what they have in common is shorter than the
first, and shorter than the second unless it is the second. -/
theorem routeCommon_fork (h : ¬n.bits <+: p.bits) :
    (∃ b, (routeCommon n p).bits ++ [b] <+: n.bits) ∧
      ((routeCommon n p).bits = p.bits ∨
        ∃ b, (routeCommon n p).bits ++ [b] <+: p.bits ∧
          (routeCommon n p).bits ++ [!b] <+: n.bits) := by
  obtain ⟨hlen, hagree, hcopy, hpart⟩ := routeCommon_spec
  generalize routeCommon n p = g at hlen hagree hcopy hpart
  have hlt : g.prefixlen < n.prefixlen := by
    by_contra hge
    refine h (bits_prefix_iff.mpr ⟨by omega, fun k hk => hagree k (by omega)⟩)
  have hn : g.bits <+: n.bits := bits_prefix_iff.mpr ⟨hlt.le, hcopy⟩
  have hp : g.bits <+: p.bits :=
    bits_prefix_iff.mpr ⟨hlen, fun k hk => (hcopy k hk).trans (hagree k hk)⟩
  refine ⟨⟨_, bits_bit_iff.mpr ⟨hn, hlt, rfl⟩⟩, ?_⟩
  rcases Nat.eq_or_lt_of_le hlen with heq | hshort
  · left
    exact hp.eq_of_length (by simpa using heq)
  · right
    refine ⟨_, bits_bit_iff.mpr ⟨hp, hshort, rfl⟩, bits_bit_iff.mpr ⟨hn, hlt, ?_⟩⟩
    exact Bool.eq_not.mpr (hpart hshort)

/-! ## Prefixes as text

`str2prefix_ipv4` and `str2prefix_ipv6`, over any `inet_aton` or `inet_pton`. -/

def decimal (s : List Char) : Nat := s.foldl (fun n c => 10 * n + (c.toNat - '0'.toNat)) 0

def isdigit (c : Char) : Bool := 48 ≤ c.toNat ∧ c.toNat ≤ 57

def isspace (c : Char) : Bool := c.toNat = 32 ∨ 9 ≤ c.toNat ∧ c.toNat ≤ 13

/-- The number a text starts with. -/
def leading (s : List Char) : Nat := decimal (s.takeWhile isdigit)

/-- `atoi`, that is `strtol` in base ten, before the conversion to `int`. -/
def atoi (s : List Char) : Int :=
  let n : Int := match s.dropWhile isspace with
    | '-' :: s => -leading s
    | '+' :: s => leading s
    | s => leading s
  max (-2 ^ 63) (min n (2 ^ 63 - 1))

/-- The length that is read, a `u_char`. -/
def plen (s : List Char) : Nat := (atoi s % 256).toNat

section

variable {A : Type} (aton : List Char → Option A) (maxlen : Nat) (str : List Char)

/-- The text before the first slash. -/
def addrText : List Char := str.takeWhile (· ≠ '/')

/-- The text after it. -/
def plenText : List Char := (str.dropWhile (· ≠ '/')).tail

/-- The two functions, with the conversion of an address and the longest length. -/
def str2prefixWith : Option (A × Nat) :=
  if '/' ∈ str then
    let plen := plen (plenText str)
    if plen > maxlen then none else (aton (addrText str)).map (·, plen)
  else (aton str).map (·, maxlen)

def str2prefixIpv4 (inetAton : List Char → Option A) : Option (A × Nat) :=
  str2prefixWith inetAton 32 str

def str2prefixIpv6 (inetPton : List Char → Option A) : Option (A × Nat) :=
  str2prefixWith inetPton 128 str

/-- A decimal number up to the longest length. -/
def IsLength (n : List Char) : Prop := n ≠ [] ∧ (∀ c ∈ n, isdigit c) ∧ decimal n ≤ maxlen

/-- The text says this prefix. -/
def Denotes (a : A) (len : Nat) : Prop :=
  if '/' ∈ str then
    aton (addrText str) = some a ∧ IsLength maxlen (plenText str) ∧ len = decimal (plenText str)
  else aton str = some a ∧ len = maxlen

/-- No length is made of what is none: where the text behind the slash is no length, the number
after its blanks and sign is too long modulo 256.  From `2 ^ 63` on it counts as 255, and after a
minus sign as 0. -/
def ReadsLength : Prop :=
  '/' ∈ str → (aton (addrText str)).isSome → ¬IsLength maxlen (plenText str) →
    match (plenText str).dropWhile isspace with
    | '-' :: s => 2 ^ 63 > leading s ∧ maxlen < (256 - leading s % 256) % 256
    | '+' :: s => maxlen < if leading s < 2 ^ 63 then leading s % 256 else 255
    | s => maxlen < if leading s < 2 ^ 63 then leading s % 256 else 255

end

theorem lt_plen_iff {maxlen : Nat} {n : List Char} : maxlen < plen n ↔
    match n.dropWhile isspace with
    | '-' :: s => 2 ^ 63 > leading s ∧ maxlen < (256 - leading s % 256) % 256
    | '+' :: s => maxlen < if leading s < 2 ^ 63 then leading s % 256 else 255
    | s => maxlen < if leading s < 2 ^ 63 then leading s % 256 else 255 := by
  rw [plen, atoi]
  split
  · omega
  all_goals split_ifs <;> omega

theorem atoi_of_isLength {maxlen : Nat} {n : List Char} (few : maxlen < 256)
    (len : IsLength maxlen n) : atoi n = decimal n := by
  obtain ⟨some, digits, le⟩ := len
  have all : n.takeWhile isdigit = n := takeWhile_eq_self_iff.mpr digits
  rcases n with _ | ⟨c, n⟩
  · exact absurd rfl some
  · have digit := digits c mem_cons_self
    simp only [isdigit, decide_eq_true_eq] at digit
    have start : (c :: n).dropWhile isspace = c :: n := by
      rw [dropWhile_cons_of_neg]
      simp only [isspace, decide_eq_true_eq]
      omega
    rw [atoi, start]
    split
    · next eq =>
      obtain ⟨rfl, -⟩ := cons.inj eq
      contradiction
    · next eq =>
      obtain ⟨rfl, -⟩ := cons.inj eq
      contradiction
    · rw [leading, all]
      omega

theorem plen_of_isLength {maxlen : Nat} {n : List Char} (few : maxlen < 256)
    (len : IsLength maxlen n) : plen n = decimal n := by
  rw [plen, atoi_of_isLength few len]
  have := len.2.2
  omega

theorem str2prefixWith_iff {A : Type} {aton : List Char → Option A} {maxlen : Nat}
    (few : maxlen < 256) (str : List Char) :
    (∀ a len, str2prefixWith aton maxlen str = some (a, len) ↔ Denotes aton maxlen str a len) ↔
      ReadsLength aton maxlen str := by
  by_cases slash : '/' ∈ str
  · simp only [str2prefixWith, Denotes, ReadsLength, slash, true_implies, ← lt_plen_iff]
    cases address : aton (addrText str) with
    | none => simp
    | some a =>
      by_cases good : IsLength maxlen (plenText str)
      · rw [plen_of_isLength few good, if_neg (not_lt.mpr good.2.2)]
        simp [good, eq_comm]
      · by_cases long : maxlen < plen (plenText str) <;> simp [good, long]
  · simp only [str2prefixWith, Denotes, ReadsLength, slash, if_false, false_implies, iff_true]
    intro a len
    cases aton str <;> simp [eq_comm]

/-- Both functions accept exactly the texts that denote a prefix, and give that prefix, unless the
text behind the slash is no length and is read as one. -/
theorem str2prefix_exact_iff {A B : Type} (inetAton : List Char → Option A)
    (inetPton : List Char → Option B) (str : List Char) :
    ((∀ a len, str2prefixIpv4 str inetAton = some (a, len) ↔ Denotes inetAton 32 str a len) ↔
        ReadsLength inetAton 32 str) ∧
      ((∀ a len, str2prefixIpv6 str inetPton = some (a, len) ↔ Denotes inetPton 128 str a len) ↔
        ReadsLength inetPton 128 str) :=
  ⟨str2prefixWith_iff (by decide) str, str2prefixWith_iff (by decide) str⟩

/-- An address and a slash. -/
theorem emptyLength_accepted :
    str2prefixIpv4 ['1', '/'] (fun s => if s = ['1'] then some 1 else none) = some (1, 0) := by
  decide

end Mp2mp.Lib
