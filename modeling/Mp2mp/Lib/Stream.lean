import Mp2mp.Kit.Bytes

/-!
# Streams

The part of `lib/stream.c` that writes packets.  A stream is a buffer of a fixed
size of which the first `endp` bytes have been written.  Writing past the end is
`STREAM_BOUND_WARN`, an `assert (0)`, here `none`.
-/

namespace Mp2mp.Lib

open Kit List

/-- `struct stream`: the bytes written so far, never more than fit. -/
structure Stream where
  size : Nat
  data : List UInt8
  endp_le_size : data.length ≤ size
deriving DecidableEq

namespace Stream

def endp (s : Stream) : Nat := s.data.length

def writeable (s : Stream) : Nat := s.size - s.endp

def put (s : Stream) (bytes : List UInt8) : Option Stream :=
  if h : s.data.length + bytes.length ≤ s.size then
    some ⟨s.size, s.data ++ bytes, by rwa [length_append]⟩
  else none

def putc (s : Stream) (c : UInt8) : Option Stream := s.put [c]

def putw (s : Stream) (w : Nat) : Option Stream := s.put (toBe 2 w)

def putl (s : Stream) (l : Nat) : Option Stream := s.put (toBe 4 l)

def putcAt (s : Stream) (putp : Nat) (c : UInt8) : Option Stream :=
  if putp + 1 ≤ s.endp then
    some ⟨s.size, s.data.set putp c, by rw [length_set]; exact s.endp_le_size⟩
  else none

def putwAt (s : Stream) (putp : Nat) (w : Nat) : Option Stream :=
  if h : putp + 2 ≤ s.endp then
    some ⟨s.size, s.data.take putp ++ toBe 2 w ++ s.data.drop (putp + 2), by
      have := s.endp_le_size
      rw [endp] at h
      simp only [length_append, List.length_take, length_toBe, length_drop]
      omega⟩
  else none

/-- The stream with some bytes added, when there is room for them. -/
def Wrote (s : Stream) (bytes : List UInt8) (s' : Stream) : Prop :=
  s'.size = s.size ∧ s'.data = s.data ++ bytes

variable {s s₁ s₂ : Stream} {bytes more : List UInt8}

theorem Wrote.refl (s : Stream) : s.Wrote [] s := ⟨rfl, by simp⟩

theorem Wrote.trans (first : s.Wrote bytes s₁) (second : s₁.Wrote more s₂) :
    s.Wrote (bytes ++ more) s₂ := by
  obtain ⟨size₁, data₁⟩ := first
  obtain ⟨size₂, data₂⟩ := second
  exact ⟨size₂.trans size₁, by rw [data₂, data₁, append_assoc]⟩

theorem Wrote.writeable (h : s.Wrote bytes s₁) : s₁.writeable = s.writeable - bytes.length := by
  obtain ⟨hsize, hdata⟩ := h
  simp only [Stream.writeable, endp, hsize, hdata, length_append]
  omega

theorem Wrote.endp_sub (h : s.Wrote bytes s₁) : s₁.endp - s.endp = bytes.length := by
  rw [endp, endp, h.2, length_append, Nat.add_sub_cancel_left]

theorem put_wrote (room : bytes.length ≤ s.writeable) : ∃ s', s.put bytes = some s' ∧
    s.Wrote bytes s' := by
  have fits : s.data.length + bytes.length ≤ s.size := by
    have := s.endp_le_size
    simp only [Stream.writeable, endp] at room
    omega
  rw [put, dif_pos fits]
  exact ⟨_, rfl, rfl, rfl⟩

/-! ## Writers -/

/-- A step that adds `out` to any stream with room for it. -/
def Writes (f : Stream → Option Stream) (out : List UInt8) : Prop :=
  ∀ s, out.length ≤ s.writeable → ∃ s', f s = some s' ∧ s.Wrote out s'

variable {f g : Stream → Option Stream}

theorem Writes.put (bytes : List UInt8) : Writes (fun s => s.put bytes) bytes :=
  fun _ room => put_wrote room

theorem Writes.bind (first : Writes f bytes) (second : Writes g more) :
    Writes (fun s => (f s).bind g) (bytes ++ more) := by
  intro s room
  rw [length_append] at room
  obtain ⟨s₁, run₁, wrote₁⟩ := first s (by omega)
  obtain ⟨s₂, run₂, wrote₂⟩ := second s₁ (by rw [wrote₁.writeable]; omega)
  exact ⟨s₂, by simp only [run₁, Option.bind_some, run₂], wrote₁.trans wrote₂⟩

theorem Writes.foldlM {α : Type} {step : Stream → α → Option Stream} {out : α → List UInt8}
    {l : List α} (h : ∀ a ∈ l, Writes (fun s => step s a) (out a)) :
    Writes (fun s => l.foldlM step s) (l.flatMap out) := by
  induction l with
  | nil => exact fun s _ => ⟨s, rfl, .refl s⟩
  | cons a l ih =>
    rw [flatMap_cons]
    exact (h a (by simp)).bind (ih fun b hb => h b (by simp [hb]))

/-- A length that was left open is filled in. -/
theorem putwAt_wrote (w : Nat) (h : s.Wrote (toBe 2 0 ++ bytes) s₁) :
    ∃ s', s₁.putwAt s.endp w = some s' ∧ s.Wrote (toBe 2 w ++ bytes) s' := by
  obtain ⟨hsize, hdata⟩ := h
  have fits : s.endp + 2 ≤ s₁.endp := by
    simp only [endp, hdata, length_append, length_toBe]
    omega
  rw [putwAt, dif_pos fits]
  refine ⟨_, rfl, hsize, ?_⟩
  simp only [endp, hdata]
  rw [take_left', append_assoc, ← drop_drop, drop_left', drop_left'] <;> simp

end Stream

end Mp2mp.Lib
