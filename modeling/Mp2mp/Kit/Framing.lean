import Mathlib

/-!
# Frames in a byte stream

A receiver collects a stream piece by piece in a buffer, cuts complete frames off
its front and hands them to a handler, until the buffer holds no complete frame or
the handler gives up.

`drain_frames`: if the buffer and what is still to come make up a sequence of frames,
the handler sees the frames that are complete, in order, and what is left is the start
of the others, unless the handler has come to its end.
-/

namespace Mp2mp.Kit

open List

variable {α σ : Type} {s : σ}

/-- A sequence that is cut off as soon as all of it is there, and not before. -/
structure IsFrame (cut : List α → Option (List α × List α)) (f : List α) : Prop where
  ne_nil : f ≠ []
  cut_append : ∀ rest, cut (f ++ rest) = some (f, rest)
  cut_short : ∀ p q, p ++ q = f → q ≠ [] → cut p = none

/-- Cut frames off the buffer and hand them on, until none is complete or the handler
gives up.  Fuel counts the frames. -/
def drain (cut : List α → Option (List α × List α)) (handle : σ → List α → σ × Bool) :
    Nat → σ → List α → σ × List α
  | 0, s, buf => (s, buf)
  | fuel + 1, s, buf =>
    match cut buf with
    | none => (s, buf)
    | some (f, rest) =>
      if (handle s f).2 then drain cut handle fuel (handle s f).1 rest
      else ((handle s f).1, rest)

/-- The handler is live as it takes the frames one after the other; it gives up on none, or on
one after which it is live no more. -/
def Handles (handle : σ → List α → σ × Bool) (live : σ → Prop) : σ → List (List α) → σ → Prop
  | s, [], s' => s' = s
  | s, f :: fs, s' => live s ∧
    if (handle s f).2 then Handles handle live (handle s f).1 fs s'
    else s' = (handle s f).1 ∧ ¬live s'

variable {cut : List α → Option (List α × List α)} {handle : σ → List α → σ × Bool}

/-- One round of `drain`. -/
theorem drain_cut {buf f rest : List α} (fuel : Nat) (h : cut buf = some (f, rest)) :
    drain cut handle (fuel + 1) s buf =
      if (handle s f).2 then drain cut handle fuel (handle s f).1 rest
      else ((handle s f).1, rest) := by
  rw [drain, h]

theorem drain_none {buf : List α} (fuel : Nat) (h : cut buf = none) :
    drain cut handle fuel s buf = (s, buf) := by
  cases fuel with
  | zero => rfl
  | succ fuel => rw [drain, h]

theorem drain_invariant {I : σ → Prop} (hkeep : ∀ s f, I s → I (handle s f).1) (h : I s)
    (fuel : Nat) (buf : List α) : I (drain cut handle fuel s buf).1 := by
  fun_induction drain cut handle fuel s buf with
  | case1 | case2 => exact h
  | case3 _ _ _ _ _ _ _ ih => exact ih (hkeep _ _ h)
  | case4 => exact hkeep _ _ h

/-- A buffer holds the frame that the stream starts with, or not all of it. -/
theorem IsFrame.split {f buf later tail : List α} (hframe : IsFrame cut f)
    (hsplit : buf ++ later = f ++ tail) : (∃ rest, buf = f ++ rest ∧ rest ++ later = tail) ∨
      (cut buf = none ∧ buf.length < f.length) := by
  rcases append_eq_append_iff.mp hsplit with ⟨q, hf, -⟩ | ⟨rest, hbuf, htail⟩
  · cases q with
    | nil => exact .inl ⟨[], by rw [hf, append_nil, append_nil], by simpa [hf] using hsplit⟩
    | cons a q =>
      exact .inr ⟨hframe.cut_short buf (a :: q) hf.symm (cons_ne_nil a q), by simp [hf]⟩
  · exact .inl ⟨rest, hbuf, htail.symm⟩

theorem IsFrame.lt_length {f buf later tail : List α} (hframe : IsFrame cut f)
    (hcut : cut buf = none) (hsplit : buf ++ later = f ++ tail) : buf.length < f.length := by
  rcases hframe.split hsplit with ⟨rest, rfl, -⟩ | ⟨-, hlt⟩
  · rw [hframe.cut_append] at hcut
    cases hcut
  · exact hlt

/-- The handler gets the complete frames; the buffer keeps the start of the next one. -/
theorem drain_frames (hnil : cut [] = none) {live : σ → Prop} {s' : σ} {fs : List (List α)}
    (hframes : ∀ f ∈ fs, IsFrame cut f) (hall : Handles handle live s fs s') {buf later : List α}
    {fuel : Nat} (hsplit : buf ++ later = fs.flatten) (hfuel : buf.length ≤ fuel) :
    ∃ mid rest, drain cut handle fuel s buf = (mid, rest) ∧ ((mid = s' ∧ ¬live s') ∨
      ∃ todo ⊆ fs, cut rest = none ∧ rest ++ later = todo.flatten ∧
        Handles handle live mid todo s') := by
  induction fs generalizing s buf fuel with
  | nil =>
    obtain ⟨rfl, -⟩ := append_eq_nil_iff.mp hsplit
    exact ⟨s, [], drain_none fuel hnil, .inr ⟨[], Subset.refl _, hnil, hsplit, hall⟩⟩
  | cons f fs ih =>
    obtain ⟨hframe, hframes⟩ := forall_mem_cons.mp hframes
    rcases hframe.split hsplit with ⟨rest, rfl, hrest⟩ | ⟨hshort, -⟩
    · obtain ⟨-, hall⟩ := hall
      have hpos := length_pos_iff.mpr hframe.ne_nil
      rw [length_append] at hfuel
      cases fuel with
      | zero => omega
      | succ fuel =>
        rw [drain_cut fuel (hframe.cut_append rest)]
        have hfew : rest.length ≤ fuel := by omega
        split at hall
        · rw [if_pos ‹_›]
          obtain ⟨mid, left, hdrain, hleft⟩ := ih hframes hall hrest hfew
          refine ⟨mid, left, hdrain, hleft.imp_right ?_⟩
          exact fun ⟨todo, hsub, htodo⟩ => ⟨todo, fun g hg => mem_cons_of_mem f (hsub hg), htodo⟩
        · rw [if_neg ‹_›]
          exact ⟨_, rest, rfl, .inl ⟨hall.1.symm, hall.2⟩⟩
    · exact ⟨s, buf, drain_none fuel hshort, .inr ⟨f :: fs, Subset.refl _, hshort, hsplit, hall⟩⟩

end Mp2mp.Kit
