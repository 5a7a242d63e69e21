import Mathlib

/-!
# Runs of faulting stateful code

Stateful code is an `EStateM ε σ α`: it either returns, or it stops at a fault
`ε`, and in both cases the state it reached is known.  A reactive system is such
a program for each event; its runs are the sequences of events that are all
handled without a fault.

* `run_bind_ok`, `run_bind_error`: one step of inversion per statement.
* `fault x s`: the fault that `x` stops at when it is started in `s`.
* `Triple P x Q E`: started where `P` holds, `x` returns with `Q` or stops with `E`;
  one rule per statement of the language.
* `Stable I x`: the property `I` holds after `x` if it held before.
* `Run step init good tr s`: the events `tr`, each meeting the condition `good`
  in the state it arrives in, are handled one after the other and leave `s`.
* `Run.invariant`: a property of the initial state that every step meeting
  `good` preserves holds in every state such a run reaches.
-/

namespace Mp2mp.Kit

open EStateM

section

variable {ε σ α β : Type} {x : EStateM ε σ α} {f : α → EStateM ε σ β} {s s' : σ} {e : ε}

theorem run_get_bind {f : σ → EStateM ε σ β} : (get >>= f).run s = (f s).run s := rfl

theorem run_bind_ok {b : β} :
    (x >>= f).run s = .ok b s' ↔ ∃ a s₁, x.run s = .ok a s₁ ∧ (f a).run s₁ = .ok b s' := by
  rw [run_bind]
  cases x.run s with
  | ok a s₁ => simp
  | error e s₁ => simp

theorem run_bind_error : (x >>= f).run s = .error e s' ↔
      x.run s = .error e s' ∨ ∃ a s₁, x.run s = .ok a s₁ ∧ (f a).run s₁ = .error e s' := by
  rw [run_bind]
  cases x.run s with
  | ok a s₁ => simp
  | error e₁ s₁ => simp

/-- The fault a program stops at. -/
def fault (x : EStateM ε σ α) (s : σ) : Option ε :=
  match x.run s with
  | .ok _ _ => none
  | .error e _ => some e

theorem fault_eq_some : fault x s = some e ↔ ∃ s', x.run s = .error e s' := by
  unfold fault
  cases x.run s with
  | ok a s₁ => simp
  | error e₁ s₁ => simp

theorem fault_of_run_eq {y : EStateM ε σ α} (h : x.run s = y.run s') : fault x s = fault y s' := by
  rw [fault, h, ← fault]

/-- The state a program ends in. -/
def final (x : EStateM ε σ α) (s : σ) : σ :=
  match x.run s with
  | .ok _ s' => s'
  | .error _ s' => s'

theorem run_eq_final {x : EStateM ε σ Unit} (h : fault x s = none) :
    x.run s = .ok () (final x s) := by
  unfold final
  unfold fault at h
  cases hrun : x.run s with
  | ok a s₁ => rfl
  | error e s₁ =>
    rw [hrun] at h
    cases h

end

section

variable {ε σ α β : Type} {x : EStateM ε σ α} {f : α → EStateM ε σ β} {s s' : σ} {e : ε}

/-- Started in a state meeting `P`, the program returns with `Q` or stops with `E`.
A structure, so that unification never runs the program. -/
structure Triple (P : σ → Prop) (x : EStateM ε σ α) (Q : α → σ → Prop) (E : ε → σ → Prop) :
    Prop where
  run : ∀ s, P s →
    match x.run s with
    | .ok a s' => Q a s'
    | .error e s' => E e s'

namespace Triple

variable {P P' : σ → Prop} {Q Q' : α → σ → Prop} {R : β → σ → Prop} {E E' : ε → σ → Prop}

theorem pure {a : α} (h : ∀ s, P s → Q a s) : Triple P (pure a : EStateM ε σ α) Q E := ⟨h⟩

theorem throw (h : ∀ s, P s → E e s) : Triple P (throw e : EStateM ε σ α) Q E := ⟨h⟩

theorem modify {f : σ → σ} {Q : Unit → σ → Prop} (h : ∀ s, P s → Q () (f s)) :
    Triple P (modify f : EStateM ε σ Unit) Q E := ⟨h⟩

theorem bind (hx : Triple P x Q E) (hf : ∀ a, Triple (Q a) (f a) R E) : Triple P (x >>= f) R E := by
  refine ⟨fun s hs => ?_⟩
  have hrun := hx.run s hs
  rw [run_bind]
  cases h : x.run s with
  | ok a s₁ =>
    rw [h] at hrun
    exact (hf a).run s₁ hrun
  | error e s₁ =>
    rw [h] at hrun
    exact hrun

/-- Reading the state, when what is read does not matter. -/
theorem get {f : σ → EStateM ε σ β} (h : ∀ a, Triple P (f a) R E) :
    Triple P (MonadState.get >>= f) R E :=
  ⟨fun s hs => (h s).run s hs⟩

theorem forM {γ : Type} {f : γ → EStateM ε σ PUnit} {xs : List γ}
    (h : ∀ x ∈ xs, Triple P (f x) (fun _ => P) E) : Triple P (xs.forM f) (fun _ => P) E := by
  induction xs with
  | nil => exact ⟨fun _ hs => hs⟩
  | cons x xs ih =>
    exact bind (h x List.mem_cons_self) fun _ => ih fun y hy => h y (List.mem_cons_of_mem _ hy)

theorem of_ok {a : α} (hx : Triple P x Q E) (hs : P s) (hrun : x.run s = .ok a s') : Q a s' := by
  have h := hx.run s hs
  rwa [hrun] at h

theorem of_error (hx : Triple P x Q E) (hs : P s) (hrun : x.run s = .error e s') : E e s' := by
  have h := hx.run s hs
  rwa [hrun] at h

theorem ite {c : Prop} [Decidable c] {y : EStateM ε σ α} (hx : c → Triple P x Q E)
    (hy : ¬c → Triple P y Q E) : Triple P (if c then x else y) Q E := by
  split
  · exact hx ‹c›
  · exact hy ‹¬c›

theorem conseq (hP : ∀ s, P s → P' s) (hx : Triple P' x Q' E')
    (hQ : ∀ a s, Q' a s → Q a s) (hE : ∀ e s, E' e s → E e s) : Triple P x Q E := by
  refine ⟨fun s hs => ?_⟩
  have hrun := hx.run s (hP s hs)
  cases h : x.run s with
  | ok a s₁ =>
    rw [h] at hrun
    exact hQ a s₁ hrun
  | error e s₁ =>
    rw [h] at hrun
    exact hE e s₁ hrun

/-- A fact about the arguments in a precondition is a hypothesis. -/
theorem of_fact {p : Prop} (hx : p → Triple P x Q E) : Triple (fun s => p ∧ P s) x Q E :=
  ⟨fun s hs => (hx hs.1).run s hs.2⟩

theorem bind_of {p : α → Prop} (hx : Triple P x (fun a s => p a ∧ Q a s) E)
    (hf : ∀ a, p a → Triple (Q a) (f a) R E) : Triple P (x >>= f) R E :=
  hx.bind fun a => of_fact (hf a)

end Triple

/-- A program that leaves a property of the state alone, whether it returns or stops. -/
abbrev Stable (I : σ → Prop) (x : EStateM ε σ α) : Prop := Triple I x (fun _ => I) fun _ _ => True

namespace Stable

variable {I : σ → Prop}

theorem pure (a : α) : Stable I (pure a : EStateM ε σ α) := Triple.pure fun _ h => h

theorem throw (e : ε) : Stable I (throw e : EStateM ε σ α) := Triple.throw fun _ _ => trivial

theorem modify {f : σ → σ} (h : ∀ s, I s → I (f s)) : Stable I (modify f : EStateM ε σ Unit) :=
  Triple.modify h

theorem bind (hx : Stable I x) (hf : ∀ a, Stable I (f a)) : Stable I (x >>= f) :=
  Triple.bind hx hf

theorem get {f : σ → EStateM ε σ β} (h : ∀ a, Stable I (f a)) : Stable I (MonadState.get >>= f) :=
  Triple.get h

theorem ite {c : Prop} [Decidable c] {y : EStateM ε σ α} (hx : Stable I x) (hy : Stable I y) :
    Stable I (if c then x else y) :=
  Triple.ite (fun _ => hx) fun _ => hy

end Stable

end

section

variable {ε σ ι : Type} (step : ι → EStateM ε σ Unit) (init : σ)

/-- The events `tr`, each meeting `good` in the state it arrives in, lead from
`init` to the indexed state without a fault. -/
inductive Run (good : σ → ι → Prop) : List ι → σ → Prop
  | nil : Run good [] init
  | snoc {tr : List ι} {s s' : σ} {e : ι} :
    Run good tr s → good s e → (step e).run s = .ok () s' → Run good (tr ++ [e]) s'

/-- The states some sequence of events leads to. -/
def Reachable (s : σ) : Prop := ∃ tr, Run step init (fun _ _ => True) tr s

variable {step init} {good : σ → ι → Prop} {tr : List ι} {s s' : σ}

theorem Run.weaken {good' : σ → ι → Prop} (hg : ∀ s e, good s e → good' s e)
    (h : Run step init good tr s) : Run step init good' tr s := by
  induction h with
  | nil => exact .nil
  | snoc _ hgood hstep ih => exact .snoc ih (hg _ _ hgood) hstep

theorem Run.reachable (h : Run step init good tr s) : Reachable step init s :=
  ⟨tr, h.weaken fun _ _ _ => trivial⟩

/-- The invariant rule: what holds initially and survives every step meeting
`good` holds wherever a run of such steps leads. -/
theorem Run.invariant {I : σ → Prop} (hinit : I init)
    (hstep : ∀ s e s', I s → good s e → (step e).run s = .ok () s' → I s')
    {tr : List ι} {s : σ} (h : Run step init good tr s) : I s := by
  induction h with
  | nil => exact hinit
  | snoc _ hgood hrun ih => exact hstep _ _ _ ih hgood hrun

theorem Reachable.invariant {I : σ → Prop} (hinit : I init)
    (hstep : ∀ s e s', I s → (step e).run s = .ok () s' → I s')
    {s : σ} (h : Reachable step init s) : I s := by
  obtain ⟨tr, run⟩ := h
  exact run.invariant hinit fun s e s' hs _ hrun => hstep s e s' hs hrun

/-- Handle the events one after the other, as long as `good` holds and none faults. -/
def play (step : ι → EStateM ε σ Unit) (good : σ → ι → Prop) [∀ s e, Decidable (good s e)] :
    List ι → σ → Option σ
  | [], s => some s
  | e :: tr, s =>
    if good s e then
      match (step e).run s with
      | .ok _ s' => play step good tr s'
      | .error _ _ => none
    else none

/-- What `play` computes is a run. -/
theorem Run.append [∀ s e, Decidable (good s e)] {tr' : List ι}
    (h : Run step init good tr s) (hplay : play step good tr' s = some s') :
    Run step init good (tr ++ tr') s' := by
  induction tr' generalizing tr s with
  | nil =>
    cases hplay
    rwa [List.append_nil]
  | cons e tr' ih =>
    rw [play] at hplay
    split at hplay
    · rename_i hgood
      split at hplay
      · rename_i hstep
        have htail := ih (h.snoc hgood hstep) hplay
        rwa [List.append_assoc, List.singleton_append] at htail
      · cases hplay
    · cases hplay

theorem Run.of_play [∀ s e, Decidable (good s e)] (h : (play step good tr init).isSome) :
    Run step init good tr ((play step good tr init).get h) :=
  Run.append .nil (Option.some_get h).symm

theorem foldlM_keeps {α : Type} {I : σ → Prop} {f : σ → α → Option σ}
    (keeps : ∀ s a s', I s → f s a = some s' → I s') (l : List α) {s s' : σ} (h : I s)
    (run : l.foldlM f s = some s') : I s' := by
  induction l generalizing s with
  | nil =>
    cases run
    exact h
  | cons a l ih =>
    obtain ⟨s₁, first, rest⟩ := Option.bind_eq_some_iff.mp run
    exact ih (keeps s a s₁ h first) rest

end

end Mp2mp.Kit
