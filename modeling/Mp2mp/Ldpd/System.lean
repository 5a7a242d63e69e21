import Mp2mp.Lde.CrossLinks
import Mp2mp.Ldpd.Processes

/-!
# Labels and sessions

The labels that the LDE retains against the sessions of the LDP engine, in the system of
the two processes.

* `lde_reachable`: the states of the LDE are those it reaches on its own.
* `retained_from_sessions`: a label that a FEC node lists is one of a neighbour whose session is
  established, unless the end of the session is on its way.
-/

namespace Mp2mp.Ldpd

open Kit Ldpe List

variable {r : Lde.Freed} {s : Processes} {p : UInt32}

theorem lde_reachable (h : Reachable (processStep r) Processes.init s) :
    Reachable (Lde.step r) Lde.Engine.init s.lde := by
  refine h.invariant (I := fun s => Reachable (Lde.step r) Lde.Engine.init s.lde) ⟨[], .nil⟩ ?_
  rintro s e s' ⟨tr, hs⟩ hrun
  rcases processStep_inv hrun with ⟨e', rfl⟩ | rfl | ⟨m, rest, fresh, lde, -, hlde, rfl⟩ |
    ⟨e', lde, hlde, rfl⟩
  · exact ⟨tr, hs⟩
  · exact ⟨tr, hs⟩
  · exact ⟨_, hs.snoc trivial hlde⟩
  · exact ⟨_, hs.snoc trivial hlde⟩

/-- A neighbour stays until a message takes it away. -/
theorem announceAll_or_down {live : UInt32 → Prop} {ms : List PipeMsg} (hp : live p) :
    announceAll live ms p ∨ (p, .neighborDown) ∈ ms := by
  induction ms generalizing live with
  | nil => exact .inl hp
  | cons m ms ih =>
    by_cases hm : m = (p, .neighborDown)
    · exact .inr (hm ▸ mem_cons_self)
    · have hkept : announce live m p := by
        obtain ⟨q, msg⟩ := m
        cases msg with
        | neighborUp => exact .inr hp
        | neighborDown => exact ⟨fun hq => hm (by rw [hq]), hp⟩
        | _ => exact hp
      exact (ih hkept).imp_right (mem_cons_of_mem m)

/-- However the two processes take turns, a label that a FEC node lists is in the received maps of
its neighbour, and the session with this neighbour is established or its end is in the pipe. -/
theorem retained_from_sessions (h : Reachable (processStep r) Processes.init s)
    (hcount : s.ldpe.established < 2 ^ 31) (fec : Fec) {fn : Lde.FecNode}
    (hfn : s.lde.lib.node? fec = some fn) (hp : p ∈ fn.downstream) :
    (∃ ln ∈ s.lde.lib.nbr? p, fec ∈ ln.recvMap.map Lde.LdeMap.fec) ∧
      (Oper s.ldpe p ∨ (p, .neighborDown) ∈ s.pipe) := by
  have hlisted : p ∈ s.lde.lib.retained.downstream fec := Lde.mem_elim.mpr ⟨fn, hfn, hp⟩
  obtain ⟨ln, hln, hmem⟩ :=
    Lde.recv_isSome.mp (((Lde.retained_linked (lde_reachable h)).mem ..).mp hlisted)
  refine ⟨⟨ln, hln, hmem⟩, ?_⟩
  rw [← (agree_of_reachable h hcount).views]
  exact announceAll_or_down (Lde.Lib.nbr?_isSome.mp (Option.isSome_of_mem hln))

/-- The neighbour of the session sends a mapping for 10.0.3.0/24, and the LDE reads it. -/
def mappingRead : List ProcessEvent :=
  sessionUp ++ [.ldpe (.received 0 (.labelMapping
    { ldeFec2map (.ipv4 0x0a000300 24) with label := 100 })), .ldeReads true]

theorem mappingRead_from_sessions :
    ∃ s, Run (processStep .lost) Processes.init (fun _ _ => True) mappingRead s ∧ s.pipe = [] ∧
      (Oper s.ldpe 2 ∨ (2, .neighborDown) ∈ s.pipe) :=
  ⟨_, Run.of_play (by decide +kernel), by decide +kernel,
    (retained_from_sessions (Run.of_play (by decide +kernel)).reachable (by decide +kernel)
      (.ipv4 0x0a000300 24) (Option.some_get (by decide +kernel)).symm (by decide +kernel)).2⟩

end Mp2mp.Ldpd
