import Chiptune.Proofs.Replay.Steps

/-!
# Transcripts of machines

The transcript of a history of requests are the accesses that a machine makes for them: the
calls of routines, and the instructions of all the steps that are taken before the routine
halts, the budget is exhausted or something faults (`Machine.transcript`).

A transcript says what the registers of the window hold in the end (`Bus.Recalls`): each of
them holds the byte that was stored last at its address, whatever has been collected from
the bus in between, and one that has no address holds what it held before
(`Machine.recalls_transcript`).
-/

namespace Chiptune

/-! ## What a history leaves in the registers -/

/-- After a history of accesses that began on one bus, the registers of another one hold what
was stored last. -/
structure Bus.Recalls (bus : Bus) (history : List Access) (other : Bus) : Prop where
  layout : bus.SameLayout other
  held_eq : ∀ {address : UInt16} {register : UInt8}, bus.register? address = some register →
    other.held register = (lastStored address.toNat history).getD (bus.held register)
  held_outside : ∀ {register : UInt8}, (∀ address, bus.register? address ≠ some register) →
    other.held register = bus.held register

namespace Bus

variable {bus other last : Bus} {history more : List Access}

/-- It makes no difference what is collected from the bus afterwards. -/
theorem recalls_after (bus : Bus) (history : List Access) (pending : Array Setting)
    (fault : Option AddressFault) :
    bus.Recalls history { bus.after history with pending, fault } where
  layout :=
    have h := SameLayout.after bus history
    ⟨h.window, h.windowLoads, h.size⟩
  held_eq := held_after bus history
  held_outside := held_after_of_forall_ne bus history

theorem Recalls.refl (bus : Bus) : bus.Recalls [] bus :=
  recalls_after bus [] bus.pending bus.fault

theorem Recalls.trans (h : bus.Recalls history other) (h' : other.Recalls more last) :
    bus.Recalls (history ++ more) last where
  layout := h.layout.trans h'.layout
  held_eq {address register} hregister := by
    rw [h'.held_eq (h.layout.register?_eq ▸ hregister), h.held_eq hregister, lastStored_append]
    cases lastStored address.toNat more <;> rfl
  held_outside hregister :=
    (h'.held_outside (h.layout.register?_eq ▸ hregister)).trans (h.held_outside hregister)

/-- A register to which nothing was stored holds what it held. -/
theorem Recalls.held_of_forall_store (h : bus.Recalls history other) {register : UInt8}
    (hnone : ∀ address value, .store address value ∈ history →
      bus.register? address ≠ some register) :
    other.held register = bus.held register := by
  by_cases hregister : ∃ address, bus.register? address = some register
  · obtain ⟨address, haddress⟩ := hregister
    have hlast : lastStored address.toNat history = none :=
      lastStored_eq_none fun value hstore => hnone address value hstore haddress
    rw [h.held_eq haddress, hlast]
    rfl
  · exact h.held_outside (not_exists.mp hregister)

end Bus

/-! ## The accesses of a history of requests -/

namespace Machine

variable {ρ : Type} (processor : Processor ρ)

/-- The accesses of the next step. -/
def stepAccesses (m : Machine ρ) : List Access :=
  if m.halted then [] else m.accesses processor

/-- The accesses of a run. -/
def runAccesses : (budget : ℕ) → Machine ρ → List Access
  | 0, _ => []
  | budget + 1, m =>
    stepAccesses processor m ++
      match step processor m with
      | (.ok _, next) => runAccesses budget next
      | (.error _, _) => []

/-- The accesses that are made for a request. -/
def requestAccesses : Request → Machine ρ → List Access
  | .enter _, _ => callAccesses processor
  | .step, m => stepAccesses processor m
  | .run budget, m => runAccesses processor budget m

/-- The accesses that are made for a history of requests. -/
def transcript : List Request → Machine ρ → List Access
  | [], _ => []
  | request :: rest, m =>
    requestAccesses processor request m ++
      transcript rest ((source processor).grant request m).2

variable {processor} {m : Machine ρ}

theorem stepAccesses_of_halted (h : m.halted = true) : stepAccesses processor m = [] :=
  if_pos h

theorem runAccesses_succ_of_ok {writes : List Write} {next : Machine ρ}
    (h : step processor m = (.ok writes, next)) (budget : ℕ) :
    runAccesses processor (budget + 1) m =
      stepAccesses processor m ++ runAccesses processor budget next := by
  conv_lhs => rw [runAccesses, h]

theorem runAccesses_succ_of_error {fault : Fault} {next : Machine ρ}
    (h : step processor m = (.error fault, next)) (budget : ℕ) :
    runAccesses processor (budget + 1) m = stepAccesses processor m := by
  rw [runAccesses, h]
  exact List.append_nil _

theorem runAccesses_of_halted (h : m.halted = true) (budget : ℕ) :
    runAccesses processor budget m = [] := by
  induction budget with
  | zero => rfl
  | succ budget ih =>
      rw [runAccesses_succ_of_ok (step_of_halted h), stepAccesses_of_halted h, ih]
      rfl

theorem recalls_enter (routine : Routine) (m : Machine ρ) :
    m.bus.Recalls (callAccesses processor) (enter processor routine m).bus := by
  have hcleared := Bus.recalls_after m.bus [] #[] none
  rw [bus_enter]
  exact hcleared.trans (Bus.recalls_after _ (callAccesses processor) _ _)

theorem recalls_step {result : Except Fault (List Write)} {next : Machine ρ}
    (hstep : step processor m = (result, next)) :
    m.bus.Recalls (stepAccesses processor m) next.bus := by
  unfold stepAccesses
  cases hm : m.halted with
  | true =>
      rw [step_of_halted hm] at hstep
      cases hstep
      exact .refl m.bus
  | false =>
      rcases result with fault | writes
      · rw [(step_eq_error hstep).2]
        exact Bus.recalls_after ..
      · rw [(step_eq_ok hm hstep).2.2]
        exact Bus.recalls_after ..

theorem recalls_run (budget : ℕ) (m : Machine ρ) :
    m.bus.Recalls (runAccesses processor budget m) ((source processor).run budget m).2.bus := by
  refine Source.run_induct (source processor)
    (motive := fun budget m result => m.bus.Recalls (runAccesses processor budget m) result.2.bus)
    ?halted ?timedOut ?fault ?step ?later budget m
  case halted =>
    intro budget m hm
    rw [runAccesses_of_halted hm]
    exact .refl m.bus
  case timedOut => exact fun m _ => .refl m.bus
  case fault =>
    -- The step that faults has made its accesses all the same, but none comes after it.
    intro budget m fault next _ hstep
    rw [runAccesses_succ_of_error hstep]
    exact recalls_step hstep
  case step =>
    intro budget m writes next run last _ hstep ih
    rw [runAccesses_succ_of_ok hstep]
    exact (recalls_step hstep).trans ih
  case later =>
    intro budget m writes next fault last _ hstep ih
    rw [runAccesses_succ_of_ok hstep]
    exact (recalls_step hstep).trans ih

theorem recalls_grant (request : Request) (m : Machine ρ) :
    m.bus.Recalls (requestAccesses processor request m)
      ((source processor).grant request m).2.bus := by
  cases request with
  | enter routine => exact recalls_enter routine m
  | step => exact recalls_step rfl
  | run budget =>
      rw [Source.snd_grant_run]
      exact recalls_run budget m

/-- The registers hold what the transcript of a history stored last. -/
theorem recalls_transcript (history : List Request) (m : Machine ρ) :
    m.bus.Recalls (transcript processor history m) ((source processor).after history m).bus := by
  induction history generalizing m with
  | nil => exact .refl m.bus
  | cons request rest ih => exact (recalls_grant request m).trans (ih _)

end Machine

end Chiptune
