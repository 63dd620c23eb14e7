import Chiptune.Mos6502.Execute
import Chiptune.Proofs.Replay.Steps
import Chiptune.Z80.Execute
import Mathlib.Data.List.Induction

/-!
# Faults of machines

A bus keeps the first access for which there is no place, and a machine looks for it
only when an instruction is over.  Between the two other things may happen: the access
may be one of the stores that call a routine, the routine may be over at once, or
another one may be called.  Still a step tells exactly what has gone wrong since the
last step, or since the routine was called if it is the first one
(`Machine.verdict_after`).  A processor that knows all opcodes leaves only accesses to go
wrong (`Machine.step_eq_error_iff_of_z80`).

What carries this is that nothing is kept back: a machine that has taken a step and can
take another one has no fault on its bus (`Machine.Clean`).  So it is only the last call
of a routine, if no step has followed, that the next step has to answer for
(`Machine.owed`).
-/

namespace Chiptune

variable {ρ : Type}

/-- An instruction gives an opcode back exactly if this is the byte at the program
counter and the processor does not know it. -/
def Processor.Rejects (processor : Processor ρ) (rejects : UInt8 → Bool) : Prop :=
  ∀ (registers : ρ) (bus : Bus) (opcode : UInt8),
    (bus.run (processor.instruction registers)).1 = .error opcode ↔
      (bus.load (processor.pc registers)).1 = opcode ∧ rejects opcode = true

theorem Mos6502.rejects_processor :
    Mos6502.processor.Rejects fun opcode => (Mos6502.decode opcode).isNone := by
  intro registers bus opcode
  show (bus.run (Mos6502.instruction registers)).1 = _ ↔
    (bus.load registers.pc).1 = opcode ∧ (Mos6502.decode opcode).isNone = true
  have hload : (bus.run (BusProgram.load registers.pc)).1 = (bus.load registers.pc).1 := rfl
  unfold Mos6502.instruction
  rw [Bus.run_bind, hload]
  generalize (bus.load registers.pc).1 = byte
  cases hdecode : Mos6502.decode byte with
  | none =>
      refine ⟨?_, ?_⟩
      · rintro ⟨⟩
        exact ⟨rfl, Option.isNone_iff_eq_none.mpr hdecode⟩
      · rintro ⟨rfl, -⟩
        rfl
  | some decoded =>
      obtain ⟨operation, mode⟩ := decoded
      refine iff_of_false ?_ ?_
      · dsimp only
        rw [Bus.run_bind]
        nofun
      · rintro ⟨rfl, hnone⟩
        rw [hdecode] at hnone
        cases hnone

theorem Z80.rejects_processor (stack : UInt16) :
    (Z80.processor stack).Rejects fun _ => false := by
  intro registers bus opcode
  refine iff_of_false ?_ (fun h => Bool.false_ne_true h.2)
  show (bus.run (Z80.instruction.run registers >>= _)).1 ≠ _
  rw [Bus.run_bind]
  nofun

/-! ## What the next step has to answer for -/

/-- Whether a request asks for anything; a run of no steps does not. -/
def Request.asks : Request → Bool
  | .enter _ => true
  | .step => true
  | .run budget => 0 < budget

namespace Machine

/-- Whether nothing has been asked of a machine since it called a routine. -/
def justCalled (history : List Request) : Bool :=
  (history.filter Request.asks).getLast?.any Request.isEnter

/-- The stores that called the routine, if no step has followed them. -/
def owed (processor : Processor ρ) (history : List Request) : List Access :=
  if justCalled history then callAccesses processor else []

/-- If the machine can take a step, there is no fault on its bus. -/
def Clean (m : Machine ρ) : Prop :=
  m.halted = false → m.bus.fault = none

variable {processor : Processor ρ}

theorem clean_step (m : Machine ρ) : (step processor m).2.Clean := by
  intro hrunning
  rcases hstep : step processor m with ⟨fault | writes, next⟩
  · rw [hstep, (step_eq_error hstep).1] at hrunning
    cases hrunning
  · rw [hstep] at hrunning
    cases hm : m.halted with
    | true =>
        rw [step_of_halted hm] at hstep
        cases hstep
        rw [hm] at hrunning
        cases hrunning
    | false =>
        obtain ⟨hfault, -, hbus⟩ := step_eq_ok hm hstep
        rw [hbus]
        exact hfault

theorem clean_run {budget : ℕ} (h : 0 < budget) (m : Machine ρ) :
    ((source processor).run budget m).2.Clean := by
  have hnext : ∀ (s : Machine ρ) result next, step processor s = (result, next) → next.Clean := by
    intro s result next hstep
    exact (congrArg (fun result => result.2.Clean) hstep).mp (clean_step s)
  -- A machine that is clean already stays so even if there is no step to take.
  refine Source.run_induct (source processor)
    (motive := fun budget s result => 0 < budget ∨ s.Clean → result.2.Clean)
    ?halted ?timedOut ?fault ?step ?later budget m (.inl h)
  case halted => exact fun _ s hhalted _ hrunning => absurd (hhalted.symm.trans hrunning) nofun
  case timedOut => exact fun s _ hclean => hclean.resolve_left (Nat.lt_irrefl 0)
  case fault => exact fun _ s fault next _ hstep _ => hnext s _ next hstep
  case step => exact fun _ s writes next _ _ _ hstep ih _ => ih (.inr (hnext s _ next hstep))
  case later => exact fun _ s writes next _ _ _ hstep ih _ => ih (.inr (hnext s _ next hstep))

/-- Between steps the bus has the fault of the call that the next step has to answer for,
and no other. -/
theorem fault_after (bus : Bus) (entry : Entry) (history : List Request) :
    let m := (source processor).after history (powerOn processor bus entry)
    m.halted = false → m.bus.fault = (owed processor history).findSome? m.bus.missing? := by
  intro m hrunning
  induction history using List.reverseRecOn with
  | nil => cases hrunning
  | append_singleton rest request ih =>
      have hm : m = ((source processor).grant request
          ((source processor).after rest (powerOn processor bus entry))).2 :=
        Source.after_append rest [request] _
      generalize (source processor).after rest (powerOn processor bus entry) = before at hm ih
      cases request with
      | enter routine =>
          have howed : owed processor (rest ++ [.enter routine]) = callAccesses processor := by
            simp [owed, justCalled, Request.asks, Request.isEnter]
          have hbus : m.bus = Bus.after { before.bus with pending := #[], fault := none }
              (callAccesses processor) := hm ▸ bus_enter routine before
          rw [howed, hbus, (Bus.SameLayout.after _ _).missing?_eq, Bus.fault_after]
          rfl
      | step =>
          have howed : owed processor (rest ++ [.step]) = [] := by
            simp [owed, justCalled, Request.asks, Request.isEnter]
          rw [howed]
          exact (hm ▸ clean_step before) hrunning
      | run budget =>
          rw [Source.snd_grant_run] at hm
          rcases Nat.eq_zero_or_pos budget with rfl | hbudget
          · have howed : owed processor (rest ++ [.run 0]) = owed processor rest := by
              simp [owed, justCalled, Request.asks]
            obtain rfl : m = before := hm.trans (Source.snd_run_zero before)
            rw [howed]
            exact ih hrunning
          · have howed : owed processor (rest ++ [.run budget]) = [] := by
              simp [owed, justCalled, Request.asks, Request.isEnter, hbudget]
            rw [howed]
            exact (hm ▸ clean_run hbudget before) hrunning

/-! ## Exact faults -/

/-- What a machine reports in its next step, of which `made` are the accesses that this
step has to answer for. -/
structure Verdict (processor : Processor ρ) (rejects : UInt8 → Bool) (made : List Access)
    (m : Machine ρ) : Prop where
  /-- The first access for which there is no place is reported, and nothing else. -/
  address_iff : ∀ fault, (step processor m).1 = .error (.processorAddress fault) ↔
    made.findSome? m.bus.missing? = some fault
  /-- If there is a place for all of them, the opcode at the program counter decides. -/
  opcode_iff : ∀ opcode pc, (step processor m).1 = .error (.illegalOpcode opcode pc) ↔
    made.findSome? m.bus.missing? = none ∧ pc = processor.pc m.registers ∧
      (m.bus.load pc).1 = opcode ∧ rejects opcode = true
  ok_iff : (∃ writes, (step processor m).1 = .ok writes) ↔
    made.findSome? m.bus.missing? = none ∧
      rejects (m.bus.load (processor.pc m.registers)).1 = false

/-- The fault on the bus comes from the accesses that went before, so all of them together
decide. -/
theorem verdict_of_fault {rejects : UInt8 → Bool} (hrejects : processor.Rejects rejects)
    {m : Machine ρ} (hrunning : m.halted = false) {before : List Access}
    (hfault : m.bus.fault = before.findSome? m.bus.missing?) :
    m.Verdict processor rejects (before ++ m.accesses processor) := by
  have hmade : (m.busAfter processor).fault =
      (before ++ m.accesses processor).findSome? m.bus.missing? := by
    rw [fault_busAfter, hfault, List.findSome?_append]
  have hopcode := hrejects m.registers m.bus
  have hstep : (step processor m).1 = _ := step_fst hrunning
  rw [hmade] at hstep
  cases hfound : (before ++ m.accesses processor).findSome? m.bus.missing? with
  | some fault =>
      rw [hfound] at hstep
      constructor
      all_goals
        rw [hstep, hfound]
        simp
  | none =>
      rw [hfound] at hstep
      cases hresult : (m.bus.run (processor.instruction m.registers)).1 with
      | error opcode =>
          obtain ⟨hload, hunknown⟩ := (hopcode opcode).mp hresult
          rw [hresult] at hstep
          constructor
          case address_iff => simp [hstep, hfound]
          case opcode_iff =>
            intro opcode' pc
            rw [hstep, hfound]
            constructor
            · rintro ⟨⟩
              exact ⟨rfl, rfl, hload, hunknown⟩
            · rintro ⟨-, rfl, rfl, -⟩
              rw [hload]
          case ok_iff => simp [hstep, hfound, hload, hunknown]
      | ok registers =>
          have hknown : rejects (m.bus.load (processor.pc m.registers)).1 = false := by
            refine Bool.eq_false_iff.mpr fun hunknown => ?_
            rw [(hopcode _).mpr ⟨rfl, hunknown⟩] at hresult
            cases hresult
          rw [hresult] at hstep
          constructor
          case address_iff => simp [hstep, hfound]
          case opcode_iff =>
            intro opcode pc
            rw [hstep, hfound]
            refine iff_of_false nofun ?_
            rintro ⟨-, rfl, rfl, hunknown⟩
            rw [hknown] at hunknown
            cases hunknown
          case ok_iff => simp [hstep, hfound, hknown]

theorem verdict_next {rejects : UInt8 → Bool} (hrejects : processor.Rejects rejects)
    (bus : Bus) (entry : Entry) (history : List Request) :
    let m := (source processor).after history (powerOn processor bus entry)
    m.halted = false →
      m.Verdict processor rejects (owed processor history ++ m.accesses processor) :=
  fun hrunning => verdict_of_fault hrejects hrunning (fault_after bus entry history hrunning)

/-- If the processor knows all opcodes, accesses are all that can go wrong. -/
theorem Verdict.error_iff {made : List Access} {m : Machine ρ}
    (h : m.Verdict processor (fun _ => false) made) (fault : Fault) :
    (step processor m).1 = .error fault ↔
      ∃ missing, fault = .processorAddress missing ∧
        made.findSome? m.bus.missing? = some missing := by
  constructor
  · intro hstep
    cases hfound : made.findSome? m.bus.missing? with
    | some missing =>
        have haddress := (h.address_iff missing).mpr hfound
        exact ⟨missing, Except.error.inj (hstep.symm.trans haddress), rfl⟩
    | none =>
        obtain ⟨writes, hok⟩ := h.ok_iff.mpr ⟨hfound, rfl⟩
        rw [hok] at hstep
        cases hstep
  · rintro ⟨missing, rfl, hfound⟩
    exact (h.address_iff missing).mpr hfound

/-- The processor with ports knows all opcodes, so a step of a machine with it faults exactly
if an access does that it has to answer for. -/
theorem step_eq_error_iff_of_z80 (stack : UInt16) (bus : Bus) (entry : Entry)
    (history : List Request) :
    let processor := Z80.processor stack
    let m := (source processor).after history (powerOn processor bus entry)
    m.halted = false → ∀ fault, (step processor m).1 = .error fault ↔
      ∃ missing, fault = .processorAddress missing ∧
        (owed processor history ++ m.accesses processor).findSome? m.bus.missing? =
          some missing := by
  intro processor m hrunning
  exact (verdict_next (Z80.rejects_processor stack) bus entry history hrunning).error_iff

/-- Whatever a machine has been asked and has faulted on, its next step tells exactly what
goes wrong in it.  For the first step after a call this includes the stores of the call.
A machine that has faulted has nothing to report until it calls a routine again, and by
then no fault is left.  A run reports the fault of one of its steps. -/
theorem verdict_after {rejects : UInt8 → Bool} (hrejects : processor.Rejects rejects)
    (bus : Bus) (entry : Entry) (history : List Request) :
    let m := (source processor).after history (powerOn processor bus entry)
    (m.halted = false →
      m.Verdict processor rejects (owed processor history ++ m.accesses processor)) ∧
    (∀ fault next, step processor m = (.error fault, next) →
      next.halted = true ∧ ∀ later : List Request, (∀ request ∈ later, request.isEnter = false) →
        (source processor).collect later next = .ok [] ∧
          (source processor).after later next = next) ∧
    (∀ routine parked, enter processor routine { m with bus := { m.bus with fault := parked } } =
      enter processor routine m) ∧
    ∀ budget fault next, (source processor).run budget m = (.error fault, next) →
      ∃ count < budget,
        let before := (source processor).after (history ++ List.replicate count .step)
          (powerOn processor bus entry)
        before.halted = false ∧ step processor before = (.error fault, next) := by
  intro m
  refine ⟨fun hrunning => ?_, fun fault next hstep => ?_, fun routine parked => ?_,
    fun budget fault next hrun => ?_⟩
  · exact verdict_next hrejects bus entry history hrunning
  · have hhalted := (step_eq_error hstep).1
    exact ⟨hhalted, fun later hlater => collect_of_halted hhalted hlater⟩
  · cases routine <;> rfl
  · obtain ⟨count, hcount, before, hbefore, hrunning, hstep⟩ :=
      Source.exists_step_of_run_error hrun
    rw [← Source.after_append] at hbefore
    exact ⟨count, hcount, hbefore ▸ ⟨hrunning, hstep⟩⟩

/-- The routine at `1` loads from an address that the image does not have, and the one at
`4` runs into a byte that is no opcode.  The return address goes to the window, which
lies over the stack where there is no memory. -/
theorem verdict_after_unknownOpcode :
    let bus := Bus.powerOn ⟨⟨#[0, 0xAD, 0x34, 0x12, 0xEA, 0x02]⟩⟩ (some ⟨0x01F8, 8⟩) .registers none
    let start := powerOn Mos6502.processor bus ⟨1, 4, 0⟩
    let called := (source Mos6502.processor).after [.enter .init] start
    let m := (source Mos6502.processor).after [.enter .init, .run 5, .step, .enter .frame, .run 1]
      start
    (step Mos6502.processor called).1 = .error (.processorAddress ⟨0x1234⟩) ∧
      m.halted = false ∧ (step Mos6502.processor m).1 = .error (.illegalOpcode 0x02 5) := by
  intro bus start called m
  have hcalled : called.halted = false := by decide +kernel
  have hrunning : m.halted = false := by decide +kernel
  obtain ⟨hfirst, -⟩ := verdict_after Mos6502.rejects_processor bus ⟨1, 4, 0⟩ [.enter .init]
  obtain ⟨hlast, -⟩ := verdict_after Mos6502.rejects_processor bus ⟨1, 4, 0⟩
    [.enter .init, .run 5, .step, .enter .frame, .run 1]
  refine ⟨((hfirst hcalled).address_iff _).mpr ?_, hrunning,
    ((hlast hrunning).opcode_iff _ _).mpr ?_⟩
  · decide +kernel
  · decide +kernel

end Machine

end Chiptune
