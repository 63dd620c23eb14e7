import Chiptune.Proofs.Replay.Accesses
import Chiptune.Proofs.Replay.Histories
import Chiptune.Replay.Machine

/-!
# What machines do to their buses

A machine makes accesses in two ways: with the stores that call a routine
(`Machine.callAccesses`) and with the instructions that it executes
(`Machine.accesses`).  Here is what becomes of them, so that no later proof has to look
into `Machine.enter` and `Machine.step`.

* A step that reports writes reports all settings that wait on the bus by then, and
  leaves none (`Machine.step_eq_ok`).
* What a step reports is decided by the first fault since the bus was last cleared, and
  then by the opcode (`Machine.step_fst`).
* A machine that faults halts, and a halted machine does nothing until a routine is
  called (`Machine.step_eq_error`, `Machine.grant_of_halted`).
-/

namespace Chiptune

variable {ρ : Type}

namespace Machine

section

variable (processor : Processor ρ)

/-- The accesses that call a routine. -/
def callAccesses : List Access :=
  processor.callStores.map fun (address, value) => .store address value

/-- The accesses that the next instruction makes. -/
def accesses (m : Machine ρ) : List Access :=
  m.bus.accesses (processor.instruction m.registers)

/-- The bus after the next instruction. -/
def busAfter (m : Machine ρ) : Bus :=
  m.bus.after (m.accesses processor)

end

variable {processor : Processor ρ} {m next : Machine ρ} {writes : List Write} {fault : Fault}

theorem fault_busAfter (m : Machine ρ) :
    (m.busAfter processor).fault =
      m.bus.fault.or ((m.accesses processor).findSome? m.bus.missing?) :=
  Bus.fault_after ..

/-! ## Calling a routine -/

/-- The bus of a machine that calls a routine is cleared, and then the return address is
stored. -/
theorem bus_enter (routine : Routine) (m : Machine ρ) :
    (enter processor routine m).bus =
      Bus.after { m.bus with pending := #[], fault := none } (callAccesses processor) := by
  unfold enter refresh Bus.after callAccesses
  rw [List.foldl_map]
  cases routine <;> rfl

theorem tick_enter (routine : Routine) (m : Machine ρ) : (enter processor routine m).tick = 0 := by
  unfold enter refresh
  cases routine <;> rfl

/-! ## Taking a step -/

theorem step_of_halted (h : m.halted = true) : step processor m = (.ok [], m) := by
  unfold step
  rw [if_pos h]

theorem step_fst (h : m.halted = false) :
    (step processor m).1 =
      match (m.busAfter processor).fault with
      | some fault => .error (.processorAddress fault)
      | none =>
        match (m.bus.run (processor.instruction m.registers)).1 with
        | .error opcode => .error (.illegalOpcode opcode (processor.pc m.registers))
        | .ok _ => .ok ((m.busAfter processor).pending.toList.map (Setting.write m.tick)) := by
  unfold busAfter accesses step
  rw [if_neg (by simp [h]), ← Bus.run_snd]
  obtain ⟨registers, bus, entry, tick, halted⟩ := m
  dsimp only
  rcases bus.run (processor.instruction registers) with ⟨opcode | registers', bus'⟩
  all_goals
    dsimp only
    cases bus'.fault <;> rfl

/-- All that a step does that reports writes. -/
theorem exists_registers_of_step_ok (hrunning : m.halted = false)
    (h : step processor m = (.ok writes, next)) :
    ∃ registers, (m.busAfter processor).fault = none ∧
      writes = (m.busAfter processor).pending.toList.map (Setting.write m.tick) ∧
      next = refresh processor ⟨registers, { m.busAfter processor with pending := #[] }, m.entry,
        nextTick m.tick, false⟩ := by
  unfold busAfter accesses
  rw [← Bus.run_snd]
  unfold step at h
  rw [if_neg (by simp [hrunning])] at h
  obtain ⟨registers, bus, entry, tick, halted⟩ := m
  dsimp only at h ⊢
  rcases hrun : bus.run (processor.instruction registers) with ⟨opcode | registers', bus'⟩
  · rw [hrun] at h
    cases h
  · rw [hrun] at h
    dsimp only at h ⊢
    cases hfault : bus'.fault with
    | some fault =>
        rw [hfault] at h
        cases h
    | none =>
        rw [hfault] at h
        cases h
        exact ⟨registers', rfl, rfl, rfl⟩

/-- A step that reports writes has found no fault and leaves no setting behind. -/
theorem step_eq_ok (hrunning : m.halted = false) (h : step processor m = (.ok writes, next)) :
    (m.busAfter processor).fault = none ∧
      writes = (m.busAfter processor).pending.toList.map (Setting.write m.tick) ∧
      next.bus = { m.busAfter processor with pending := #[] } := by
  obtain ⟨registers, hfault, hwrites, rfl⟩ := exists_registers_of_step_ok hrunning h
  exact ⟨hfault, hwrites, rfl⟩

theorem tick_of_step_ok (hrunning : m.halted = false)
    (h : step processor m = (.ok writes, next)) : next.tick = nextTick m.tick := by
  obtain ⟨registers, -, -, rfl⟩ := exists_registers_of_step_ok hrunning h
  rfl

/-- A machine that faults halts, and the fault is not kept. -/
theorem step_eq_error (h : step processor m = (.error fault, next)) :
    next.halted = true ∧ next.bus = { m.busAfter processor with fault := none } := by
  unfold busAfter accesses
  rw [← Bus.run_snd]
  unfold step at h
  split at h
  · cases h
  · obtain ⟨registers, bus, entry, tick, halted⟩ := m
    dsimp only at h ⊢
    rcases hrun : bus.run (processor.instruction registers) with ⟨opcode | registers', bus'⟩
    · rw [hrun] at h
      cases h
      exact ⟨rfl, rfl⟩
    · rw [hrun] at h
      dsimp only at h ⊢
      cases hfault : bus'.fault with
      | some fault =>
          rw [hfault] at h
          cases h
          exact ⟨rfl, rfl⟩
      | none =>
          rw [hfault] at h
          cases h

/-! ## Being halted -/

/-- A machine that has halted reports nothing and stays what it is, unless it is asked to
call a routine. -/
theorem grant_of_halted (h : m.halted = true) {request : Request}
    (hrequest : request.isEnter = false) : (source processor).grant request m = (.ok [], m) := by
  cases request with
  | enter routine => cases hrequest
  | step => exact step_of_halted h
  | run budget =>
      have hrun := (source processor).run_of_halted (s := m) h budget
      rw [Source.grant, hrun]

theorem collect_of_halted (h : m.halted = true) {history : List Request}
    (hhistory : ∀ request ∈ history, request.isEnter = false) :
    (source processor).collect history m = .ok [] ∧ (source processor).after history m = m := by
  induction history with
  | nil => exact ⟨rfl, rfl⟩
  | cons request rest ih =>
      obtain ⟨hfirst, hothers⟩ := List.forall_mem_cons.mp hhistory
      obtain ⟨hcollect, hafter⟩ := ih hothers
      have hgrant : (source processor).grant request m = (.ok [], m) := grant_of_halted h hfirst
      refine ⟨Source.collect_cons_of_ok hgrant hcollect, ?_⟩
      rw [Source.after_cons, hgrant]
      exact hafter

end Machine

end Chiptune
