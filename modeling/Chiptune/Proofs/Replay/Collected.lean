import Chiptune.Chip.Latch
import Chiptune.Proofs.Replay.Steps

/-!
# What is collected from a bus

The value of a chip register is kept twice.  A bus keeps it for code that loads it
(`Bus.held`), and a latch keeps what the settings left that were collected from the bus.
They take different ways: settings are collected at the end of every step, the latch gets
them only when a run is over, and those that still wait are dropped when a routine is
called.  Yet none is lost.

`Machine.InStep` is what holds between two requests: nothing waits on the bus, and the
latch has what the bus has (`Latch.Mirrors`).  Every request that does not fault keeps it
when the latch applies what is reported (`InStep.grant`), so every history does
(`InStep.collect`).
-/

namespace Chiptune

/-! ## The settings of a history -/

namespace Bus

variable {bus : Bus}

theorem ports_respond_eq_none (hports : bus.ports = none) (access : Access) :
    (bus.respond access).2.ports = none := by
  rw [ports_respond]
  cases access <;> simp [portsAfter, hports]

theorem ports_after_eq_none (hports : bus.ports = none) (history : List Access) :
    (bus.after history).ports = none := by
  induction history generalizing bus with
  | nil => exact hports
  | cons access rest ih => exact ih (ports_respond_eq_none hports access)

/-- Without ports it is only the window that tells what an access sets. -/
theorem SameLayout.setting?_eq {other : Bus} (h : bus.SameLayout other)
    (hports : bus.ports = none) (hports' : other.ports = none) :
    other.setting? = bus.setting? := by
  funext access
  cases access <;> simp only [setting?, h.register?_eq, hports, hports']

theorem setting?_respond (hports : bus.ports = none) (access : Access) :
    (bus.respond access).2.setting? = bus.setting? :=
  (SameLayout.respond bus access).setting?_eq hports (ports_respond_eq_none hports access)

/-- All that is set waits until it is collected. -/
theorem pending_after (hports : bus.ports = none) (history : List Access) :
    (bus.after history).pending.toList = bus.pending.toList ++ history.filterMap bus.setting? := by
  induction history generalizing bus with
  | nil => exact (List.append_nil _).symm
  | cons access rest ih =>
      rw [after_cons, ih (ports_respond_eq_none hports access), setting?_respond hports,
        pending_respond]
      cases hsetting : bus.setting? access <;> simp [hsetting]

/-- A register holds what an access sets it to. -/
theorem held_respond_of_setting (hports : bus.ports = none) (access : Access)
    (register : UInt8) :
    (bus.respond access).2.held register =
      match bus.setting? access with
      | some setting => if register = setting.register then setting.value else bus.held register
      | none => bus.held register := by
  rw [held_respond]
  cases access with
  | store address value =>
      unfold setting?
      dsimp only
      cases bus.register? address with
      | none => simp
      | some target => simp [eq_comm]
  | load address => rfl
  | input port => rfl
  | output port value => simp [setting?, hports]

end Bus

/-! ## Two copies of the registers -/

/-- The latch has the values that the bus has, as far as the chip has registers. -/
def Latch.Mirrors (latch : Latch) (bus : Bus) : Prop :=
  ∀ register : UInt8, register.toNat < latch.bank.visible →
    latch.bank.read register = bus.held register

theorem Latch.Mirrors.respond {latch : Latch} {bus : Bus} (h : latch.Mirrors bus)
    (hports : bus.ports = none) (tick : UInt32) (access : Access) :
    (latch.applyAll ((bus.setting? access).toList.map (Setting.write tick))).Mirrors
      (bus.respond access).2 := by
  intro register hregister
  rw [Bus.held_respond_of_setting hports]
  cases hsetting : bus.setting? access with
  | none =>
      rw [hsetting] at hregister
      exact h register hregister
  | some setting =>
      have hvisible : register.toNat < latch.bank.visible := by
        rwa [visible_applyAll] at hregister
      have hread : (latch.bank.write setting.register setting.value).read register =
          if register = setting.register then setting.value else latch.bank.read register := by
        rw [Bank.read_write]
        simp only [hvisible, and_true]
      exact hread.trans (by rw [h register hvisible])

/-- A latch that applies all that is set goes along with the bus. -/
theorem Latch.Mirrors.after {latch : Latch} {bus : Bus} (h : latch.Mirrors bus)
    (hports : bus.ports = none) (tick : UInt32) (history : List Access) :
    (latch.applyAll ((history.filterMap bus.setting?).map (Setting.write tick))).Mirrors
      (bus.after history) := by
  induction history generalizing latch bus with
  | nil => exact h
  | cons access rest ih =>
      have hrest := ih (h.respond hports tick access) (Bus.ports_respond_eq_none hports access)
      rw [Bus.setting?_respond hports, ← Latch.applyAll_append, ← List.map_append] at hrest
      rw [Bus.after_cons]
      cases hsetting : bus.setting? access with
      | none =>
          rw [hsetting] at hrest
          rwa [List.filterMap_cons_none hsetting]
      | some setting =>
          rw [hsetting] at hrest
          rwa [List.filterMap_cons_some hsetting]

namespace Machine

variable {ρ : Type} {processor : Processor ρ}

/-- Nothing is on its way from the bus of a machine to a latch. -/
structure InStep (processor : Processor ρ) (latch : Latch) (bus : Bus) : Prop where
  mirrors : latch.Mirrors bus
  pending : bus.pending = #[]
  ports : bus.ports = none
  /-- Calling a routine does not set a register. -/
  calls : ∀ access ∈ callAccesses processor, bus.setting? access = none

namespace InStep

variable {latch : Latch} {bus : Bus}

theorem cleared (h : InStep processor latch bus) :
    InStep processor latch { bus with pending := #[], fault := none } :=
  ⟨h.mirrors, rfl, h.ports, h.calls⟩

/-- Whatever accesses are made, the latch is up to date once it has got all their settings. -/
theorem after (h : InStep processor latch bus) (history : List Access) (tick : UInt32) :
    InStep processor
      (latch.applyAll (((bus.after history).pending.toList).map (Setting.write tick)))
      { bus.after history with pending := #[] } := by
  have hpending : (bus.after history).pending.toList = history.filterMap bus.setting? := by
    rw [Bus.pending_after h.ports, h.pending]
    rfl
  rw [hpending]
  have hports := Bus.ports_after_eq_none h.ports history
  have hsetting := (Bus.SameLayout.after bus history).setting?_eq h.ports hports
  refine ⟨h.mirrors.after h.ports tick history, rfl, hports, fun access haccess => ?_⟩
  exact (congrFun hsetting access).trans (h.calls access haccess)

variable {m next : Machine ρ} {writes : List Write}

/-- The settings that are dropped when a routine is called are none. -/
theorem enter (h : InStep processor latch m.bus) (routine : Routine) :
    InStep processor latch (enter processor routine m).bus := by
  have hcleared := h.cleared
  have hpending : (Bus.after { m.bus with pending := #[], fault := none }
      (callAccesses processor)).pending = #[] := by
    rw [← Array.toList_eq_nil_iff, Bus.pending_after hcleared.ports,
      List.filterMap_eq_nil_iff.mpr hcleared.calls]
    rfl
  have hafter := hcleared.after (callAccesses processor) 0
  rw [hpending] at hafter
  rw [bus_enter]
  exact ⟨hafter.mirrors, hpending, hafter.ports, hafter.calls⟩

theorem step (h : InStep processor latch m.bus) (hstep : step processor m = (.ok writes, next)) :
    InStep processor (latch.applyAll writes) next.bus := by
  cases hm : m.halted with
  | true =>
      rw [step_of_halted hm] at hstep
      cases hstep
      exact h
  | false =>
      obtain ⟨-, rfl, hbus⟩ := step_eq_ok hm hstep
      rw [hbus]
      exact h.after (m.accesses processor) m.tick

theorem run (h : InStep processor latch m.bus) {budget : ℕ} {run : Run}
    (hrun : (source processor).run budget m = (.ok run, next)) :
    InStep processor (latch.applyAll run.writes) next.bus := by
  refine Source.run_ok_induct
    (motive := fun m writes next => ∀ latch, InStep processor latch m.bus →
      InStep processor (latch.applyAll writes) next.bus) ?done ?step hrun latch h
  case done => exact fun _ _ h => h
  case step =>
    -- The rest of the run starts with a latch that has the writes of this step already.
    intro m writes next rest last _ hstep ih latch h
    rw [Latch.applyAll_append]
    exact ih _ (h.step hstep)

/-- No request that is granted loses a setting. -/
theorem grant (h : InStep processor latch m.bus) {request : Request}
    (hgrant : (source processor).grant request m = (.ok writes, next)) :
    InStep processor (latch.applyAll writes) next.bus := by
  cases request with
  | enter routine =>
      cases hgrant
      exact h.enter routine
  | step => exact h.step hgrant
  | run budget =>
      rw [Source.grant] at hgrant
      rcases hrun : (source processor).run budget m with ⟨fault | run, last⟩
      · rw [hrun] at hgrant
        cases hgrant
      · rw [hrun] at hgrant
        cases hgrant
        exact h.run hrun

/-- No setting is lost in a history that does not fault. -/
theorem collect (h : InStep processor latch m.bus) {history : List Request}
    (hcollect : (source processor).collect history m = .ok writes) :
    InStep processor (latch.applyAll writes) ((source processor).after history m).bus := by
  induction history generalizing latch m writes with
  | nil =>
      cases hcollect
      exact h
  | cons request rest ih =>
      obtain ⟨first, others, next, hgrant, hrest, rfl⟩ := Source.collect_cons_eq_ok hcollect
      rw [Latch.applyAll_append, Source.after_cons, hgrant]
      exact ih (h.grant hgrant) hrest

end InStep

end Machine

end Chiptune
