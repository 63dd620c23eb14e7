import Chiptune.Chip.Latch
import Chiptune.Proofs.Replay.PortMaps
import Chiptune.Proofs.Replay.Steps
import Chiptune.Proofs.Script.Faults
import Chiptune.Proofs.Script.Product
import Chiptune.Replay.Engine

/-!
# No write is lost on the way

A chip keeps nothing that is written past its registers, and nothing tells the source of such a
write.  An engine that suits the family of its chip does not make any: whatever is asked of its
replay, all writes are to registers that the chip has (`Engine.writes_arrive`).

Registers come from three places, which bound them in their own ways:

* a window has as many registers as addresses, and no more than a bank has room for;
* ports select a register by four bits;
* a voice sets the registers of its own channel.

The first two are behind a bus, and `Bus.Confined` is what accesses keep of it.  Since
settings wait on the bus until a step reports them, those that wait are part of it.  Nothing
is asked of the processor on the bus: `Machine.writesBelow` and `Machine.reaches` hold of any,
and those of the engines are a case of them.
-/

namespace Chiptune

/-! ## Sources -/

/-- In the states of an invariant a source only writes to registers below a limit. -/
structure Source.Confines {σ : Type} (source : Source σ) (Inv : σ → Prop) (limit : ℕ) : Prop where
  enter : ∀ routine s, Inv s → Inv (source.enter routine s)
  step : ∀ s, Inv s → Inv (source.step s).2
  report : ∀ {s writes next}, Inv s → source.step s = (.ok writes, next) →
    ∀ w ∈ writes, w.register.toNat < limit

/-- Whatever is asked of a replay, the registers that it writes to are below a limit. -/
def Replay.WritesBelow (limit : ℕ) (replay : Replay) : Prop :=
  ∀ history request writes next,
    replay.source.grant request (replay.source.after history replay.state) = (.ok writes, next) →
      ∀ w ∈ writes, w.register.toNat < limit

/-- Each write that a replay reports is to a register of the family, and whatever a chip of the
family has been through, the write can be read back from it. -/
def Replay.Reaches (family : Family) (replay : Replay) : Prop :=
  ∀ history request writes next,
    replay.source.grant request (replay.source.after history replay.state) = (.ok writes, next) →
      ∀ w ∈ writes, w.register.toNat < family.registerCount ∧
        ∀ chip : Chip, chip.family = family → ∀ before : List Write,
          (((Latch.powerOn chip).applyAll before).apply w).bank.read w.register = w.value

theorem Replay.WritesBelow.reaches {family : Family} {replay : Replay}
    (h : replay.WritesBelow family.registerCount) : replay.Reaches family := by
  intro history request writes next hgrant w hw
  have hregister := h history request writes next hgrant w hw
  refine ⟨hregister, ?_⟩
  rintro chip rfl before
  have hshown : w.register.toNat < ((Latch.powerOn chip).applyAll before).bank.visible := by
    rwa [Latch.visible_applyAll, Latch.visible_powerOn]
  show (Bank.write _ w.register w.value).read w.register = w.value
  rw [Bank.read_write, if_pos ⟨rfl, hshown⟩]

namespace Source.Confines

variable {σ : Type} {source : Source σ} {Inv : σ → Prop} {limit : ℕ}

theorem run (h : source.Confines Inv limit) {budget : ℕ} {s last : σ} {run : Run} (hs : Inv s)
    (hrun : source.run budget s = (.ok run, last)) :
    ∀ w ∈ run.writes, w.register.toNat < limit := by
  refine run_ok_induct
    (motive := fun s writes _ => Inv s → ∀ w ∈ writes, w.register.toNat < limit)
    (fun _ _ => nofun) ?_ hrun hs
  intro s writes next rest last _ hstep ih hs w hw
  have hnext := h.step s hs
  rw [hstep] at hnext
  rcases List.mem_append.mp hw with hw | hw
  · exact h.report hs hstep w hw
  · exact ih hnext w hw

/-- What is reported for a request is what its steps report. -/
theorem grant (h : source.Confines Inv limit) {request : Request} {s next : σ}
    {writes : List Write} (hs : Inv s) (hgrant : source.grant request s = (.ok writes, next)) :
    ∀ w ∈ writes, w.register.toNat < limit := by
  cases request with
  | enter routine =>
      cases hgrant
      exact nofun
  | step => exact h.report hs hgrant
  | run budget =>
      rw [Source.grant] at hgrant
      rcases hrun : source.run budget s with ⟨fault | run, last⟩
      · rw [hrun] at hgrant
        cases hgrant
      · rw [hrun] at hgrant
        cases hgrant
        exact h.run hs hrun

theorem writesBelow (h : source.Confines Inv limit) {s : σ} (hs : Inv s) :
    Replay.WritesBelow limit ⟨σ, source, s⟩ := by
  intro history request writes next hgrant
  exact h.grant (after_invariant Inv h.enter h.step history hs) hgrant

end Source.Confines

/-! ## Buses -/

namespace Bus

variable {limit : ℕ} {bus : Bus}

/-- A bus through which only registers below a limit can be set. -/
structure Confined (limit : ℕ) (bus : Bus) : Prop where
  window : ∀ w ∈ bus.window, min w.length.toNat maxRegisters ≤ limit
  ports : ∀ ports ∈ bus.ports, ports.Narrow ∧ 15 < limit
  pending : ∀ s ∈ bus.pending.toList, s.register.toNat < limit

/-- Nothing waits on a bus that has just been switched on. -/
theorem confined_powerOn (memory : Memory) {window : Option Window} (loads : WindowLoads)
    {map : Option PortMap} (hwindow : ∀ w ∈ window, min w.length.toNat maxRegisters ≤ limit)
    (hports : ∀ ports ∈ map, 15 < limit) : (powerOn memory window loads map).Confined limit where
  window := hwindow
  ports ports h := by
    obtain ⟨ports, hmap, rfl⟩ := Option.map_eq_some_iff.mp h
    exact ⟨Ports.narrow_powerOn ports, hports ports hmap⟩
  pending := List.forall_mem_nil _

namespace Confined

theorem cleared (h : bus.Confined limit) (fault : Option AddressFault) :
    Confined limit { bus with pending := #[], fault } :=
  ⟨h.window, h.ports, List.forall_mem_nil _⟩

theorem setting?_lt (h : bus.Confined limit) {access : Access} {s : Setting}
    (hs : bus.setting? access = some s) : s.register.toNat < limit := by
  cases access with
  | store address value =>
      obtain ⟨register, hregister, rfl⟩ := Option.map_eq_some_iff.mp hs
      obtain ⟨w, hwindow, hw⟩ := Option.bind_eq_some_iff.mp hregister
      obtain ⟨hcovers, rfl⟩ := Window.register?_eq_some_iff.mp hw
      have hlimit := h.window w hwindow
      obtain ⟨hfirst, hlast⟩ := hcovers
      show (w.offset address.toNat).toNat < limit
      rw [Window.toNat_offset ⟨hfirst, hlast⟩]
      omega
  | output port value =>
      obtain ⟨ports, hports, hsetting⟩ := Option.bind_eq_some_iff.mp hs
      obtain ⟨hnarrow, hlimit⟩ := h.ports ports hports
      exact Nat.lt_of_le_of_lt ((hnarrow.output port value).2 s hsetting) hlimit
  | load address => cases hs
  | input port => cases hs

theorem respond (h : bus.Confined limit) (access : Access) :
    (bus.respond access).2.Confined limit where
  window := by
    rw [(SameLayout.respond bus access).window]
    exact h.window
  ports := by
    rw [ports_respond]
    cases access with
    | output port value =>
        intro ports hports
        obtain ⟨before, hbefore, rfl⟩ := Option.map_eq_some_iff.mp hports
        obtain ⟨hnarrow, hlimit⟩ := h.ports before hbefore
        exact ⟨(hnarrow.output port value).1, hlimit⟩
    | _ => exact h.ports
  pending := by
    rw [pending_respond, Array.toList_append]
    intro s hs
    rcases List.mem_append.mp hs with hs | hs
    · exact h.pending s hs
    · exact h.setting?_lt (by simpa using hs)

theorem after (h : bus.Confined limit) (history : List Access) :
    (bus.after history).Confined limit := by
  induction history generalizing bus with
  | nil => exact h
  | cons access rest ih => exact ih (h.respond access)

end Confined

end Bus

/-! ## Machines -/

namespace Machine

variable {ρ : Type} (processor : Processor ρ) (limit : ℕ)

theorem confines : (source processor).Confines (fun m => m.bus.Confined limit) limit where
  enter routine m h := by
    show (enter processor routine m).bus.Confined limit
    rw [bus_enter]
    exact (h.cleared none).after _
  step m h := by
    show (step processor m).2.bus.Confined limit
    cases hrunning : m.halted with
    | true => rwa [step_of_halted hrunning]
    | false =>
        have hafter : (m.busAfter processor).Confined limit := h.after _
        rcases hstep : step processor m with ⟨fault | writes, next⟩
        · rw [(step_eq_error hstep).2]
          exact ⟨hafter.window, hafter.ports, hafter.pending⟩
        · rw [(step_eq_ok hrunning hstep).2.2]
          exact hafter.cleared _
  report {m writes next} h hstep w hw := by
    have hmachine : step processor m = (.ok writes, next) := hstep
    cases hrunning : m.halted with
    | true =>
        rw [step_of_halted hrunning] at hmachine
        cases hmachine
        cases hw
    | false =>
        obtain ⟨-, rfl, -⟩ := step_eq_ok hrunning hmachine
        obtain ⟨s, hs, rfl⟩ := List.mem_map.mp hw
        exact (h.after (m.accesses processor)).pending s hs

variable {limit} {bus : Bus}

/-- Whatever a processor does, it only writes to the registers that its bus leads to. -/
theorem writesBelow (h : bus.Confined limit) (entry : Entry) :
    Replay.WritesBelow limit ⟨_, source processor, powerOn processor bus entry⟩ :=
  (confines processor limit).writesBelow h

/-- If the bus leads to registers of the family only, all writes reach the chip. -/
theorem reaches {family : Family} (h : bus.Confined family.registerCount) (entry : Entry) :
    Replay.Reaches family ⟨_, source processor, powerOn processor bus entry⟩ :=
  (writesBelow processor h entry).reaches

end Machine

/-! ## Players -/

namespace Script

namespace Player

/-- A step writes to registers of the channels that have a voice. -/
theorem register_lt_of_step {p next : Player} {writes : List Write}
    (hroom : p.voices.length ≤ 64) (h : p.step = (.ok writes, next)) :
    ∀ w ∈ writes, w.register.toNat < p.voices.length * Paula.stride := by
  cases hloading : p.loading with
  | true =>
      obtain ⟨rfl, -⟩ := entryRead_of_step hloading h
      exact nofun
  | false =>
      obtain ⟨-, rfl, -⟩ := (step_eq_ok_iff hloading).mp h
      obtain ⟨hchannel, -⟩ := settings_ordered hroom
      intro w hw
      obtain ⟨s, hs, rfl⟩ := List.mem_map.mp hw
      exact (Nat.div_lt_iff_lt_mul (by decide)).mp (hchannel s hs)

/-- The count of voices does not change. -/
theorem confines {channels : ℕ} (hroom : channels ≤ 64) :
    source.Confines (fun p => p.voices.length = channels) (channels * Paula.stride) where
  enter routine p h := by
    cases routine with
    | init => exact h
    | frame => exact (List.length_map _).trans h
  step p h := (length_inTurn p.turn 0 p.voices).trans h
  report {p writes next} h hstep := by
    subst h
    exact register_lt_of_step hroom hstep

end Player

end Script

/-! ## Engines -/

namespace Engine

/-- Ports lead to the sound generator, the usual window to the sound interface device, and
scripts are for Paula. -/
inductive Suits : Engine → Family → Prop
  | z80 (ports : PortMap) (stack : UInt16) : Suits (.z80 ports stack none) .psg
  | mos6502 : Suits (.mos6502 .sid) .sid
  | script : Suits .script .paula

variable {engine : Engine} {family : Family}

/-- All writes of an engine that suits the family of the chip reach it. -/
theorem Suits.reaches (h : engine.Suits family) (memory : Memory) (entry : Entry) :
    (engine.start memory family.channelCount entry).Reaches family := by
  cases h with
  | z80 ports stack =>
      refine Machine.reaches (Z80.processor stack) (Bus.confined_powerOn memory _ ?_ ?_) entry
      · exact nofun
      · exact fun _ _ => by decide
  | mos6502 =>
      refine Machine.reaches Mos6502.processor (Bus.confined_powerOn memory _ ?_ ?_) entry
      · rintro _ ⟨⟩
        decide
      · exact nofun
  | script =>
      have hroom : Family.paula.channelCount ≤ 64 := by decide
      refine Replay.WritesBelow.reaches ?_
      exact (Script.Player.confines hroom).writesBelow List.length_replicate

/-- Whatever engine drives whatever chip, a bank has room for the registers written to. -/
theorem writesBelow_maxRegisters (engine : Engine) (family : Family) (memory : Memory)
    (entry : Entry) :
    (engine.start memory family.channelCount entry).WritesBelow maxRegisters := by
  have hbus : ∀ window loads map,
      (Bus.powerOn memory window loads map).Confined maxRegisters := fun window loads map =>
    Bus.confined_powerOn memory loads (fun _ _ => Nat.min_le_right ..) (fun _ _ => by decide)
  cases engine with
  | z80 ports stack window => exact Machine.writesBelow (Z80.processor stack) (hbus ..) entry
  | mos6502 window => exact Machine.writesBelow Mos6502.processor (hbus ..) entry
  | script =>
      have hroom : family.channelCount ≤ 4 := by cases family <;> decide
      have hbelow := (Script.Player.confines (hroom.trans (by decide))).writesBelow
        (s := .powerOn memory family.channelCount entry.init) List.length_replicate
      intro history request writes next hgrant w hw
      have hlt := hbelow history request writes next hgrant w hw
      unfold Paula.stride at hlt
      unfold maxRegisters
      omega

/-- Whatever is asked of the replay of an engine, and whatever the chip has been through, each
write that is reported can be read back from the chip if the engine suits it.  If it does not,
the write still is to one of the registers that a bank has room for. -/
theorem writes_arrive (engine : Engine) (family : Family) (memory : Memory) (entry : Entry) :
    let replay := engine.start memory family.channelCount entry
    ∀ history request writes next,
      replay.source.grant request (replay.source.after history replay.state) = (.ok writes, next) →
        ∀ w ∈ writes, w.register.toNat < maxRegisters ∧
          (engine.Suits family → w.register.toNat < family.registerCount ∧
            ∀ chip : Chip, chip.family = family → ∀ before : List Write,
              (((Latch.powerOn chip).applyAll before).apply w).bank.read w.register = w.value) := by
  intro replay history request writes next hgrant w hw
  refine ⟨writesBelow_maxRegisters engine family memory entry _ _ _ _ hgrant w hw, ?_⟩
  exact fun hsuits => hsuits.reaches memory entry history request writes next hgrant w hw

/-- Code that selects the register of the first volume through its ports and writes to it. -/
theorem writes_arrive_volume :
    let engine : Engine := .z80 .zx128 18 none
    let memory : Memory := ⟨⟨#[0, 0x3E, 8, 0x01, 0xFD, 0xFF, 0xED, 0x79, 0x06, 0xBF, 0x3E, 15, 0xED,
      0x79, 0xC9, 0, 0, 0]⟩⟩
    let replay := engine.start memory Family.psg.channelCount ⟨1, 1, 0⟩
    (replay.source.grant (.run 9) (replay.source.after [.enter .init] replay.state)).1 =
        .ok [⟨8, 15, 5⟩] ∧
      engine.Suits .psg ∧ (8 : UInt8).toNat < Family.psg.registerCount ∧
      (((Latch.powerOn (.standard .psg)).applyAll []).apply ⟨8, 15, 5⟩).bank.read 8 = 15 := by
  intro engine memory replay
  have hreport : (replay.source.grant (.run 9)
      (replay.source.after [.enter .init] replay.state)).1 = .ok [⟨8, 15, 5⟩] := by
    decide +kernel
  have hsuits : engine.Suits .psg := .z80 ..
  obtain ⟨-, harrives⟩ := writes_arrive engine .psg memory ⟨1, 1, 0⟩ [.enter .init] (.run 9) _ _
    (Prod.ext hreport rfl) ⟨8, 15, 5⟩ (List.mem_singleton.mpr rfl)
  obtain ⟨hregister, hread⟩ := harrives hsuits
  exact ⟨hreport, hsuits, hregister, hread (.standard .psg) rfl []⟩

end Engine

end Chiptune
