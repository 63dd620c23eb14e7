import Chiptune.Proofs.Replay.Accesses

/-!
# Registers laid over memory

A bus is plain memory with a window of chip registers laid over it.  What a processor
finds there after a history of accesses is `Bus.Overlays` for a bus whose window can be
read back, and `Bus.Shields` for one whose window can only be written.  Both hold of
every bus after every history (`Bus.overlaid_after`), whatever the window is: it may be
longer than any chip, reach past the last address, or lie where there is no memory.

What lies beneath a window that is read back cannot be seen: two images that are the
same elsewhere answer every access in the same way (`Bus.answers_of_agreeOutside`).
-/

namespace Chiptune

/-- The images have the same bytes, or lack the same ones, at all addresses that the
window does not cover. -/
def Memory.AgreeOutside (window : Window) (memory other : Memory) : Prop :=
  ∀ address : UInt16, ¬ window.Covers address.toNat →
    other.get? address.toNat = memory.get? address.toNat

namespace Bus

/-- The same bus over another image. -/
def withMemory (bus : Bus) (memory : Memory) : Bus :=
  { bus with memory }

theorem redirects_withMemory (bus : Bus) (memory : Memory) :
    (bus.withMemory memory).redirects = bus.redirects := by
  funext access
  cases access <;> rfl

/-! ## Beneath a window that is read back -/

section Beneath

variable {bus : Bus} {window : Window} {other : Memory}

/-- An access that is not redirected finds the same in both images. -/
theorem get?_of_agreeOutside (hwindow : bus.window = some window)
    (hloads : bus.windowLoads = .registers) (hagree : bus.memory.AgreeOutside window other)
    {access : Access} {address : UInt16} (haddress : access.address? = some address)
    (h : bus.redirects access = false) :
    other.get? address.toNat = bus.memory.get? address.toNat := by
  refine hagree address fun hcovers => ?_
  have hregister : (bus.register? address).isSome = true := by
    rw [register?_eq_some hwindow hcovers]
    rfl
  cases access with
  | load target =>
      cases haddress
      simp [redirects, hloads, hregister] at h
  | store target value =>
      cases haddress
      simp [redirects, hregister] at h
  | input port => cases haddress
  | output port value => cases haddress

theorem missing?_withMemory (hwindow : bus.window = some window)
    (hloads : bus.windowLoads = .registers) (hagree : bus.memory.AgreeOutside window other) :
    (bus.withMemory other).missing? = bus.missing? := by
  funext access
  unfold missing?
  rw [redirects_withMemory]
  cases haddress : access.address? with
  | none => rfl
  | some address =>
      cases hredirects : bus.redirects access with
      | true => rfl
      | false =>
          have hsize : address.toNat < other.size ↔ address.toNat < bus.memory.size := by
            rw [← Memory.get?_isSome_iff, ← Memory.get?_isSome_iff,
              get?_of_agreeOutside hwindow hloads hagree haddress hredirects]
          show (if _ ∨ address.toNat < other.size then _ else _) = _
          simp only [hsize]
          rfl

theorem memoryAfter_withMemory (hwindow : bus.window = some window)
    (hagree : bus.memory.AgreeOutside window other) (access : Access) :
    (bus.memoryAfter access).AgreeOutside window ((bus.withMemory other).memoryAfter access) := by
  intro address houtside
  have hcovers : ¬ bus.covers address.toNat = true := by
    rw [covers_iff, hwindow]
    rintro ⟨w, ⟨⟩, hcovers⟩
    exact houtside hcovers
  have hcovers' : ¬ (bus.withMemory other).covers address.toNat = true := hcovers
  rw [get?_memoryAfter, get?_memoryAfter, if_neg hcovers, if_neg hcovers', withMemory,
    hagree address houtside]

/-- One access is answered in the same way, and what it leaves agrees again. -/
theorem respond_withMemory (hwindow : bus.window = some window)
    (hloads : bus.windowLoads = .registers) (hagree : bus.memory.AgreeOutside window other)
    (access : Access) :
    (bus.withMemory other).respond access =
      ((bus.respond access).1,
        (bus.respond access).2.withMemory ((bus.withMemory other).memoryAfter access)) := by
  refine Prod.ext ?_ ?_
  · cases access with
    | load address =>
        show ((bus.withMemory other).load address).1 = (bus.load address).1
        cases h : bus.redirects (.load address) with
        | true =>
            obtain ⟨register, hregister⟩ : ∃ register, bus.register? address = some register := by
              simpa [redirects, hloads, Option.isSome_iff_exists] using h
            have hother : ((bus.withMemory other).load address) = _ :=
              load_window hloads hregister
            rw [load_window hloads hregister, hother]
            rfl
        | false =>
            have hsame := get?_of_agreeOutside hwindow hloads hagree rfl h
            rw [load_memory h, load_memory (by rw [redirects_withMemory, h]), loadMemory_fst,
              loadMemory_fst, ← hsame]
            rfl
    | _ => rfl
  · rw [respond_snd, respond_snd, missing?_withMemory hwindow hloads hagree]
    cases access <;> rfl

/-- No history of accesses tells two images apart that are the same outside the window. -/
theorem answers_of_agreeOutside (hwindow : bus.window = some window)
    (hloads : bus.windowLoads = .registers) (hagree : bus.memory.AgreeOutside window other)
    (requests : List Access) :
    (bus.withMemory other).answers requests = bus.answers requests ∧
      ∃ rest, (bus.after requests).memory.AgreeOutside window rest ∧
        (bus.withMemory other).after requests = (bus.after requests).withMemory rest := by
  induction requests generalizing bus other with
  | nil => exact ⟨rfl, other, hagree, rfl⟩
  | cons access requests ih =>
      have hlayout := SameLayout.respond bus access
      obtain ⟨hanswers, hrest⟩ := ih (hlayout.window.trans hwindow)
        (hlayout.windowLoads.trans hloads)
        (memory_respond bus access ▸ memoryAfter_withMemory hwindow hagree access)
      have hrespond := respond_withMemory hwindow hloads hagree access
      refine ⟨?_, ?_⟩
      · rw [answers, answers, hrespond, hanswers]
      · rw [after_cons, after_cons, hrespond]
        exact hrest

end Beneath

/-! ## Memory with a window over it -/

/-- What memory has become after `history`, and what a store does now. -/
structure LaidOver (memory : Memory) (window : Option Window) (history : List Access)
    (bus : Bus) : Prop where
  size_eq : bus.memory.size = memory.size
  get?_inside : ∀ w ∈ window, ∀ place, w.Covers place →
    bus.memory.get? place = memory.get? place
  get?_outside : ∀ place, (∀ w ∈ window, ¬ w.Covers place) →
    bus.memory.get? place =
      (memory.get? place).map fun byte => (lastStored place history).getD byte
  /-- In the window a store sets the register there, and nothing else. -/
  store_inside : ∀ w ∈ window, ∀ (address : UInt16) value, w.Covers address.toNat →
    (bus.store address value).memory = bus.memory ∧
      (bus.store address value).pending = bus.pending.push ⟨w.offset address.toNat, value⟩
  /-- Elsewhere a store changes the byte there, if there is one, and nothing else. -/
  store_outside : ∀ (address : UInt16) value, (∀ w ∈ window, ¬ w.Covers address.toNat) →
    (bus.store address value).pending = bus.pending ∧
      ∀ place, (bus.store address value).memory.get? place =
        if place = address.toNat ∧ place < memory.size then some value
        else bus.memory.get? place

/-- A window that is read back lies over memory. -/
structure Overlays (memory : Memory) (window : Window) (history : List Access) (bus : Bus) :
    Prop extends bus.LaidOver memory (some window) history where
  /-- In the window a load gives what was stored there last. -/
  load_inside : ∀ address : UInt16, window.Covers address.toNat →
    bus.load address = ((lastStored address.toNat history).getD 0, bus)
  load_outside : ∀ address : UInt16, ¬ window.Covers address.toNat →
    (bus.load address).1 = (bus.memory.get? address.toNat).getD openLines
  load_memory : ∀ address, (bus.load address).2.memory = bus.memory
  /-- What lies beneath the window makes no difference to anything. -/
  unseen : ∀ other, bus.memory.AgreeOutside window other → ∀ requests,
    (bus.withMemory other).answers requests = bus.answers requests ∧
      ∃ rest, (bus.after requests).memory.AgreeOutside window rest ∧
        (bus.withMemory other).after requests = (bus.after requests).withMemory rest

/-- A window that can only be written lies over memory, and there are ports. -/
structure Shields (memory : Memory) (window : Option Window) (history : List Access)
    (bus : Bus) : Prop extends bus.LaidOver memory window history where
  load_fst : ∀ address, (bus.load address).1 = (bus.memory.get? address.toNat).getD openLines
  load_memory : ∀ address, (bus.load address).2.memory = bus.memory
  input : ∀ port, bus.respond (.input port) = (openLines, bus)
  output_memory : ∀ port value, (bus.output port value).memory = bus.memory

theorem laidOver_after (memory : Memory) (window : Option Window) (loads : WindowLoads)
    (ports : Option PortMap) (history : List Access) :
    ((powerOn memory window loads ports).after history).LaidOver memory window history := by
  have hlayout := SameLayout.after (powerOn memory window loads ports) history
  have hwindow : ((powerOn memory window loads ports).after history).window = window :=
    hlayout.window
  constructor
  case size_eq => exact hlayout.size
  case get?_inside =>
    intro w hw place hcovers
    rw [get?_memory_after, if_pos (covers_iff.mpr ⟨w, hw, hcovers⟩)]
    rfl
  case get?_outside =>
    intro place houtside
    rw [get?_memory_after, if_neg fun h => ?_]
    · rfl
    · obtain ⟨w, hw, hcovers⟩ := covers_iff.mp h
      exact houtside w hw hcovers
  case store_inside =>
    intro w hw address value hcovers
    rw [store_window (register?_eq_some (hwindow.trans hw) hcovers)]
    exact ⟨rfl, rfl⟩
  case store_outside =>
    intro address value houtside
    have hnone := register?_eq_none fun w hw => houtside w (hwindow.symm.trans hw)
    rw [store_memory hnone]
    refine ⟨rfl, fun place => ?_⟩
    show ((Memory.put _ _ _).get? place) = _
    rw [Memory.get?_put, hlayout.size]
    rfl

theorem overlays_after (memory : Memory) (window : Window) (ports : Option PortMap)
    (history : List Access) :
    ((powerOn memory (some window) .registers ports).after history).Overlays
      memory window history := by
  have hlayout := SameLayout.after (powerOn memory (some window) .registers ports) history
  have hwindow : ((powerOn memory (some window) .registers ports).after history).window =
      some window := hlayout.window
  constructor
  case toLaidOver => exact laidOver_after ..
  case load_inside =>
    intro address hcovers
    have hfirst : (powerOn memory (some window) .registers ports).register? address =
        some (window.offset address.toNat) := register?_eq_some rfl hcovers
    rw [load_window hlayout.windowLoads (register?_eq_some hwindow hcovers),
      held_after _ _ hfirst, held_powerOn]
  case load_outside =>
    intro address houtside
    have hnone : ((powerOn memory (some window) .registers ports).after history).register?
        address = none := by
      refine register?_eq_none fun w hw hcovers => houtside ?_
      obtain rfl : window = w := Option.some.inj (hwindow.symm.trans hw)
      exact hcovers
    have hredirects : ((powerOn memory (some window) .registers ports).after history).redirects
        (.load address) = false := by
      rw [redirects, hnone]
      exact Bool.and_false _
    rw [load_memory hredirects, loadMemory_fst]
  case load_memory =>
    intro address
    rw [load_snd]
  case unseen =>
    intro other hagree requests
    exact answers_of_agreeOutside hwindow hlayout.windowLoads hagree requests

theorem shields_after (memory : Memory) (window : Option Window) (ports : Option PortMap)
    (history : List Access) :
    ((powerOn memory window .memory ports).after history).Shields memory window history := by
  have hlayout := SameLayout.after (powerOn memory window .memory ports) history
  constructor
  case toLaidOver => exact laidOver_after ..
  case load_fst =>
    intro address
    have hredirects : ((powerOn memory window .memory ports).after history).redirects
        (.load address) = false := by
      rw [redirects, hlayout.windowLoads]
      rfl
    rw [load_memory hredirects, loadMemory_fst]
  case load_memory =>
    intro address
    rw [load_snd]
  case input => exact fun port => rfl
  case output_memory =>
    intro port value
    rw [output_eq]

/-- Whatever image and window a bus starts with and whatever has been asked of it, it is
memory with the registers of the window laid over it.  A window shows the addresses
from its base on, as many as it has registers and no more than any chip. -/
theorem overlaid_after (memory : Memory) (window : Window) (history : List Access) :
    (∀ address register, window.register? address = some register ↔
      window.Covers address.toNat ∧ register.toNat = address.toNat - window.base.toNat) ∧
    ((powerOn memory (some window) .registers none).after history).Overlays
      memory window history ∧
    ∀ (window? : Option Window) (ports : PortMap),
      ((powerOn memory window? .memory (some ports)).after history).Shields
        memory window? history := by
  have hregister : ∀ address register, window.register? address = some register ↔
      window.Covers address.toNat ∧ register.toNat = address.toNat - window.base.toNat := by
    intro address register
    rw [Window.register?_eq_some_iff, and_congr_right_iff]
    intro hcovers
    rw [← UInt8.toNat_inj, Window.toNat_offset hcovers, eq_comm]
  exact ⟨hregister, overlays_after memory window none history,
    fun window? ports => shields_after memory window? (some ports) history⟩

end Bus

end Chiptune
