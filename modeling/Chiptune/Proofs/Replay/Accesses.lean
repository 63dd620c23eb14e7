import Chiptune.Replay.Bus
import Mathlib.Data.List.Basic

/-!
# Accesses one after the other

All that a processor does to a bus is a list of accesses.  `Bus.after` is the bus
after them and `Bus.accesses` are those of a program, so that a statement about what
programs do to a bus is one about lists (`Bus.run_snd`).

What becomes of the parts of a bus is said here once, in one equation for each part
and for any number of accesses:

| part | after a history of accesses |
|---|---|
| memory | the last byte stored at every address that is not in the window (`get?_memory_after`) |
| registers | the last byte stored at the address of the register (`held_after`) |
| fault | the first access that neither window nor image has (`fault_after`) |

What has not been touched is what it was.
-/

namespace Chiptune

/-! ## Windows -/

namespace Window

/-- The addresses of the registers that show.  They are natural numbers, so that a
window which reaches past the last address does not go on at the first. -/
def Covers (w : Window) (address : ℕ) : Prop :=
  w.base.toNat ≤ address ∧ address < w.base.toNat + min w.length.toNat maxRegisters

instance (w : Window) (address : ℕ) : Decidable (w.Covers address) :=
  inferInstanceAs (Decidable (_ ∧ _))

/-- The register at an address of the window. -/
def offset (w : Window) (address : ℕ) : UInt8 :=
  (address - w.base.toNat).toUInt8

variable {w : Window}

theorem toNat_offset {address : ℕ} (h : w.Covers address) :
    (w.offset address).toNat = address - w.base.toNat := by
  obtain ⟨hbase, hlt⟩ := h
  refine UInt8.toNat_ofNat_of_lt' ?_
  have hroom : address - w.base.toNat < maxRegisters := by omega
  exact Nat.lt_trans hroom (by decide)

theorem offset_lt {address : ℕ} (h : w.Covers address) :
    (w.offset address).toNat < maxRegisters := by
  rw [toNat_offset h]
  obtain ⟨hbase, hlt⟩ := h
  omega

theorem register?_eq (w : Window) (address : UInt16) :
    w.register? address =
      if w.Covers address.toNat then some (w.offset address.toNat) else none := by
  have hcovers : (w.base ≤ address ∧ address.toNat - w.base.toNat < w.length.toNat ∧
      address.toNat - w.base.toNat < maxRegisters) ↔ w.Covers address.toNat := by
    rw [UInt16.le_iff_toNat_le]
    unfold Covers
    omega
  unfold register?
  simp only [hcovers]
  rfl

theorem register?_eq_some_iff {address : UInt16} {register : UInt8} :
    w.register? address = some register ↔
      w.Covers address.toNat ∧ w.offset address.toNat = register := by
  rw [register?_eq]
  split <;> simp_all

theorem register?_of_toNat_eq {address : UInt16} {register : UInt8}
    (h : address.toNat = w.base.toNat + register.toNat) (hlength : register.toNat < w.length.toNat)
    (hroom : register.toNat < maxRegisters) : w.register? address = some register := by
  have hcovers : w.Covers address.toNat := by
    rw [h]
    exact ⟨Nat.le_add_right .., Nat.add_lt_add_left (Nat.lt_min.mpr ⟨hlength, hroom⟩) _⟩
  have hoffset : (w.offset address.toNat).toNat = register.toNat := by
    rw [toNat_offset hcovers]
    omega
  exact register?_eq_some_iff.mpr ⟨hcovers, UInt8.toNat_inj.mp hoffset⟩

/-- Every register is at one address only. -/
theorem address_unique {address other : UInt16} {register : UInt8}
    (h : w.register? address = some register) (hother : w.register? other = some register) :
    other = address := by
  obtain ⟨hcovers, rfl⟩ := register?_eq_some_iff.mp h
  obtain ⟨hcovers', heq⟩ := register?_eq_some_iff.mp hother
  have hoffset := congrArg UInt8.toNat heq
  rw [toNat_offset hcovers, toNat_offset hcovers'] at hoffset
  have hbase := hcovers.1
  have hbase' := hcovers'.1
  exact UInt16.toNat_inj.mp (by omega)

end Window

/-! ## Histories -/

namespace Access

/-- The place in memory that an access is about. -/
def address? : Access → Option UInt16
  | .load address => some address
  | .store address _ => some address
  | .input _ => none
  | .output _ _ => none

/-- What an access stores at an address. -/
def stored? (address : ℕ) : Access → Option UInt8
  | .store target value => if target.toNat = address then some value else none
  | _ => none

end Access

/-- The value that was stored last at an address. -/
def lastStored (address : ℕ) (history : List Access) : Option UInt8 :=
  (history.filterMap (Access.stored? address)).getLast?

theorem lastStored_append (address : ℕ) (history more : List Access) :
    lastStored address (history ++ more) =
      (lastStored address more).or (lastStored address history) := by
  unfold lastStored
  rw [List.filterMap_append, List.getLast?_append]

theorem lastStored_singleton (address : ℕ) (access : Access) :
    lastStored address [access] = access.stored? address := by
  unfold lastStored
  cases h : access.stored? address <;> simp [h]

theorem lastStored_eq_none {address : UInt16} {history : List Access}
    (h : ∀ value, .store address value ∉ history) : lastStored address.toNat history = none := by
  unfold lastStored
  rw [List.getLast?_eq_none_iff, List.filterMap_eq_nil_iff]
  intro access haccess
  cases access with
  | store target value =>
      refine if_neg fun hsame => h value ?_
      rwa [← UInt16.toNat_inj.mp hsame]
  | _ => rfl

namespace Bus

variable {α : Type}

/-- The bus after accesses. -/
def after (bus : Bus) (history : List Access) : Bus :=
  history.foldl (fun bus access => (bus.respond access).2) bus

/-- The bytes that accesses give, one after the other. -/
def answers : Bus → List Access → List UInt8
  | _, [] => []
  | bus, access :: rest => (bus.respond access).1 :: answers (bus.respond access).2 rest

/-- The accesses that a program makes. -/
def accesses : Bus → BusProgram α → List Access
  | _, .done _ => []
  | bus, .access request next =>
    request :: accesses (bus.respond request).2 (next (bus.respond request).1)

theorem after_cons (bus : Bus) (access : Access) (rest : List Access) :
    bus.after (access :: rest) = (bus.respond access).2.after rest :=
  rfl

/-- Running a program is making its accesses. -/
theorem run_snd (bus : Bus) (program : BusProgram α) :
    (bus.run program).2 = bus.after (bus.accesses program) := by
  induction program generalizing bus with
  | done result => rfl
  | access request next ih => exact ih _ _

/-- A program that goes on with another one is run where that one leaves off. -/
theorem run_bind {β : Type} (bus : Bus) (program : BusProgram α) (f : α → BusProgram β) :
    bus.run (program >>= f) = (bus.run program).2.run (f (bus.run program).1) := by
  induction program generalizing bus with
  | done result => rfl
  | access request next ih => exact ih _ _

/-! ## What an access does -/

/-- The value that a register of the window holds. -/
def held (bus : Bus) (register : UInt8) : UInt8 :=
  bus.stored.toArray.getD register.toNat 0

/-- Every register is zero at first. -/
theorem held_powerOn (memory : Memory) (window : Option Window) (loads : WindowLoads)
    (ports : Option PortMap) (register : UInt8) :
    (powerOn memory window loads ports).held register = 0 := by
  unfold held powerOn
  by_cases hroom : register.toNat < maxRegisters <;> simp [hroom]

/-- Whether an access goes to the window instead of the memory beneath. -/
def redirects (bus : Bus) : Access → Bool
  | .load address => bus.windowLoads = .registers && (bus.register? address).isSome
  | .store address _ => (bus.register? address).isSome
  | .input _ => false
  | .output _ _ => false

/-- The fault of an access whose place neither the window nor the image has. -/
def missing? (bus : Bus) (access : Access) : Option AddressFault :=
  access.address?.bind fun address =>
    if bus.redirects access ∨ address.toNat < bus.memory.size then none
    else some ⟨address.toNat⟩

theorem load_window {bus : Bus} {address : UInt16} {register : UInt8}
    (hloads : bus.windowLoads = .registers) (h : bus.register? address = some register) :
    bus.load address = (bus.held register, bus) := by
  unfold load
  rw [hloads, h]
  rfl

theorem loadMemory_fst (bus : Bus) (address : UInt16) :
    (bus.loadMemory address).1 = (bus.memory.get? address.toNat).getD openLines := by
  unfold loadMemory
  cases bus.memory.get? address.toNat <;> rfl

/-- A load that is not redirected gives a byte of memory. -/
theorem load_memory {bus : Bus} {address : UInt16}
    (h : bus.redirects (.load address) = false) :
    bus.load address = bus.loadMemory address := by
  unfold load
  unfold redirects at h
  cases hloads : bus.windowLoads with
  | memory => rfl
  | registers =>
      cases hregister : bus.register? address with
      | none => rfl
      | some register => simp [hloads, hregister] at h

/-- All that a load changes is the fault. -/
theorem load_snd (bus : Bus) (address : UInt16) :
    (bus.load address).2 =
      { bus with fault := bus.fault.or (bus.missing? (.load address)) } := by
  cases h : bus.redirects (.load address) with
  | true =>
      obtain ⟨hloads, hregister⟩ : bus.windowLoads = .registers ∧
          (bus.register? address).isSome = true := by simpa [redirects] using h
      obtain ⟨register, hregister⟩ := Option.isSome_iff_exists.mp hregister
      rw [load_window hloads hregister]
      simp [missing?, Access.address?, h]
  | false =>
      rw [load_memory h]
      unfold loadMemory missing?
      simp only [Access.address?, h]
      cases hget : bus.memory.get? address.toNat with
      | none =>
          have hsize := Memory.get?_eq_none_iff.mp hget
          simp [recordFault, Nat.not_lt.mpr hsize]
      | some value =>
          have hsize := Memory.get?_isSome_iff.mp (Option.isSome_of_eq_some hget)
          simp [hsize]

theorem store_window {bus : Bus} {address : UInt16} {register : UInt8}
    (h : bus.register? address = some register) (value : UInt8) :
    bus.store address value =
      { bus with
        stored := bus.stored.setIfInBounds register.toNat value
        pending := bus.pending.push ⟨register, value⟩ } := by
  unfold store
  rw [h]

/-- Outside the window all that a store changes is the memory and the fault. -/
theorem store_memory {bus : Bus} {address : UInt16} (h : bus.register? address = none)
    (value : UInt8) :
    bus.store address value =
      { bus with
        memory := bus.memory.put address.toNat value
        fault := bus.fault.or (bus.missing? (.store address value)) } := by
  unfold store missing? redirects
  rw [h]
  by_cases hsize : address.toNat < bus.memory.size
  · simp [Access.address?, hsize]
  · have hput : bus.memory.put address.toNat value = bus.memory := by
      unfold Memory.put
      exact dif_neg hsize
    simp [Access.address?, h, hsize, hput, recordFault]

/-- The setting of a chip register that an access makes. -/
def setting? (bus : Bus) : Access → Option Setting
  | .store address value => (bus.register? address).map fun register => ⟨register, value⟩
  | .output port value => bus.ports.bind fun ports => (ports.output port value).2
  | .load _ => none
  | .input _ => none

/-- An output changes what is behind the ports, and what it sets is kept. -/
theorem output_eq (bus : Bus) (port : UInt16) (value : UInt8) :
    bus.output port value =
      { bus with
        ports := bus.ports.map fun ports => (ports.output port value).1
        pending := bus.pending ++ (bus.setting? (.output port value)).toArray } := by
  unfold output setting?
  obtain ⟨memory, window, loads, stored, ports, pending, fault⟩ := bus
  cases ports with
  | none => simp
  | some ports =>
      rcases hports : ports.output port value with ⟨ports', _ | setting⟩ <;> simp [hports]

/-- Whether an address is one of the window. -/
def covers (bus : Bus) (address : ℕ) : Bool :=
  bus.window.any fun w => w.Covers address

theorem covers_iff {bus : Bus} {address : ℕ} :
    bus.covers address = true ↔ ∃ w ∈ bus.window, w.Covers address := by
  unfold covers
  cases bus.window <;> simp

theorem register?_eq_some {bus : Bus} {w : Window} (hw : w ∈ bus.window) {address : UInt16}
    (h : w.Covers address.toNat) : bus.register? address = some (w.offset address.toNat) := by
  unfold register?
  rw [hw, Option.bind_some, Window.register?_eq, if_pos h]

theorem isSome_register? (bus : Bus) (address : UInt16) :
    (bus.register? address).isSome = bus.covers address.toNat := by
  unfold register? covers
  cases bus.window with
  | none => rfl
  | some w =>
      simp only [Option.bind_some, Option.any_some, Window.register?_eq]
      split <;> simp_all

theorem register?_eq_none {bus : Bus} {address : UInt16}
    (h : ∀ w ∈ bus.window, ¬ w.Covers address.toNat) : bus.register? address = none := by
  rw [← Option.not_isSome_iff_eq_none, isSome_register?, covers_iff]
  rintro ⟨w, hw, hcovers⟩
  exact h w hw hcovers

/-- The memory after an access. -/
def memoryAfter (bus : Bus) : Access → Memory
  | .store address value =>
    if bus.covers address.toNat then bus.memory else bus.memory.put address.toNat value
  | _ => bus.memory

/-- The registers of the window after an access. -/
def storedAfter (bus : Bus) : Access → Vector UInt8 maxRegisters
  | .store address value =>
    match bus.register? address with
    | some register => bus.stored.setIfInBounds register.toNat value
    | none => bus.stored
  | _ => bus.stored

/-- What is behind the ports after an access. -/
def portsAfter (bus : Bus) : Access → Option Ports
  | .output port value => bus.ports.map fun ports => (ports.output port value).1
  | _ => bus.ports

/-- All that an access does to a bus, part by part. -/
theorem respond_snd (bus : Bus) (access : Access) :
    (bus.respond access).2 =
      { bus with
        memory := bus.memoryAfter access
        stored := bus.storedAfter access
        ports := bus.portsAfter access
        pending := bus.pending ++ (bus.setting? access).toArray
        fault := bus.fault.or (bus.missing? access) } := by
  cases access with
  | load address =>
      show (bus.load address).2 = _
      rw [load_snd]
      simp [memoryAfter, storedAfter, portsAfter, setting?]
  | store address value =>
      show bus.store address value = _
      have hcovers := bus.isSome_register? address
      cases h : bus.register? address with
      | none =>
          rw [h] at hcovers
          rw [store_memory h]
          simp [memoryAfter, storedAfter, portsAfter, setting?, h, ← hcovers]
      | some register =>
          rw [h] at hcovers
          rw [store_window h]
          simp [memoryAfter, storedAfter, portsAfter, setting?, h, ← hcovers, missing?, redirects,
            Access.address?]
  | input port =>
      show bus = _
      simp [memoryAfter, storedAfter, portsAfter, setting?, missing?, Access.address?]
  | output port value =>
      show bus.output port value = _
      rw [output_eq]
      simp [memoryAfter, storedAfter, portsAfter, missing?, Access.address?]

section Respond

variable (bus : Bus) (access : Access)

theorem memory_respond : (bus.respond access).2.memory = bus.memoryAfter access :=
  congrArg Bus.memory (bus.respond_snd access)

theorem stored_respond : (bus.respond access).2.stored = bus.storedAfter access :=
  congrArg Bus.stored (bus.respond_snd access)

theorem ports_respond : (bus.respond access).2.ports = bus.portsAfter access :=
  congrArg Bus.ports (bus.respond_snd access)

theorem pending_respond :
    (bus.respond access).2.pending = bus.pending ++ (bus.setting? access).toArray :=
  congrArg Bus.pending (bus.respond_snd access)

theorem fault_respond :
    (bus.respond access).2.fault = bus.fault.or (bus.missing? access) :=
  congrArg Bus.fault (bus.respond_snd access)

end Respond

/-! ## What stays -/

/-- The buses redirect the same accesses, and their images have the same size. -/
structure SameLayout (bus other : Bus) : Prop where
  window : other.window = bus.window
  windowLoads : other.windowLoads = bus.windowLoads
  size : other.memory.size = bus.memory.size

theorem SameLayout.refl (bus : Bus) : bus.SameLayout bus :=
  ⟨rfl, rfl, rfl⟩

theorem SameLayout.trans {bus other last : Bus} (h : bus.SameLayout other)
    (h' : other.SameLayout last) : bus.SameLayout last :=
  ⟨h'.window.trans h.window, h'.windowLoads.trans h.windowLoads, h'.size.trans h.size⟩

theorem SameLayout.respond (bus : Bus) (access : Access) :
    bus.SameLayout (bus.respond access).2 := by
  rw [respond_snd]
  refine ⟨rfl, rfl, ?_⟩
  cases access with
  | store address value =>
      unfold memoryAfter
      dsimp only
      split
      · rfl
      · exact Memory.size_put ..
  | _ => rfl

theorem SameLayout.after (bus : Bus) (history : List Access) :
    bus.SameLayout (bus.after history) := by
  induction history generalizing bus with
  | nil => exact .refl bus
  | cons access rest ih => exact (SameLayout.respond bus access).trans (ih _)

theorem SameLayout.register?_eq {bus other : Bus} (h : bus.SameLayout other) :
    other.register? = bus.register? := by
  funext address
  unfold register?
  rw [h.window]

theorem SameLayout.covers_eq {bus other : Bus} (h : bus.SameLayout other) :
    other.covers = bus.covers := by
  funext address
  unfold covers
  rw [h.window]

theorem SameLayout.missing?_eq {bus other : Bus} (h : bus.SameLayout other) :
    other.missing? = bus.missing? := by
  have hredirects : other.redirects = bus.redirects := by
    funext access
    cases access <;> simp only [redirects, h.windowLoads, h.register?_eq]
  funext access
  unfold missing?
  rw [hredirects, h.size]

/-! ## Histories, part by part -/

section Parts

variable (bus : Bus) (history : List Access)

/-- The fault is that of the first access for which there is no place. -/
theorem fault_after :
    (bus.after history).fault = bus.fault.or (history.findSome? bus.missing?) := by
  induction history generalizing bus with
  | nil => exact Option.or_none.symm
  | cons access rest ih =>
      rw [after_cons, ih, (SameLayout.respond bus access).missing?_eq, fault_respond,
        Option.or_assoc, List.findSome?_cons]
      cases bus.missing? access <;> rfl

theorem get?_memoryAfter (access : Access) (address : ℕ) :
    (bus.memoryAfter access).get? address =
      if bus.covers address then bus.memory.get? address
      else (bus.memory.get? address).map fun byte => (access.stored? address).getD byte := by
  cases access with
  | store target value =>
      unfold memoryAfter
      dsimp only [Access.stored?]
      by_cases hsame : target.toNat = address
      · subst hsame
        by_cases hcovers : bus.covers target.toNat
        · rw [if_pos hcovers, if_pos hcovers]
        · rw [if_neg hcovers, if_neg hcovers, Memory.get?_put, if_pos rfl]
          by_cases hsize : target.toNat < bus.memory.size
          · obtain ⟨byte, hbyte⟩ := Option.isSome_iff_exists.mp (Memory.get?_isSome_iff.mpr hsize)
            rw [if_pos ⟨rfl, hsize⟩, hbyte]
            rfl
          · rw [if_neg fun h => hsize h.2,
              Memory.get?_eq_none_iff.mpr (Nat.not_lt.mp hsize)]
            rfl
      · have hother : ¬ (address = target.toNat ∧ address < bus.memory.size) :=
          fun h => hsame h.1.symm
        rw [if_neg hsame]
        split <;> simp [Memory.get?_put, hother]
  | _ => simp [memoryAfter, Access.stored?]

/-- Memory keeps what was stored last at each of its addresses, but for those that the
window covers. -/
theorem get?_memory_after (address : ℕ) :
    (bus.after history).memory.get? address =
      if bus.covers address then bus.memory.get? address
      else (bus.memory.get? address).map fun byte => (lastStored address history).getD byte := by
  induction history generalizing bus with
  | nil => simp [after, lastStored]
  | cons access rest ih =>
      rw [after_cons, ih, (SameLayout.respond bus access).covers_eq, memory_respond,
        get?_memoryAfter, ← List.singleton_append, lastStored_append, lastStored_singleton]
      by_cases hcovers : bus.covers address
      · simp only [hcovers, if_true]
      · simp only [hcovers, Bool.false_eq_true, if_false, Option.map_map]
        congr 1
        funext byte
        cases lastStored address rest <;> rfl

omit bus history in
theorem register?_lt {bus : Bus} {address : UInt16} {register : UInt8}
    (h : bus.register? address = some register) : register.toNat < maxRegisters := by
  obtain ⟨w, -, hw⟩ := Option.bind_eq_some_iff.mp h
  obtain ⟨hcovers, rfl⟩ := Window.register?_eq_some_iff.mp hw
  exact Window.offset_lt hcovers

omit bus history in
/-- No register is at two addresses. -/
theorem register?_ne {bus : Bus} {address other : UInt16} {register : UInt8}
    (h : bus.register? address = some register) (hne : other ≠ address) :
    bus.register? other ≠ some register := by
  intro hother
  obtain ⟨w, hwindow, hw⟩ := Option.bind_eq_some_iff.mp h
  obtain ⟨w', hwindow', hw'⟩ := Option.bind_eq_some_iff.mp hother
  obtain rfl : w = w' := Option.some.inj (hwindow.symm.trans hwindow')
  exact hne (Window.address_unique hw hw')

/-- A register changes only if something is stored at its address. -/
theorem held_respond (access : Access) (register : UInt8) :
    (bus.respond access).2.held register =
      match access with
      | .store address value =>
        if bus.register? address = some register then value else bus.held register
      | _ => bus.held register := by
  unfold held
  rw [stored_respond]
  cases access with
  | store address value =>
      unfold storedAfter
      dsimp only
      cases haddress : bus.register? address with
      | none => rfl
      | some other =>
          by_cases hsame : other = register
          · subst hsame
            have hroom := register?_lt haddress
            simp [hroom]
          · have hne : other.toNat ≠ register.toNat := fun heq => hsame (UInt8.toNat_inj.mp heq)
            simp [hsame, hne]
  | _ => rfl

/-- A register holds what was stored last at its address. -/
theorem held_after {address : UInt16} {register : UInt8}
    (h : bus.register? address = some register) :
    (bus.after history).held register =
      (lastStored address.toNat history).getD (bus.held register) := by
  induction history generalizing bus with
  | nil => rfl
  | cons access rest ih =>
      have hregister : (bus.respond access).2.register? address = some register := by
        rw [(SameLayout.respond bus access).register?_eq, h]
      have hfirst : (bus.respond access).2.held register =
          (access.stored? address.toNat).getD (bus.held register) := by
        rw [held_respond]
        cases access with
        | store target value =>
            dsimp only [Access.stored?]
            by_cases hsame : target = address
            · rw [hsame, if_pos h, if_pos rfl]
              rfl
            · rw [if_neg (register?_ne h hsame),
                if_neg fun heq => hsame (UInt16.toNat_inj.mp heq)]
              rfl
        | _ => rfl
      rw [after_cons, ih _ hregister, hfirst, ← List.singleton_append, lastStored_append,
        lastStored_singleton]
      cases lastStored address.toNat rest <;> rfl

/-- A register that has no address holds what it held. -/
theorem held_after_of_forall_ne {register : UInt8}
    (h : ∀ address, bus.register? address ≠ some register) :
    (bus.after history).held register = bus.held register := by
  induction history generalizing bus with
  | nil => rfl
  | cons access rest ih =>
      have hlayout := (SameLayout.respond bus access).register?_eq
      have hfirst : (bus.respond access).2.held register = bus.held register := by
        rw [held_respond]
        cases access with
        | store address value => exact if_neg (h address)
        | _ => rfl
      rw [after_cons, ih _ (hlayout ▸ h), hfirst]

end Parts

end Bus

end Chiptune
