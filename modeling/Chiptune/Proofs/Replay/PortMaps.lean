import Chiptune.Proofs.Replay.Accesses

/-!
# Port maps carry settings

A setting travels through ports as a message of a few outputs, which looks different
under every map (`PortMap.Sends`).  Between the outputs of a message and between
messages there may be any others that a map does not listen to (`PortMap.ignores`).

Here all maps are the same: what is captured are the settings that were sent, in order,
each with the register that is left of its number in four bits (`Ports.captured_of_encodes`).
A message always selects the register that it sets, so it does not matter what has been
selected or latched before it.  No output whatever captures a higher register
(`Ports.Narrow.outputAll`).
-/

namespace Chiptune

/-- A byte sent to a port. -/
structure Output where
  port : UInt16
  value : UInt8
  deriving DecidableEq

/-- The access of a processor that sends it. -/
def Output.access (o : Output) : Access :=
  .output o.port o.value

/-! ## What travels through ports -/

namespace PortMap

/-- Whether an output does nothing under a map: its port is not decoded, or it is the
control port of the `cpc` map, and bit 7 is clear. -/
def ignores (map : PortMap) (o : Output) : Bool :=
  match map with
  | .zx128 => o.port &&& 0xC002 ≠ 0xC000 ∧ o.port &&& 0xC002 ≠ 0x8000
  | .cpc => o.port &&& 0xFF00 ≠ 0xF400 ∧ (o.port &&& 0xFF00 = 0xF600 → o.value &&& 0x80 = 0)
  | .msx => o.port &&& 0x00FF ≠ 0x00A0 ∧ o.port &&& 0x00FF ≠ 0x00A1

/-- The outputs that send a setting through a map. -/
inductive Sends (s : Setting) : PortMap → List Output → Prop
  | zx128 {selecting writing : UInt16} :
      selecting &&& 0xC002 = 0xC000 → writing &&& 0xC002 = 0x8000 →
      Sends s .zx128 [⟨selecting, s.register⟩, ⟨writing, s.value⟩]
  | msx {selecting writing : UInt16} :
      selecting &&& 0x00FF = 0x00A0 → writing &&& 0x00FF = 0x00A1 →
      Sends s .msx [⟨selecting, s.register⟩, ⟨writing, s.value⟩]
  /-- Both bytes are latched, and control bytes with bits 7 and 6 set, and with bit 6
  clear, tell which is which. -/
  | cpc {first second third fourth : UInt16} {selecting writing : UInt8} :
      first &&& 0xFF00 = 0xF400 → second &&& 0xFF00 = 0xF600 → selecting &&& 0xC0 = 0xC0 →
      third &&& 0xFF00 = 0xF400 → fourth &&& 0xFF00 = 0xF600 → writing &&& 0xC0 = 0x80 →
      Sends s .cpc
        [⟨first, s.register⟩, ⟨second, selecting⟩, ⟨third, s.value⟩, ⟨fourth, writing⟩]

/-- The outputs send settings through a map, one after the other, and there may be
others among them that the map ignores. -/
def Encodes (map : PortMap) (settings : List Setting) (outputs : List Output) : Prop :=
  ∃ messages, List.Forall₂ (fun s message => Sends s map message) settings messages ∧
    outputs.filter (fun o => !map.ignores o) = messages.flatten

end PortMap

/-- The setting of the register whose number is in the lower four bits. -/
def Setting.narrowed (s : Setting) : Setting :=
  ⟨s.register &&& 0x0F, s.value⟩

/-! ## What is captured -/

namespace Ports

/-- Sends bytes to ports one after the other and collects the settings. -/
def outputAll (ports : Ports) : List Output → Ports × List Setting
  | [] => (ports, [])
  | o :: rest =>
    let (next, setting) := ports.output o.port o.value
    let (last, settings) := outputAll next rest
    (last, setting.toList ++ settings)

variable {ports : Ports} {map : PortMap}

theorem outputAll_append (ports : Ports) (outputs more : List Output) :
    ports.outputAll (outputs ++ more) =
      (((ports.outputAll outputs).1.outputAll more).1,
        (ports.outputAll outputs).2 ++ ((ports.outputAll outputs).1.outputAll more).2) := by
  induction outputs generalizing ports with
  | nil => rfl
  | cons o rest ih => simp [outputAll, ih]

@[simp] theorem map_output (ports : Ports) (port : UInt16) (value : UInt8) :
    (ports.output port value).1.map = ports.map := by
  unfold output select
  split <;> dsimp only <;> split_ifs <;> rfl

/-- A control byte whose bit 7 is clear neither selects nor writes. -/
theorem control_of_bit_clear {value : UInt8} (h : value &&& 0x80 = 0) :
    value &&& 0xC0 ≠ 0xC0 ∧ value &&& 0xC0 ≠ 0x80 := by
  have hbit : value &&& 0x80 = (value &&& 0xC0) &&& 0x80 := by
    rw [UInt8.and_assoc]
    rfl
  rw [hbit] at h
  constructor
  all_goals
    intro hcontrol
    rw [hcontrol] at h
    exact absurd h (by decide)

theorem output_of_ignores {o : Output} (h : ports.map.ignores o = true) :
    ports.output o.port o.value = (ports, none) := by
  unfold PortMap.ignores at h
  unfold output
  cases hmap : ports.map with
  | zx128 =>
      obtain ⟨hselect, hwrite⟩ : o.port &&& 0xC002 ≠ 0xC000 ∧ o.port &&& 0xC002 ≠ 0x8000 := by
        rw [hmap] at h
        exact of_decide_eq_true h
      simp only [if_neg hselect, if_neg hwrite]
  | msx =>
      obtain ⟨hselect, hwrite⟩ : o.port &&& 0x00FF ≠ 0x00A0 ∧ o.port &&& 0x00FF ≠ 0x00A1 := by
        rw [hmap] at h
        exact of_decide_eq_true h
      simp only [if_neg hselect, if_neg hwrite]
  | cpc =>
      obtain ⟨hlatch, hcontrol⟩ : o.port &&& 0xFF00 ≠ 0xF400 ∧
          (o.port &&& 0xFF00 = 0xF600 → o.value &&& 0x80 = 0) := by
        rw [hmap] at h
        exact of_decide_eq_true h
      simp only [if_neg hlatch]
      by_cases hport : o.port &&& 0xFF00 = 0xF600
      · obtain ⟨hselect, hwrite⟩ := control_of_bit_clear (hcontrol hport)
        rw [if_pos hport, if_neg hselect, if_neg hwrite]
      · rw [if_neg hport]

theorem outputAll_filter (ports : Ports) (outputs : List Output) :
    ports.outputAll (outputs.filter fun o => !ports.map.ignores o) = ports.outputAll outputs := by
  induction outputs generalizing ports with
  | nil => rfl
  | cons o rest ih =>
      cases hignored : ports.map.ignores o with
      | true =>
          rw [List.filter_cons_of_neg (by simp [hignored]), ih]
          simp [outputAll, output_of_ignores hignored]
      | false =>
          have hrest := ih (ports.output o.port o.value).1
          rw [map_output] at hrest
          rw [List.filter_cons_of_pos (by simp [hignored])]
          simp only [outputAll, hrest]

/-- A message sets its register, whatever has been selected before. -/
theorem outputAll_of_sends {s : Setting} {message : List Output}
    (h : PortMap.Sends s ports.map message) :
    (ports.outputAll message).2 = [s.narrowed] ∧
      (ports.outputAll message).1.map = ports.map := by
  obtain ⟨map, selected, latch⟩ := ports
  cases h with
  | zx128 hselecting hwriting =>
      simp [outputAll, output, hselecting, hwriting, select, setting, Setting.narrowed]
  | msx hselecting hwriting =>
      simp [outputAll, output, hselecting, hwriting, select, setting, Setting.narrowed]
  | cpc hfirst hsecond hselecting hthird hfourth hwriting =>
      simp [outputAll, output, hfirst, hsecond, hselecting, hthird, hfourth, hwriting, select,
        setting, Setting.narrowed]

theorem outputAll_flatten {settings : List Setting} {messages : List (List Output)}
    (h : List.Forall₂ (fun s message => PortMap.Sends s ports.map message) settings messages) :
    (ports.outputAll messages.flatten).2 = settings.map Setting.narrowed := by
  generalize hmap : ports.map = map at h
  induction h generalizing ports with
  | nil => rfl
  | cons hfirst _ ih =>
      subst hmap
      obtain ⟨hsettings, hmap⟩ := outputAll_of_sends hfirst
      rw [List.flatten_cons, outputAll_append, List.map_cons, hsettings, ih hmap]
      rfl

theorem captured_of_encodes {settings : List Setting} {outputs : List Output}
    (h : ports.map.Encodes settings outputs) :
    (ports.outputAll outputs).2 = settings.map Setting.narrowed := by
  obtain ⟨messages, hsends, hfilter⟩ := h
  rw [← outputAll_filter, hfilter, outputAll_flatten hsends]

/-! ## Registers that can be selected -/

/-- The number of the selected register has four bits. -/
def Narrow (ports : Ports) : Prop :=
  ports.selected.toNat ≤ 15

theorem narrow_powerOn (map : PortMap) : (powerOn map).Narrow :=
  Nat.zero_le 15

theorem Narrow.output (h : ports.Narrow) (port : UInt16) (value : UInt8) :
    (ports.output port value).1.Narrow ∧
      ∀ s ∈ (ports.output port value).2, s.register.toNat ≤ 15 := by
  have hselect : ∀ register, (ports.select register).Narrow := by
    intro register
    show (register &&& 0x0F).toNat ≤ 15
    rw [UInt8.toNat_and]
    exact Nat.and_le_right
  have hkeep : ports.Narrow ∧ ∀ s ∈ (none : Option Setting), s.register.toNat ≤ 15 := ⟨h, nofun⟩
  unfold Ports.output
  cases ports.map with
  | zx128 =>
      dsimp only
      split_ifs
      · exact ⟨hselect value, nofun⟩
      · exact ⟨h, by rintro s ⟨⟩; exact h⟩
      · exact hkeep
  | cpc =>
      dsimp only
      split_ifs
      · exact ⟨h, nofun⟩
      · exact ⟨hselect ports.latch, nofun⟩
      · exact ⟨h, by rintro s ⟨⟩; exact h⟩
      · exact hkeep
      · exact hkeep
  | msx =>
      dsimp only
      split_ifs
      · exact ⟨hselect value, nofun⟩
      · exact ⟨h, by rintro s ⟨⟩; exact h⟩
      · exact hkeep

theorem Narrow.outputAll (h : ports.Narrow) (outputs : List Output) :
    (ports.outputAll outputs).1.Narrow ∧
      ∀ s ∈ (ports.outputAll outputs).2, s.register.toNat ≤ 15 := by
  induction outputs generalizing ports with
  | nil => exact ⟨h, nofun⟩
  | cons o rest ih =>
      obtain ⟨hnext, hfirst⟩ := h.output o.port o.value
      obtain ⟨hlast, hothers⟩ := ih hnext
      refine ⟨hlast, fun s hs => ?_⟩
      rcases List.mem_append.mp hs with hs | hs
      · exact hfirst s (Option.mem_toList.mp hs)
      · exact hothers s hs

end Ports

/-! ## On a bus -/

namespace Bus

/-- Sending bytes to the ports of a bus adds what is captured to its settings. -/
theorem after_outputs {bus : Bus} {ports : Ports} (h : bus.ports = some ports)
    (outputs : List Output) :
    (bus.after (outputs.map Output.access)).ports = some (ports.outputAll outputs).1 ∧
      (bus.after (outputs.map Output.access)).pending.toList =
        bus.pending.toList ++ (ports.outputAll outputs).2 := by
  induction outputs generalizing bus ports with
  | nil => exact ⟨h, (List.append_nil _).symm⟩
  | cons o rest ih =>
      have hrespond := bus.output_eq o.port o.value
      have hports : (bus.respond o.access).2.ports = some (ports.output o.port o.value).1 := by
        show (bus.output o.port o.value).ports = _
        rw [hrespond, h]
        rfl
      have hpending : (bus.respond o.access).2.pending.toList =
          bus.pending.toList ++ (ports.output o.port o.value).2.toList := by
        show (bus.output o.port o.value).pending.toList = _
        rw [hrespond, setting?, h, Array.toList_append]
        simp
      obtain ⟨hlast, hall⟩ := ih hports
      rw [List.map_cons, after_cons]
      refine ⟨hlast, ?_⟩
      rw [hall, hpending, List.append_assoc]
      rfl

/-- Whatever is asked of a bus, the register selected behind its ports has a number of
four bits. -/
theorem narrow_after (memory : Memory) (window : Option Window) (loads : WindowLoads)
    (map : PortMap) (history : List Access) :
    ∃ ports, ((powerOn memory window loads (some map)).after history).ports = some ports ∧
      ports.Narrow := by
  have hstart : ∃ ports, (powerOn memory window loads (some map)).ports = some ports ∧
      ports.Narrow := ⟨_, rfl, Ports.narrow_powerOn map⟩
  generalize powerOn memory window loads (some map) = bus at hstart ⊢
  induction history generalizing bus with
  | nil => exact hstart
  | cons access rest ih =>
      obtain ⟨ports, hports, hnarrow⟩ := hstart
      refine ih _ ?_
      rw [ports_respond]
      cases access with
      | output port value =>
          refine ⟨(ports.output port value).1, ?_, (hnarrow.output port value).1⟩
          rw [portsAfter, hports]
          rfl
      | _ => exact ⟨ports, hports, hnarrow⟩

/-- Under every map the settings that are sent through the ports of a bus are the ones it
captures, whatever it has been through.  No sequence of outputs makes a bus capture a
register past the fifteenth, whatever it has been asked since it was switched on. -/
theorem pending_of_encodes (map : PortMap) :
    (∀ (bus : Bus) (ports : Ports) (settings : List Setting) (outputs : List Output),
      bus.ports = some ports → ports.map = map → map.Encodes settings outputs →
        (bus.after (outputs.map Output.access)).pending.toList =
          bus.pending.toList ++ settings.map Setting.narrowed) ∧
    ∀ (memory : Memory) (window : Option Window) (loads : WindowLoads) (history : List Access)
      (bus : Bus), bus.ports = ((powerOn memory window loads (some map)).after history).ports →
        ∀ outputs : List Output, ∃ captured,
          (bus.after (outputs.map Output.access)).pending.toList =
            bus.pending.toList ++ captured ∧
          ∀ s ∈ captured, s.register.toNat ≤ 15 := by
  constructor
  · intro bus ports settings outputs hports hmap hencodes
    rw [(after_outputs hports outputs).2, Ports.captured_of_encodes (hmap ▸ hencodes)]
  · intro memory window loads history bus hports outputs
    obtain ⟨ports, hreached, hnarrow⟩ := narrow_after memory window loads map history
    exact ⟨_, (after_outputs (hports.trans hreached) outputs).2, (hnarrow.outputAll outputs).2⟩

/-- Two settings through the `cpc` map, with outputs in between that it ignores and after
others that have left a register selected and a byte latched. -/
theorem pending_of_encodes_interleaved :
    let outputs : List Output := [⟨0xF4FF, 0x17⟩, ⟨0xF600, 0x40⟩, ⟨0xF6AA, 0xC5⟩,
      ⟨0x7F00, 0x99⟩, ⟨0xF400, 0x3E⟩, ⟨0xF610, 0x00⟩, ⟨0xF600, 0xBF⟩,
      ⟨0xFFFD, 0x01⟩, ⟨0xF401, 0x08⟩, ⟨0xF600, 0xFF⟩, ⟨0xF402, 0x0F⟩, ⟨0xF603, 0x80⟩]
    let bus : Bus := { powerOn ⟨⟨#[0]⟩⟩ none .memory none with
      ports := some ⟨.cpc, 0xFF, 0x77⟩, pending := #[⟨31, 1⟩] }
    PortMap.cpc.Encodes [⟨0x17, 0x3E⟩, ⟨0x08, 0x0F⟩] outputs ∧
      (bus.after (outputs.map Output.access)).pending.toList =
        [⟨31, 1⟩, ⟨0x07, 0x3E⟩, ⟨0x08, 0x0F⟩] := by
  intro outputs bus
  have hencodes : PortMap.cpc.Encodes [⟨0x17, 0x3E⟩, ⟨0x08, 0x0F⟩] outputs := by
    refine ⟨[[⟨0xF4FF, 0x17⟩, ⟨0xF6AA, 0xC5⟩, ⟨0xF400, 0x3E⟩, ⟨0xF600, 0xBF⟩],
      [⟨0xF401, 0x08⟩, ⟨0xF600, 0xFF⟩, ⟨0xF402, 0x0F⟩, ⟨0xF603, 0x80⟩]], ?_, by decide⟩
    refine .cons ?_ (.cons ?_ .nil)
    all_goals exact .cpc (by decide) (by decide) (by decide) (by decide) (by decide) (by decide)
  exact ⟨hencodes, (pending_of_encodes .cpc).1 bus _ _ outputs rfl rfl hencodes⟩

end Bus

end Chiptune
