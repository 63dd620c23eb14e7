import Chiptune.Mos6502.Execute
import Chiptune.Proofs.Replay.Transcripts
import Chiptune.Z80.Execute

/-!
# What machines report

Settings of chip registers wait on the bus until a step is over that does not fault, and
only then they are reported.  So whatever makes an access in the meantime has its settings
reported too.

`Bus.settings` says what a history of accesses sets, and no setting is reported twice or
lost: what is reported and what waits in the end are what waited in the beginning and what
has been set since (`Bus.Conveys`).  This holds of every step, whether it faults or not, and
of every history of requests in which no routine is called.

The call of a routine drops what waits before it stores the return address.  Where this lies
in the window, its two bytes are reported as settings of the chip, with those of the first
instruction (`Machine.conveys_called`).  Where it does not, nothing waits when an instruction
begins (`Machine.Quiet`), and a step reports what its own instruction sets, whatever has
timed out or faulted before (`Machine.reports_after`).
-/

namespace Chiptune

namespace Bus

/-! ## The settings of a history -/

/-- The settings that accesses make.  What an output sets depends on the outputs before. -/
def settings : Bus → List Access → List Setting
  | _, [] => []
  | bus, access :: rest => (bus.setting? access).toList ++ settings (bus.respond access).2 rest

theorem settings_append (bus : Bus) (history more : List Access) :
    bus.settings (history ++ more) = bus.settings history ++ (bus.after history).settings more := by
  induction history generalizing bus with
  | nil => rfl
  | cons access rest ih =>
      rw [List.cons_append, settings, settings, ih, List.append_assoc]
      rfl

/-- All that is set waits until it is collected. -/
theorem pending_after_eq (bus : Bus) (history : List Access) :
    (bus.after history).pending.toList = bus.pending.toList ++ bus.settings history := by
  induction history generalizing bus with
  | nil => exact (List.append_nil _).symm
  | cons access rest ih =>
      rw [after_cons, ih, pending_respond, settings, Array.toList_append, Option.toList_toArray,
        List.append_assoc]

/-! ## Buses that set alike -/

/-- The window and the ports decide what an access sets. -/
structure SetsAlike (bus other : Bus) : Prop where
  window : bus.window = other.window
  ports : bus.ports = other.ports

namespace SetsAlike

variable {bus other last : Bus}

theorem refl (bus : Bus) : bus.SetsAlike bus :=
  ⟨rfl, rfl⟩

theorem trans (h : bus.SetsAlike other) (h' : other.SetsAlike last) : bus.SetsAlike last :=
  ⟨h.window.trans h'.window, h.ports.trans h'.ports⟩

theorem setting?_eq (h : bus.SetsAlike other) (access : Access) :
    bus.setting? access = other.setting? access := by
  cases access <;> simp only [setting?, register?, h.window, h.ports]

theorem respond (h : bus.SetsAlike other) (access : Access) :
    (bus.respond access).2.SetsAlike (other.respond access).2 where
  window :=
    (SameLayout.respond bus access).window.trans
      (h.window.trans (SameLayout.respond other access).window.symm)
  ports := by
    rw [ports_respond, ports_respond]
    cases access <;> simp only [portsAfter, h.ports]

theorem after (h : bus.SetsAlike other) (history : List Access) :
    (bus.after history).SetsAlike (other.after history) := by
  induction history generalizing bus other with
  | nil => exact h
  | cons access rest ih => exact ih (h.respond access)

theorem settings_eq (h : bus.SetsAlike other) (history : List Access) :
    bus.settings history = other.settings history := by
  induction history generalizing bus other with
  | nil => rfl
  | cons access rest ih => rw [settings, settings, h.setting?_eq, ih (h.respond access)]

end SetsAlike

/-! ## From a bus to reports -/

/-- A history of accesses that began on one bus ended on another one, and meanwhile these
writes were reported. -/
structure Conveys (bus : Bus) (history : List Access) (writes : List Write) (other : Bus) :
    Prop where
  alike : (bus.after history).SetsAlike other
  balance : writes.map Write.setting ++ other.pending.toList =
    bus.pending.toList ++ bus.settings history

namespace Conveys

variable {bus other last : Bus} {history more : List Access} {writes others : List Write}

theorem refl (bus : Bus) : bus.Conveys [] [] bus :=
  ⟨.refl bus, (List.append_nil _).symm⟩

theorem trans (h : bus.Conveys history writes other) (h' : other.Conveys more others last) :
    bus.Conveys (history ++ more) (writes ++ others) last where
  alike := by
    rw [after, List.foldl_append]
    exact (h.alike.after more).trans h'.alike
  balance :=
    calc (writes ++ others).map Write.setting ++ last.pending.toList
        = writes.map Write.setting ++ (others.map Write.setting ++ last.pending.toList) := by
          rw [List.map_append, List.append_assoc]
      _ = (writes.map Write.setting ++ other.pending.toList) ++ other.settings more := by
          rw [h'.balance, List.append_assoc]
      _ = bus.pending.toList ++ bus.settings (history ++ more) := by
          rw [h.balance, settings_append, h.alike.settings_eq, List.append_assoc]

/-- Nothing is reported before a step is over. -/
theorem of_after (bus : Bus) (history : List Access) (fault : Option AddressFault) :
    bus.Conveys history [] { bus.after history with fault } :=
  ⟨⟨rfl, rfl⟩, bus.pending_after_eq history⟩

end Conveys

end Bus

namespace Machine

variable {ρ : Type} {processor : Processor ρ} {m next : Machine ρ} {writes : List Write}

/-! ## Reports of requests -/

theorem conveys_step (h : step processor m = (.ok writes, next)) :
    m.bus.Conveys (stepAccesses processor m) writes next.bus := by
  unfold stepAccesses
  cases hm : m.halted with
  | true =>
      rw [step_of_halted hm] at h
      cases h
      exact .refl m.bus
  | false =>
      obtain ⟨-, rfl, hbus⟩ := step_eq_ok hm h
      rw [hbus]
      refine ⟨⟨rfl, rfl⟩, ?_⟩
      rw [map_setting_write, busAfter, Bus.pending_after_eq]
      exact List.append_nil _

theorem conveys_run {budget : ℕ} {run : Run}
    (h : (source processor).run budget m = (.ok run, next)) :
    m.bus.Conveys (runAccesses processor budget m) run.writes next.bus := by
  refine Source.run_induct (source processor)
    (motive := fun budget m result => ∀ run next, result = (.ok run, next) →
      m.bus.Conveys (runAccesses processor budget m) run.writes next.bus)
    ?halted ?timedOut ?fault ?step ?later budget m run next h
  case halted =>
    rintro budget m hm run next ⟨⟩
    rw [runAccesses_of_halted hm]
    exact .refl m.bus
  case timedOut =>
    rintro m _ run next ⟨⟩
    exact .refl m.bus
  case fault => rintro budget m fault next _ _ run last ⟨⟩
  case step =>
    rintro budget m writes next rest last _ hstep ih run last' ⟨⟩
    rw [runAccesses_succ_of_ok hstep]
    exact (conveys_step hstep).trans (ih rest last rfl)
  case later => rintro budget m writes next fault last _ _ _ run last' ⟨⟩

theorem conveys_grant {request : Request} (hrequest : request.isEnter = false)
    (h : (source processor).grant request m = (.ok writes, next)) :
    m.bus.Conveys (requestAccesses processor request m) writes next.bus := by
  cases request with
  | enter routine => cases hrequest
  | step => exact conveys_step h
  | run budget =>
      rw [Source.grant] at h
      rcases hrun : (source processor).run budget m with ⟨fault | run, last⟩
      · rw [hrun] at h
        cases h
      · rw [hrun] at h
        cases h
        exact conveys_run hrun

/-- What is reported and what waits in the end are what waited in the beginning and what has
been set since. -/
theorem conveys_collect {history : List Request}
    (hhistory : ∀ request ∈ history, request.isEnter = false)
    (h : (source processor).collect history m = .ok writes) :
    m.bus.Conveys (transcript processor history m) writes
      ((source processor).after history m).bus := by
  induction history generalizing m writes with
  | nil =>
      cases h
      exact .refl m.bus
  | cons request rest ih =>
      obtain ⟨hfirst, hothers⟩ := List.forall_mem_cons.mp hhistory
      obtain ⟨first, others, next, hgrant, hrest, rfl⟩ := Source.collect_cons_eq_ok h
      have hnext : ((source processor).grant request m).2 = next := by rw [hgrant]
      rw [transcript, Source.after_cons, hnext]
      exact (conveys_grant hfirst hgrant).trans (ih hothers hrest)

/-- Only the stores of the call are set before the routine begins, and they wait. -/
theorem conveys_enter (processor : Processor ρ) (routine : Routine) (m : Machine ρ) :
    Bus.Conveys { m.bus with pending := #[], fault := none } (callAccesses processor) []
      (enter processor routine m).bus := by
  rw [bus_enter]
  exact .of_after _ (callAccesses processor) _

/-- After a routine is called the stores of the call are reported, with what the instructions
of the routine set. -/
theorem conveys_called (routine : Routine) {history : List Request}
    (hhistory : ∀ request ∈ history, request.isEnter = false)
    (h : (source processor).collect history (enter processor routine m) = .ok writes) :
    Bus.Conveys { m.bus with pending := #[], fault := none }
      (callAccesses processor ++ transcript processor history (enter processor routine m)) writes
      ((source processor).after history (enter processor routine m)).bus :=
  (conveys_enter processor routine m).trans (conveys_collect hhistory h)

end Machine

/-! ## Calls outside the window -/

/-- The return address of a routine is not stored in the window. -/
def Processor.CallsOutside {ρ : Type} (processor : Processor ρ) (window : Option Window) : Prop :=
  ∀ store ∈ processor.callStores, ∀ w ∈ window, ¬ w.Covers store.1.toNat

instance {ρ : Type} (processor : Processor ρ) (window : Option Window) :
    Decidable (processor.CallsOutside window) :=
  List.decidableBAll (fun store : UInt16 × UInt8 => ∀ w ∈ window, ¬ w.Covers store.1.toNat) _

theorem Bus.settings_stores {bus : Bus} {stores : List (UInt16 × UInt8)}
    (h : ∀ store ∈ stores, bus.register? store.1 = none) :
    bus.settings (stores.map fun (address, value) => .store address value) = [] := by
  induction stores generalizing bus with
  | nil => rfl
  | cons store rest ih =>
      obtain ⟨hfirst, hothers⟩ := List.forall_mem_cons.mp h
      have hsetting : bus.setting? (.store store.1 store.2) = none := by
        rw [setting?, hfirst]
        rfl
      have hlayout := SameLayout.respond bus (.store store.1 store.2)
      rw [List.map_cons, settings, hsetting, ih (hlayout.register?_eq ▸ hothers)]
      rfl

namespace Machine

variable {ρ : Type} {processor : Processor ρ} {window : Option Window} {m : Machine ρ}

theorem settings_callAccesses (h : processor.CallsOutside window) {bus : Bus}
    (hwindow : bus.window = window) : bus.settings (callAccesses processor) = [] :=
  Bus.settings_stores fun store hstore =>
    Bus.register?_eq_none fun w hw => h store hstore w (hwindow ▸ hw)

/-- If the return address is not stored in the window, nothing is left from before a routine
was called, and calling it sets nothing. -/
theorem pending_enter (hcall : processor.CallsOutside window) (hwindow : m.bus.window = window)
    (routine : Routine) : (enter processor routine m).bus.pending = #[] := by
  have hbalance := (conveys_enter processor routine m).balance
  rw [settings_callAccesses hcall (by exact hwindow)] at hbalance
  exact Array.toList_eq_nil_iff.mp hbalance

/-- Nothing waits on the bus of a machine that is about to execute an instruction. -/
structure Quiet (window : Option Window) (m : Machine ρ) : Prop where
  window : m.bus.window = window
  pending : m.halted = false → m.bus.pending = #[]

namespace Quiet

theorem enter (hcall : processor.CallsOutside window) (h : m.Quiet window) (routine : Routine) :
    (enter processor routine m).Quiet window where
  window := (recalls_enter routine m).layout.window.trans h.window
  pending _ := pending_enter hcall h.window routine

/-- A step leaves nothing behind, or the machine halts. -/
theorem step (h : m.Quiet window) : (step processor m).2.Quiet window where
  window := (recalls_step rfl).layout.window.trans h.window
  pending hrunning := by
    rcases hstep : Machine.step processor m with ⟨fault | writes, next⟩
    · rw [hstep, (step_eq_error hstep).1] at hrunning
      cases hrunning
    · cases hm : m.halted with
      | true =>
          rw [step_of_halted hm] at hstep
          cases hstep
          rw [step_of_halted hm, hm] at hrunning
          cases hrunning
      | false => rw [(step_eq_ok hm hstep).2.2]

theorem run (h : m.Quiet window) (budget : ℕ) :
    ((source processor).run budget m).2.Quiet window := by
  have hnext : ∀ (s : Machine ρ) result next, Machine.step processor s = (result, next) →
      s.Quiet window → next.Quiet window := by
    intro s result next hstep hs
    exact (congrArg (fun result => result.2.Quiet window) hstep).mp hs.step
  refine Source.run_induct (source processor)
    (motive := fun _ s result => s.Quiet window → result.2.Quiet window)
    ?halted ?timedOut ?fault ?step ?later budget m h
  case halted => exact fun _ _ _ hs => hs
  case timedOut => exact fun _ _ hs => hs
  case fault => exact fun _ s fault next _ hstep hs => hnext s _ next hstep hs
  case step => exact fun _ s writes next _ _ _ hstep ih hs => ih (hnext s _ next hstep hs)
  case later => exact fun _ s writes next _ _ _ hstep ih hs => ih (hnext s _ next hstep hs)

theorem grant (hcall : processor.CallsOutside window) (h : m.Quiet window) (request : Request) :
    ((source processor).grant request m).2.Quiet window := by
  cases request with
  | enter routine => exact h.enter hcall routine
  | step => exact h.step
  | run budget =>
      rw [Source.snd_grant_run]
      exact h.run budget

theorem after (hcall : processor.CallsOutside window) (h : m.Quiet window)
    (history : List Request) : ((source processor).after history m).Quiet window := by
  induction history generalizing m with
  | nil => exact h
  | cons request rest ih => exact ih (h.grant hcall request)

theorem reports_step (h : m.Quiet window) {writes : List Write} {next : Machine ρ}
    (hstep : Machine.step processor m = (.ok writes, next)) :
    writes = (m.bus.settings (stepAccesses processor m)).map (Setting.write m.tick) := by
  unfold stepAccesses
  cases hm : m.halted with
  | true =>
      rw [step_of_halted hm] at hstep
      cases hstep
      rfl
  | false =>
      obtain ⟨-, rfl, -⟩ := step_eq_ok hm hstep
      rw [busAfter, Bus.pending_after_eq, h.pending hm]
      rfl

end Quiet

/-! ## Reports of routines -/

/-- All that an instruction sets is reported with it, unless it faults. -/
theorem pending_step {writes : List Write} {next : Machine ρ} (h : m.bus.pending = #[])
    (hstep : step processor m = (.ok writes, next)) : next.bus.pending = #[] := by
  cases hm : m.halted with
  | true =>
      rw [step_of_halted hm] at hstep
      cases hstep
      exact h
  | false => rw [(step_eq_ok hm hstep).2.2]

theorem pending_grant {request : Request} {writes : List Write} {next : Machine ρ}
    (hrequest : request.isEnter = false) (h : m.bus.pending = #[])
    (hgrant : (source processor).grant request m = (.ok writes, next)) :
    next.bus.pending = #[] := by
  cases request with
  | enter routine => cases hrequest
  | step => exact pending_step h hgrant
  | run budget =>
      rw [Source.grant] at hgrant
      rcases hrun : (source processor).run budget m with ⟨fault | run, last⟩
      · rw [hrun] at hgrant
        cases hgrant
      · rw [hrun] at hgrant
        cases hgrant
        refine Source.run_ok_induct
          (motive := fun s _ last => s.bus.pending = #[] → last.bus.pending = #[])
          (fun _ hs => hs) ?_ hrun h
        exact fun s writes next _ _ _ hstep ih hs => ih (pending_step hs hstep)

theorem pending_after_of_collect {history : List Request} {writes : List Write}
    (hhistory : ∀ request ∈ history, request.isEnter = false) (h : m.bus.pending = #[])
    (hcollect : (source processor).collect history m = .ok writes) :
    ((source processor).after history m).bus.pending = #[] := by
  induction history generalizing m writes with
  | nil => exact h
  | cons request rest ih =>
      obtain ⟨hfirst, hothers⟩ := List.forall_mem_cons.mp hhistory
      obtain ⟨first, others, next, hgrant, hrest, -⟩ := Source.collect_cons_eq_ok hcollect
      rw [Source.after_cons, hgrant]
      exact ih hothers (pending_grant hfirst h hgrant) hrest

theorem halted_of_grant_error {request : Request} {fault : Fault} {next : Machine ρ}
    (h : (source processor).grant request m = (.error fault, next)) : next.halted = true := by
  cases request with
  | enter routine => cases h
  | step => exact (step_eq_error h).1
  | run budget =>
      rw [Source.grant] at h
      rcases hrun : (source processor).run budget m with ⟨fault' | run, last⟩
      · rw [hrun] at h
        cases h
        obtain ⟨_, _, _, _, _, hstep⟩ := Source.exists_step_of_run_error hrun
        exact (step_eq_error hstep).1
      · rw [hrun] at h
        cases h

/-- A routine reports what its instructions set. -/
theorem reports_called (hcall : processor.CallsOutside window) (hwindow : m.bus.window = window)
    (routine : Routine) {history : List Request}
    (hhistory : ∀ request ∈ history, request.isEnter = false) {writes : List Write}
    (hcollect : (source processor).collect history (enter processor routine m) = .ok writes) :
    writes.map Write.setting = (enter processor routine m).bus.settings
      (transcript processor history (enter processor routine m)) := by
  have hstart := pending_enter hcall hwindow routine
  have hbalance := (conveys_collect hhistory hcollect).balance
  rw [hstart, pending_after_of_collect hhistory hstart hcollect, List.append_nil] at hbalance
  exact hbalance

/-- Whatever a machine has been asked, and whatever has timed out or faulted on the way, nothing
that was set before a routine is called is reported after it; what is reported or waits then
was set by the call and by the instructions that are executed.  After a fault nothing is
reported until a routine is called.

If the return address is not stored in the window, a step reports exactly what the instruction
that it executes sets, in order, and a routine what its instructions set. -/
theorem reports_after (processor : Processor ρ) (memory : Memory) (window : Option Window)
    (loads : WindowLoads) (ports : Option PortMap) (entry : Entry) (history : List Request) :
    let m := (source processor).after history
      (powerOn processor (Bus.powerOn memory window loads ports) entry)
    (∀ routine (later : List Request), (∀ request ∈ later, request.isEnter = false) →
      ∀ writes, (source processor).collect later (enter processor routine m) = .ok writes →
        writes.map Write.setting ++
            ((source processor).after later (enter processor routine m)).bus.pending.toList =
          m.bus.settings (callAccesses processor ++
            transcript processor later (enter processor routine m))) ∧
    (∀ request fault next, (source processor).grant request m = (.error fault, next) →
      ∀ later : List Request, (∀ request ∈ later, request.isEnter = false) →
        (source processor).collect later next = .ok []) ∧
    (processor.CallsOutside window →
      (∀ writes next, step processor m = (.ok writes, next) →
        writes = (m.bus.settings (stepAccesses processor m)).map (Setting.write m.tick)) ∧
      ∀ routine (later : List Request), (∀ request ∈ later, request.isEnter = false) →
        ∀ writes, (source processor).collect later (enter processor routine m) = .ok writes →
          writes.map Write.setting = (enter processor routine m).bus.settings
            (transcript processor later (enter processor routine m))) := by
  intro m
  refine ⟨?balance, ?faulted, fun hcall => ?outside⟩
  case balance =>
    intro routine later hlater writes hcollect
    have hcleared : Bus.SetsAlike { m.bus with pending := #[], fault := none } m.bus := ⟨rfl, rfl⟩
    refine (conveys_called routine hlater hcollect).balance.trans ?_
    rw [hcleared.settings_eq]
    rfl
  case faulted =>
    intro request fault next hgrant later hlater
    exact (collect_of_halted (halted_of_grant_error hgrant) hlater).1
  case outside =>
    have hquiet : m.Quiet window := Quiet.after hcall ⟨rfl, fun _ => rfl⟩ history
    refine ⟨fun writes next hstep => hquiet.reports_step hstep, ?_⟩
    exact fun routine later hlater writes hcollect =>
      reports_called hcall hquiet.window routine hlater hcollect

/-- The first routine faults in an instruction that has set a register by then.  This is not
reported by further steps, nor when the second routine is called, which sets the same
register. -/
theorem reports_after_faulted :
    let memory : Memory :=
      ⟨⟨#[0, 0x22, 0x00, 0x80, 0x3E, 0x0F, 0x32, 0x00, 0x80, 0xC9, 0, 0, 0, 0, 0, 0]⟩⟩
    let processor := Z80.processor 16
    let start := powerOn processor
      (Bus.powerOn memory (some ⟨0x8000, 1⟩) .memory (some .zx128)) ⟨1, 4, 0⟩
    let faulted := (source processor).after [.enter .init, .step] start
    let called := enter processor .frame faulted
    processor.CallsOutside (some ⟨0x8000, 1⟩) ∧ faulted.bus.pending = #[⟨0, 0⟩] ∧
      (source processor).collect [.step, .run 5] faulted = .ok [] ∧
      (source processor).collect [.run 5] called = .ok [⟨0, 0x0F, 1⟩] ∧
      called.bus.settings (transcript processor [.run 5] called) = [⟨0, 0x0F⟩] := by
  intro memory processor start faulted called
  have hcall : processor.CallsOutside (some ⟨0x8000, 1⟩) := by decide
  have hfault : (step processor ((source processor).after [.enter .init] start)).1 =
      .error (.processorAddress ⟨0x8001⟩) := by decide +kernel
  have hcollect : (source processor).collect [.run 5] called = .ok [⟨0, 0x0F, 1⟩] := by
    decide +kernel
  obtain ⟨-, hfaulted, -⟩ := reports_after processor memory (some ⟨0x8000, 1⟩) .memory
    (some .zx128) ⟨1, 4, 0⟩ [.enter .init]
  obtain ⟨-, -, houtside⟩ := reports_after processor memory (some ⟨0x8000, 1⟩) .memory
    (some .zx128) ⟨1, 4, 0⟩ [.enter .init, .step]
  refine ⟨hcall, by decide +kernel, ?_, hcollect, ?_⟩
  · exact hfaulted .step _ faulted (Prod.ext hfault rfl) [.step, .run 5] (by decide)
  · exact ((houtside hcall).2 .frame [.run 5] (by decide) _ hcollect).symm

/-- A window over the stack has the return address reported as if the instruction at `1`, which
does nothing, had set two registers. -/
theorem step_reports_call_of_stack_in_window :
    let start := powerOn Mos6502.processor
      (Bus.powerOn ⟨⟨#[0, 0xEA]⟩⟩ (some ⟨0x01F8, 8⟩) .registers none) ⟨1, 1, 0⟩
    let m := (source Mos6502.processor).after [.enter .frame] start
    m.bus.settings (stepAccesses Mos6502.processor m) = [] ∧
      (step Mos6502.processor m).1 = .ok [⟨7, 0xFF, 0⟩, ⟨6, 0xFF, 0⟩] := by
  decide +kernel

end Machine

end Chiptune
