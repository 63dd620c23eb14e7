import Chiptune.Proofs.Replay.Halting

/-!
# Histories of a source

A source may be entered, stepped and run in any order and at any time, and a fault
does not keep its caller from asking for more.  `Source.after` is the state that a
history of requests leads to, and `Source.collect` are the writes that it reports if
nothing in it faults.

A run is nothing new: it takes steps, as many as there are before the source halts, and
reports what these report (`Source.run_induct`, `Source.exists_step_of_run_error`).
-/

namespace Chiptune

/-- What may be asked of a source. -/
inductive Request where
  | enter (routine : Routine)
  | step
  | run (budget : ℕ)
  deriving DecidableEq

def Request.isEnter : Request → Bool
  | .enter _ => true
  | .step => false
  | .run _ => false

namespace Source

variable {σ : Type} (source : Source σ)

/-- Grants a request and gives the writes that were reported. -/
def grant : Request → σ → Except Fault (List Write) × σ
  | .enter routine, s => (.ok [], source.enter routine s)
  | .step, s => source.step s
  | .run budget, s =>
    match source.run budget s with
    | (.ok run, s) => (.ok run.writes, s)
    | (.error fault, s) => (.error fault, s)

/-- The state after a history of requests, whether they fault or not. -/
def after (history : List Request) (s : σ) : σ :=
  history.foldl (fun s request => (source.grant request s).2) s

/-- All writes that a history of requests reports, or its first fault. -/
def collect : List Request → σ → Except Fault (List Write)
  | [], _ => .ok []
  | request :: rest, s =>
    match source.grant request s with
    | (.error fault, _) => .error fault
    | (.ok writes, s) => (collect rest s).map (writes ++ ·)

variable {source}

theorem after_cons (request : Request) (rest : List Request) (s : σ) :
    source.after (request :: rest) s = source.after rest (source.grant request s).2 :=
  rfl

theorem after_append (history more : List Request) (s : σ) :
    source.after (history ++ more) s = source.after more (source.after history s) :=
  List.foldl_append

theorem snd_grant_run (budget : ℕ) (s : σ) :
    (source.grant (.run budget) s).2 = (source.run budget s).2 := by
  rw [grant]
  rcases source.run budget s with ⟨fault | run, next⟩ <;> rfl

theorem snd_run_zero (s : σ) : (source.run 0 s).2 = s := by
  cases hs : source.halted s with
  | true => rw [source.run_of_halted hs]
  | false => rw [source.run_zero hs]

theorem collect_cons_eq_ok {request : Request} {rest : List Request} {s : σ}
    {writes : List Write} (h : source.collect (request :: rest) s = .ok writes) :
    ∃ first others next, source.grant request s = (.ok first, next) ∧
      source.collect rest next = .ok others ∧ writes = first ++ others := by
  rw [collect] at h
  rcases hgrant : source.grant request s with ⟨fault | first, next⟩
  · rw [hgrant] at h
    cases h
  · rw [hgrant] at h
    rcases hrest : source.collect rest next with fault | others
    · simp only [hrest] at h
      cases h
    · simp only [hrest] at h
      cases h
      exact ⟨first, others, next, rfl, hrest, rfl⟩

theorem collect_cons_of_ok {request : Request} {rest : List Request} {s next : σ}
    {first others : List Write} (hgrant : source.grant request s = (.ok first, next))
    (hrest : source.collect rest next = .ok others) :
    source.collect (request :: rest) s = .ok (first ++ others) := by
  rw [collect, hgrant]
  simp only [hrest]
  rfl

/-! ## Runs are steps -/

/-- A run halts, is out of steps, faults in its first step, or goes on after it. -/
theorem run_induct (source : Source σ) {motive : ℕ → σ → Except Fault Run × σ → Prop}
    (hhalted : ∀ budget s, source.halted s = true → motive budget s (.ok ⟨[], 0, .halted⟩, s))
    (htimedOut : ∀ s, source.halted s = false → motive 0 s (.ok ⟨[], 0, .timedOut⟩, s))
    (hfault : ∀ budget s fault next, source.halted s = false →
      source.step s = (.error fault, next) → motive (budget + 1) s (.error fault, next))
    (hstep : ∀ budget s writes next run last, source.halted s = false →
      source.step s = (.ok writes, next) → motive budget next (.ok run, last) →
        motive (budget + 1) s (.ok ⟨writes ++ run.writes, 1 + run.steps, run.outcome⟩, last))
    (hlater : ∀ budget s writes next fault last, source.halted s = false →
      source.step s = (.ok writes, next) → motive budget next (.error fault, last) →
        motive (budget + 1) s (.error fault, last))
    (budget : ℕ) (s : σ) : motive budget s (source.run budget s) := by
  induction budget generalizing s with
  | zero =>
      cases hs : source.halted s with
      | true =>
          rw [source.run_of_halted hs]
          exact hhalted 0 s hs
      | false =>
          rw [source.run_zero hs]
          exact htimedOut s hs
  | succ budget ih =>
      cases hs : source.halted s with
      | true =>
          rw [source.run_of_halted hs]
          exact hhalted (budget + 1) s hs
      | false =>
          rcases hresult : source.step s with ⟨fault | writes, next⟩
          · rw [source.run_succ_of_step_error hs hresult]
            exact hfault budget s fault next hs hresult
          · have hrest := ih next
            rw [source.run_succ_of_step_ok hs hresult]
            rcases hrun : source.run budget next with ⟨fault | run, last⟩
            · rw [hrun] at hrest
              exact hlater budget s writes next fault last hs hresult hrest
            · rw [hrun] at hrest
              exact hstep budget s writes next run last hs hresult hrest

/-- What a run that does not fault does is built up from its last step to its first. -/
theorem run_ok_induct {motive : σ → List Write → σ → Prop} (hdone : ∀ s, motive s [] s)
    (hstep : ∀ s writes next rest last, source.halted s = false →
      source.step s = (.ok writes, next) → motive next rest last →
        motive s (writes ++ rest) last)
    {budget : ℕ} {s last : σ} {run : Run} (h : source.run budget s = (.ok run, last)) :
    motive s run.writes last := by
  refine run_induct source
    (motive := fun _ s result => ∀ run last, result = (.ok run, last) → motive s run.writes last)
    ?halted ?timedOut ?fault ?step ?later budget s run last h
  case halted =>
    rintro _ s _ run last ⟨⟩
    exact hdone s
  case timedOut =>
    rintro s _ run last ⟨⟩
    exact hdone s
  case fault => nofun
  case step =>
    rintro _ s writes next rest last hrunning hresult ih run last' ⟨⟩
    exact hstep s writes next rest.writes last hrunning hresult (ih rest last rfl)
  case later => nofun

/-- What every step keeps is kept by a run, whether it faults or not. -/
theorem run_invariant {Inv : σ → Prop} (hstep : ∀ s, Inv s → Inv (source.step s).2)
    (budget : ℕ) {s : σ} (hs : Inv s) : Inv (source.run budget s).2 := by
  have hnext : ∀ {s result next}, Inv s → source.step s = (result, next) → Inv next := by
    intro s result next hs hresult
    have hkept := hstep s hs
    rwa [hresult] at hkept
  refine run_induct source (motive := fun _ s result => Inv s → Inv result.2)
    ?halted ?timedOut ?fault ?step ?later budget s hs
  case halted => exact fun _ _ _ hs => hs
  case timedOut => exact fun _ _ hs => hs
  case fault => exact fun _ _ _ _ _ hresult hs => hnext hs hresult
  case step => exact fun _ _ _ _ _ _ _ hresult ih hs => ih (hnext hs hresult)
  case later => exact fun _ _ _ _ _ _ _ hresult ih hs => ih (hnext hs hresult)

/-- What every entry and every step keeps holds after any history. -/
theorem after_invariant (Inv : σ → Prop)
    (henter : ∀ routine s, Inv s → Inv (source.enter routine s))
    (hstep : ∀ s, Inv s → Inv (source.step s).2) (history : List Request) {s : σ} (hs : Inv s) :
    Inv (source.after history s) := by
  induction history generalizing s with
  | nil => exact hs
  | cons request rest ih =>
      rw [after_cons]
      refine ih ?_
      cases request with
      | enter routine => exact henter routine s hs
      | step => exact hstep s hs
      | run budget =>
          rw [snd_grant_run]
          exact run_invariant hstep budget hs

/-- The fault of a run is that of a step that it takes. -/
theorem exists_step_of_run_error {budget : ℕ} {s last : σ} {fault : Fault}
    (h : source.run budget s = (.error fault, last)) :
    ∃ count < budget, ∃ before, source.after (List.replicate count .step) s = before ∧
      source.halted before = false ∧ source.step before = (.error fault, last) := by
  refine run_induct source
    (motive := fun budget s result => ∀ fault last, result = (.error fault, last) →
      ∃ count < budget, ∃ before, source.after (List.replicate count .step) s = before ∧
        source.halted before = false ∧ source.step before = (.error fault, last))
    ?halted ?timedOut ?fault ?step ?later budget s fault last h
  case halted => nofun
  case timedOut => nofun
  case fault =>
    rintro budget s fault next hrunning hresult fault' last ⟨⟩
    exact ⟨0, Nat.succ_pos budget, s, rfl, hrunning, hresult⟩
  case step => nofun
  case later =>
    rintro budget s writes next fault last _ hresult ih fault' last' ⟨⟩
    obtain ⟨count, hcount, before, hbefore, hlast⟩ := ih fault last rfl
    refine ⟨count + 1, Nat.succ_lt_succ hcount, before, ?_, hlast⟩
    rw [List.replicate_succ, after_cons, ← hbefore]
    exact congrArg (fun result => source.after _ result.2) hresult

end Source

end Chiptune
