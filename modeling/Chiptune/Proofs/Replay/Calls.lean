import Chiptune.Replay.Source
import Mathlib.Data.List.Basic

/-!
# Calls to a source

`Source.run` enters no routine and steps until the current one is over, but nothing
keeps a caller from stepping further, or from entering a routine at any time.  Here
are all the ways of using a source: it is called again and again, and reports the
writes of every call (`Source.answerAll`).

What holds of calls one by one holds of all of them: an invariant of the states goes
through (`Source.answerAll_invariant`), and so does a translation of states and
reports (`Source.answerAll_translate`).
-/

namespace Chiptune

/-- What may be asked of a source. -/
inductive Call where
  | enter (routine : Routine)
  | step
  deriving DecidableEq

namespace Source

variable {σ τ : Type} (source : Source σ)

/-- Answers a call with the writes that were made. -/
def answer : Call → σ → Except Fault (List Write) × σ
  | .enter routine, s => (.ok [], source.enter routine s)
  | .step, s => source.step s

/-- Answers calls one after the other, up to the first one that faults, with the
writes of each of them. -/
def answerAll : List Call → σ → Except Fault (List (List Write)) × σ
  | [], s => (.ok [], s)
  | call :: rest, s =>
    match source.answer call s with
    | (.error fault, s) => (.error fault, s)
    | (.ok writes, s) =>
      match answerAll rest s with
      | (.error fault, s) => (.error fault, s)
      | (.ok reports, s) => (.ok (writes :: reports), s)

variable {source} {calls : List Call} {s last : σ} {reports : List (List Write)}

/-- The first call of several, and the others after it. -/
theorem answerAll_cons_eq_ok {call : Call}
    (h : source.answerAll (call :: calls) s = (.ok reports, last)) :
    ∃ writes next rest, source.answer call s = (.ok writes, next) ∧
      source.answerAll calls next = (.ok rest, last) ∧ reports = writes :: rest := by
  rw [answerAll] at h
  rcases hcall : source.answer call s with ⟨fault | writes, next⟩
  · rw [hcall] at h
    cases h
  · rw [hcall] at h
    rcases hrest : source.answerAll calls next with ⟨fault | rest, last'⟩
    · simp only [hrest] at h
      cases h
    · simp only [hrest] at h
      cases h
      exact ⟨writes, next, rest, rfl, hrest, rfl⟩

theorem answerAll_cons_of_ok {call : Call} {next : σ} {writes : List Write}
    {rest : List (List Write)} (hcall : source.answer call s = (.ok writes, next))
    (hrest : source.answerAll calls next = (.ok rest, last)) :
    source.answerAll (call :: calls) s = (.ok (writes :: rest), last) := by
  rw [answerAll, hcall]
  simp only [hrest]

/-- An invariant that every call keeps is kept by all calls, and what it implies of the
report of a call is true of all reports. -/
theorem answerAll_invariant (Inv : σ → Prop) (Good : List Write → Prop)
    (hkept : ∀ call ∈ calls, ∀ s writes next, Inv s →
      source.answer call s = (.ok writes, next) → Inv next ∧ Good writes)
    (hs : Inv s) (h : source.answerAll calls s = (.ok reports, last)) :
    Inv last ∧ ∀ report ∈ reports, Good report := by
  induction calls generalizing s reports with
  | nil =>
      cases h
      exact ⟨hs, fun _ hreport => absurd hreport List.not_mem_nil⟩
  | cons call rest ih =>
      obtain ⟨hfirst, hothers⟩ := List.forall_mem_cons.mp hkept
      obtain ⟨writes, next, reports, hcall, hrest, rfl⟩ := answerAll_cons_eq_ok h
      obtain ⟨hnext, hgood⟩ := hfirst s writes next hs hcall
      obtain ⟨hlast, hall⟩ := ih hothers hnext hrest
      exact ⟨hlast, List.forall_mem_cons.mpr ⟨hgood, hall⟩⟩

/-- A source that answers every call of another one in translation does so for all
calls, as long as the states keep an invariant. -/
theorem answerAll_translate (other : Source τ) (Inv : σ → Prop) (state : σ → τ)
    (report : List Write → List Write)
    (htranslate : ∀ call ∈ calls, ∀ s writes next, Inv s →
      source.answer call s = (.ok writes, next) →
        Inv next ∧ other.answer call (state s) = (.ok (report writes), state next))
    (hs : Inv s) (h : source.answerAll calls s = (.ok reports, last)) :
    other.answerAll calls (state s) = (.ok (reports.map report), state last) := by
  induction calls generalizing s reports with
  | nil =>
      cases h
      rfl
  | cons call rest ih =>
      obtain ⟨hfirst, hothers⟩ := List.forall_mem_cons.mp htranslate
      obtain ⟨writes, next, reports, hcall, hrest, rfl⟩ := answerAll_cons_eq_ok h
      obtain ⟨hnext, hother⟩ := hfirst s writes next hs hcall
      exact answerAll_cons_of_ok hother (ih hothers hnext hrest)

end Source

end Chiptune
