import Mathlib

/-!
# Histories

A log of what happened, oldest first, each event judged against those before it.
-/

namespace Redoubt.History

open List

variable {α : Type} {ok : List α → α → Prop} {log : List α}

/-- Every event was in order, given its past. -/
def Chronicle (ok : List α → α → Prop) (log : List α) : Prop :=
  ∀ past event future, log = past ++ event :: future → ok past event

theorem chronicle_nil : Chronicle ok [] := by
  intro past event future heq
  exact absurd heq.symm (by simp)

/-- One more event, in order after all the others. -/
theorem Chronicle.snoc (hlog : Chronicle ok log) {event : α} (hok : ok log event) :
    Chronicle ok (log ++ [event]) := by
  intro past event' future heq
  cases future using reverseRecOn with
  | nil =>
    obtain ⟨rfl, hevent⟩ := append_inj' heq rfl
    cases hevent
    exact hok
  | append_singleton future last =>
    rw [← cons_append, ← append_assoc] at heq
    exact hlog past event' future (append_inj' heq rfl).1

/-- More events, in order whatever came before. -/
theorem Chronicle.extend (hlog : Chronicle ok log) {events : List α}
    (hok : ∀ e ∈ events, ∀ past, ok past e) :
    Chronicle ok (log ++ events) := by
  induction events generalizing log with
  | nil =>
    rw [append_nil]
    exact hlog
  | cons e events ih =>
    rw [append_cons]
    exact ih (hlog.snoc (hok e mem_cons_self log)) fun e' he' =>
      hok e' (mem_cons_of_mem e he')

theorem Chronicle.mono {ok' : List α → α → Prop} (hlog : Chronicle ok log)
    (himp : ∀ past e, ok past e → ok' past e) :
    Chronicle ok' log :=
  fun past e future heq => himp past e (hlog past e future heq)

end Redoubt.History
