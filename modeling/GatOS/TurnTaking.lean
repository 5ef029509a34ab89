import Mathlib.Data.List.Rotate

/-!
# Taking turns

A step serves the first one of a queue and puts it at the end. After as many steps as the queue is
long everybody was served once.
-/
namespace GatOS.TurnTaking

variable {σ α : Type*}

/-- Who is served in `k` steps, with the state after them. -/
def serve (step : σ → Option σ) (served : σ → α) : ℕ → σ → Option (List α × σ)
  | 0, s => some ([], s)
  | k + 1, s => (step s).bind fun t => (serve step served k t).map fun r => (served t :: r.1, r.2)

/-- What a step does in the states `I`. -/
def TakesTurns (step : σ → Option σ) (served : σ → α) (queue : σ → List α) (I : σ → Prop) : Prop :=
  ∀ s, I s → ∃ t l, step s = some t ∧ I t ∧ queue s = served t :: l ∧ queue t = l ++ [served t]

variable {step : σ → Option σ} {served : σ → α} {queue : σ → List α} {I : σ → Prop}

/-- The first `k` ones of the queue are served, in its order. -/
theorem TakesTurns.serve_take (h : TakesTurns step served queue I) {k : ℕ} {s : σ} (hs : I s)
    (hk : k ≤ (queue s).length) :
    ∃ t, serve step served k s = some ((queue s).take k, t) ∧ I t ∧
      queue t = (queue s).rotate k := by
  induction k generalizing s with
  | zero => exact ⟨s, by simp [serve], hs, by simp⟩
  | succ k ih =>
    obtain ⟨t, l, hstep, ht, hqueue, hqueue'⟩ := h s hs
    have hl : k ≤ l.length := by
      rw [hqueue] at hk
      simpa using hk
    have hk' : k ≤ (queue t).length := by
      rw [hqueue', List.length_append]
      omega
    obtain ⟨u, hserve, hu, hrotate⟩ := ih ht hk'
    refine ⟨u, ?_, hu, ?_⟩
    · simp only [serve, hstep, Option.bind_some, hserve, Option.map_some, hqueue,
        List.take_succ_cons]
      rw [hqueue', List.take_append_of_le_length hl]
    · rw [hrotate, hqueue', hqueue, List.rotate_cons_succ]

theorem TakesTurns.serve_round (h : TakesTurns step served queue I) {s : σ} (hs : I s) :
    ∃ t, serve step served (queue s).length s = some (queue s, t) ∧ I t ∧ queue t = queue s := by
  obtain ⟨t, hserve, ht, hrotate⟩ := h.serve_take hs le_rfl
  exact ⟨t, by rw [hserve, List.take_length], ht, by rw [hrotate, List.rotate_length]⟩

end GatOS.TurnTaking
