import Mathlib.Tactic.SplitIfs

/-!
# Labelled transition systems

Runs of a system whose steps are labelled by actions, the states they reach, and the
invariant rules. Nothing here refers to a particular system.
-/
namespace GatOS.Transition

structure System (S A : Type*) where
  init : S → Prop
  step : S → A → S → Prop

namespace System

variable {S A : Type*} (M : System S A)

/-- A run from `s` to `t` that performs the listed actions in order. -/
inductive Path : S → List A → S → Prop
  | nil (s) : Path s [] s
  | cons {s t u a as} : M.step s a t → Path t as u → Path s (a :: as) u

inductive Reachable : S → Prop
  | start {s} : M.init s → Reachable s
  | next {s t a} : Reachable s → M.step s a t → Reachable t

/-- The runs of `M` all of whose steps meet `ok`, a condition on the state before the step. -/
def restrict (ok : S → A → Prop) : System S A where
  init := M.init
  step s a t := ok s a ∧ M.step s a t

variable {M}

theorem Path.append {s t u : S} {as bs : List A} (h : M.Path s as t) (g : M.Path t bs u) :
    M.Path s (as ++ bs) u := by
  induction h with
  | nil => exact g
  | cons hs _ ih => exact Path.cons hs (ih g)

theorem Path.split {s u : S} {as bs : List A} (h : M.Path s (as ++ bs) u) :
    ∃ t, M.Path s as t ∧ M.Path t bs u := by
  induction as generalizing s with
  | nil => exact ⟨s, .nil s, h⟩
  | cons a as ih =>
    cases h with
    | cons hstep hrest =>
      obtain ⟨t, hfirst, hlast⟩ := ih hrest
      exact ⟨t, .cons hstep hfirst, hlast⟩

theorem Path.reachable {s t : S} {as : List A} (h : M.Path s as t) (hs : M.Reachable s) :
    M.Reachable t := by
  induction h with
  | nil => exact hs
  | cons hstep _ ih => exact ih (hs.next hstep)

theorem Path.invariant {I : S → Prop} (hstep : ∀ s a t, I s → M.step s a t → I t) {s t : S}
    {as : List A} (h : M.Path s as t) (hs : I s) : I t := by
  induction h with
  | nil => exact hs
  | cons hs' _ ih => exact ih (hstep _ _ _ hs hs')

/-- What holds at the start and is preserved by every step holds in every reachable state. -/
theorem Reachable.invariant {I : S → Prop} (hinit : ∀ s, M.init s → I s)
    (hstep : ∀ s a t, I s → M.step s a t → I t) {s : S} (h : M.Reachable s) : I s := by
  induction h with
  | start hi => exact hinit _ hi
  | next _ hs ih => exact hstep _ _ _ ih hs

theorem Reachable.of_restrict {ok : S → A → Prop} {s : S} (h : (M.restrict ok).Reachable s) :
    M.Reachable s := by
  induction h with
  | start hi => exact Reachable.start hi
  | next _ hs ih => exact ih.next hs.2

theorem Path.of_restrict {ok : S → A → Prop} {s t : S} {as : List A}
    (h : (M.restrict ok).Path s as t) : M.Path s as t := by
  induction h with
  | nil => exact Path.nil _
  | cons hstep _ ih => exact Path.cons hstep.2 ih

/-- A path all of whose actions are allowed in every state. -/
theorem Path.restrict {ok : S → A → Prop} {s t : S} {as : List A} (h : M.Path s as t)
    (hok : ∀ a ∈ as, ∀ s, ok s a) : (M.restrict ok).Path s as t := by
  induction h with
  | nil => exact Path.nil _
  | cons hstep _ ih =>
    exact Path.cons ⟨hok _ List.mem_cons_self _, hstep⟩
      (ih fun a ha => hok a (List.mem_cons_of_mem _ ha))

/-- Each step is matched by a step of the other system, so each run is. -/
theorem Path.simulates {T : Type*} {N : System T A} {R : S → T → Prop}
    (hstep : ∀ s t a s', R s t → M.step s a s' → ∃ t', N.step t a t' ∧ R s' t')
    {s s' : S} {t : T} {as : List A} (h : M.Path s as s') (hR : R s t) :
    ∃ t', N.Path t as t' ∧ R s' t' := by
  induction h generalizing t with
  | nil => exact ⟨t, Path.nil t, hR⟩
  | cons hs _ ih =>
    obtain ⟨u, hu, hRu⟩ := hstep _ _ _ _ hR hs
    obtain ⟨t', ht', hRt'⟩ := ih hRu
    exact ⟨t', Path.cons hu ht', hRt'⟩

/-- Steps that meet the weaker condition can replace steps that meet the stronger one. -/
theorem Reachable.restrict_mono {ok ok' : S → A → Prop}
    (himp : ∀ s a, M.Reachable s → ok s a → ok' s a) {s : S}
    (h : (M.restrict ok).Reachable s) : (M.restrict ok').Reachable s := by
  induction h with
  | start hi => exact Reachable.start hi
  | next hr hs ih => exact ih.next ⟨himp _ _ hr.of_restrict hs.1, hs.2⟩

end System

/-- The system of an executable step function: `none` marks an action that is not
possible in the state, or that never comes to an end. -/
def ofStep {S A : Type*} (init : S → Prop) (step : S → A → Option S) : System S A where
  init := init
  step s a t := step s a = some t

section Executable

variable {S A : Type*} (init : S → Prop) {step : S → A → Option S}

/-- Perform the listed actions in order. -/
def execute (step : S → A → Option S) (s : S) (as : List A) : Option S := as.foldlM step s

theorem path_of_execute {s t : S} {as : List A} (h : execute step s as = some t) :
    (ofStep init step).Path s as t := by
  induction as generalizing s with
  | nil =>
    obtain rfl : s = t := by simpa [execute] using h
    exact System.Path.nil s
  | cons a as ih =>
    simp only [execute, List.foldlM_cons, Option.bind_eq_bind, Option.bind_eq_some_iff] at h
    obtain ⟨u, hu, hrest⟩ := h
    exact System.Path.cons hu (ih hrest)

theorem execute_concat (s : S) (as : List A) (a : A) :
    execute step s (as ++ [a]) = (execute step s as).bind fun t => step t a := by
  simp only [execute, List.foldlM_append, Option.bind_eq_bind, List.foldlM_cons, List.foldlM_nil]
  congr 1
  funext t
  cases step t a <;> rfl

/-- The final state of an executed list of actions is reachable. -/
theorem reachable_of_execute {s t : S} {as : List A} (hs : init s)
    (h : execute step s as = some t) : (ofStep init step).Reachable t :=
  (path_of_execute init h).reachable (System.Reachable.start hs)

/-- Replay a list of actions and observe the final state. -/
theorem exists_path_of_execute {B : Type*} {f : S → B} {s : S} {as : List A} {b : B}
    (h : (execute step s as).map f = some b) : ∃ t, (ofStep init step).Path s as t ∧ f t = b := by
  obtain ⟨t, ht, hb⟩ := Option.map_eq_some_iff.mp h
  exact ⟨t, path_of_execute init ht, hb⟩

/-- A condition that can be evaluated is checked while the actions are performed. -/
def guarded (ok : S → A → Prop) [∀ s a, Decidable (ok s a)] (step : S → A → Option S) (s : S)
    (a : A) : Option S :=
  if ok s a then step s a else none

section Guarded

variable {ok : S → A → Prop} [∀ s a, Decidable (ok s a)] {s t : S}

theorem step_of_guarded {a : A} (h : guarded ok step s a = some t) :
    ((ofStep init step).restrict ok).step s a t := by
  unfold guarded at h
  split_ifs at h with hok
  exact ⟨hok, h⟩

theorem path_restrict_of_execute {as : List A} (h : execute (guarded ok step) s as = some t) :
    ((ofStep init step).restrict ok).Path s as t := by
  have hpath := path_of_execute init h
  clear h
  induction hpath with
  | nil => exact System.Path.nil _
  | cons hstep _ ih => exact System.Path.cons (step_of_guarded init hstep) ih

theorem reachable_restrict_of_execute {B : Type*} {f : S → B} {as : List A} {b : B} (hs : init s)
    (h : (execute (guarded ok step) s as).map f = some b) :
    ∃ t, ((ofStep init step).restrict ok).Reachable t ∧ f t = b := by
  obtain ⟨t, ht, hb⟩ := Option.map_eq_some_iff.mp h
  exact ⟨t, (path_restrict_of_execute init ht).reachable (System.Reachable.start hs), hb⟩

end Guarded

end Executable

end GatOS.Transition
