import GatOS.MutexFrame

/-!
# The life cycle of mutexes and semaphores

`closeMutex` and `semClose` clear only the field `used`, `createMutex` and `createSemaphore` set
only some of the fields. A slot is as good as new only if it was left unlocked and without
waiters.
-/
namespace GatOS.Sync
open Scheduler Transition

/-- Unlocked, with an empty queue. -/
def CleanMutex (k : Kernel) (i : ℤ) : Prop :=
  (k.mutexes i).mutex = 0 ∧ k.waiters (.mutex i) = []

/-- A call of `wait` on `j` that has not reached the queue yet. -/
def Pending.waitsOn (j : ℤ) : Pending → Bool
  | .locking _ (.wait i) => i = j
  | _ => false

/-- A call of `semCreate` that has reserved slot `j`, but has not filled it. -/
def Pending.creates (j : ℤ) : Pending → Bool
  | .locking _ (.createSemaphore i _ _ _) => i = j
  | _ => false

/-- A process of the ring is suspended in such a call. -/
def Suspended (s : Machine) (f : Pending → Bool) : Prop :=
  ∃ p ∈ pids s.kernel.sched, (s.pending p).any f = true

instance (s : Machine) (f : Pending → Bool) : Decidable (Suspended s f) :=
  inferInstanceAs (Decidable (∃ p ∈ pids s.kernel.sched, (s.pending p).any f = true))

/-- Nobody waits in slot `j`, or is about to. -/
def CleanSemaphore (s : Machine) (j : ℤ) : Prop :=
  s.kernel.waiters (.semaphore j) = [] ∧ ¬ Suspended s (Pending.waitsOn j)

instance (s : Machine) (j : ℤ) : Decidable (CleanSemaphore s j) :=
  inferInstanceAs (Decidable (_ ∧ _))

instance (k : Kernel) (i : ℤ) : Decidable (CleanMutex k i) := inferInstanceAs (Decidable (_ ∧ _))

/-- A mutex is closed only when it is unlocked, a semaphore only when nobody waits on it, and
nobody waits on a semaphore that is still being created. -/
def ClosesIdle (s : Machine) : Action → Prop
  | .closeMutex mutex => isValidMutex mutex s.kernel = true →
      s.pid = (s.kernel.mutexes mutex).pidCreator → CleanMutex s.kernel mutex
  | .semClose j => isValidSemaphore j s.kernel = true →
      s.pid = (s.kernel.semaphores j).pidCreator → CleanSemaphore s j
  | .wait j _ => isValidSemaphore j s.kernel = true → ¬ Suspended s (Pending.creates j)
  | _ => True

instance (s : Machine) : (a : Action) → Decidable (ClosesIdle s a)
  | .closeMutex _ => inferInstanceAs (Decidable (_ → _ → _))
  | .semClose _ => inferInstanceAs (Decidable (_ → _ → _))
  | .wait _ _ => inferInstanceAs (Decidable (_ → _))
  | .tick | .createProcess _ | .removeProcess _ | .lockMutex _ _ | .freeMutex _ | .getMutex _ _
  | .semCreate _ _ _ | .signal _ | .resume _ | .store _ => .isTrue trivial

/-- The slot is not in use, or is being created. -/
def Vacant (s : Machine) (j : ℤ) : Prop :=
  (s.kernel.semaphores j).used = false ∨ Suspended s (Pending.creates j)

structure LifeCycle (s : Machine) : Prop where
  settled : Settled s
  mutexes : ∀ i, (s.kernel.mutexes i).used = false → CleanMutex s.kernel i
  semaphores : ∀ j, Vacant s j → CleanSemaphore s j

/-- What a step leaves in the slots that it takes into use. -/
structure Fresh (s t : Machine) : Prop where
  mutexes : ∀ i, (s.kernel.mutexes i).used = false → CleanMutex t.kernel i
  semaphores : ∀ j, t.ledger.generation j ≠ s.ledger.generation j →
    (t.kernel.semaphores j).semaphore = t.ledger.start j ∧ t.kernel.waiters (.semaphore j) = []

section

variable {k k' k'' : Kernel} {s t u : Machine} {i j m : ℤ}

/-! ### The tables -/

/-- Nothing is taken into use or out of it, and a clean mutex that is not in use stays clean. -/
structure Keeps (k k' : Kernel) : Prop where
  mutexes : ∀ i, (k'.mutexes i).used = (k.mutexes i).used
  semaphores : ∀ j, (k'.semaphores j).used = (k.semaphores j).used
  clean : ∀ i, (k.mutexes i).used = false → CleanMutex k i → CleanMutex k' i

theorem Keeps.trans (h : Keeps k k') (g : Keeps k' k'') : Keeps k k'' :=
  ⟨fun i => (g.mutexes i).trans (h.mutexes i), fun j => (g.semaphores j).trans (h.semaphores j),
    fun i hi hc => g.clean i ((h.mutexes i).trans hi) (h.clean i hi hc)⟩

theorem Keeps.of_mutexes (hmutexes : k'.mutexes = k.mutexes)
    (hsem : ∀ j, (k'.semaphores j).used = (k.semaphores j).used) : Keeps k k' := by
  refine ⟨fun i => by rw [hmutexes], hsem, fun i _ hc => ?_⟩
  rw [CleanMutex, Kernel.waiters, hmutexes]
  exact hc

theorem Keeps.setState (k : Kernel) (pid : ℤ) (state : ProcessState) :
    Keeps k (k.setState pid state) := .of_mutexes rfl fun _ => rfl

theorem Keeps.yield (h : k.yield = some k') : Keeps k k' := by
  obtain ⟨hsem, hmutexes, -, -⟩ := yield_tables h
  exact .of_mutexes hmutexes fun j => by rw [hsem]

theorem Keeps.setSemaphore (k : Kernel) {sem : Semaphore}
    (hused : sem.used = (k.semaphores j).used) : Keeps k (k.setSemaphore j sem) := by
  refine .of_mutexes rfl fun i => ?_
  by_cases hi : i = j
  · rw [hi, Kernel.setSemaphore_self, hused]
  · rw [Kernel.setSemaphore_ne _ _ hi]

theorem isValidMutex_used (h : isValidMutex m k = true) : (k.mutexes m).used = true := by
  unfold isValidMutex at h
  split_ifs at h
  exact h

/-- A change of a mutex that is in use. -/
theorem Keeps.setMutex (hvalid : (k.mutexes m).used = true) {x : Mutex} (hx : x.used = true) :
    Keeps k (k.setMutex m x) := by
  have hne : ∀ i, (k.mutexes i).used = false → i ≠ m := fun i hi he => by
    rw [he, hvalid] at hi
    exact absurd hi (by simp)
  refine ⟨fun i => ?_, fun _ => rfl, fun i hi hc => ?_⟩
  · by_cases him : i = m
    · rw [him, Kernel.setMutex_self, hx, hvalid]
    · rw [Kernel.setMutex_ne _ _ him]
  · rw [CleanMutex, Kernel.waiters, Kernel.setMutex_ne _ _ (hne i hi)]
    exact hc

/-- `freeMutex` changes only a mutex that is in use. -/
theorem Keeps.freeMutex
    (hcard : (k.mutexes m).cardinalBlocked = (waitersOf (k.mutexes m).queue).length)
    (h : Sync.freeMutex m k = some k') : Keeps k k' := by
  rcases freeMutex_cases hcard h with
    ⟨-, rfl⟩ | ⟨hvalid, p, queue, -, rfl⟩ | ⟨hvalid, -, rfl⟩
  · exact .of_mutexes rfl fun _ => rfl
  · have hused := isValidMutex_used hvalid
    exact (Keeps.setState k p .ready).trans (@Keeps.setMutex (k.setState p .ready) m hused _ hused)
  · have hused := isValidMutex_used hvalid
    exact .setMutex hused hused

theorem Keeps.lockMutex {garbage : ℤ} {returned : Bool} (hpid : 0 ≤ k.pid)
    (hcard : (k.mutexes m).cardinalBlocked = (waitersOf (k.mutexes m).queue).length)
    (h : Sync.lockMutex m garbage k = some (returned, k')) : Keeps k k' := by
  rcases lockMutex_cases hpid hcard h with ⟨-, -, rfl⟩ | ⟨hvalid, -, -, -, rfl⟩ |
    ⟨hvalid, -, -, -, queue, -, hy⟩ | ⟨-, -, -, -, hy⟩
  · exact .of_mutexes rfl fun _ => rfl
  · have hused := isValidMutex_used hvalid
    exact .setMutex hused hused
  · have hused := isValidMutex_used hvalid
    refine .trans (.trans ?_ (.setState _ _ _)) (.yield hy)
    exact .setMutex hused hused
  · exact .trans (.setState _ _ _) (.yield hy)

theorem Keeps.waitRest {returned : Bool} (hpid : 0 ≤ k.pid)
    (hcard : ∀ m, (k.mutexes m).cardinalBlocked = (waitersOf (k.mutexes m).queue).length)
    (h : Sync.waitRest j k = some (returned, k')) : Keeps k k' := by
  rcases waitRest_cases hpid h with
    ⟨-, -, hf⟩ | ⟨-, -, -, queue, k₁, -, hf, hy⟩ | ⟨-, -, -, k₁, hf, hy⟩
  · refine .trans ?_ (.freeMutex (by exact hcard _) hf)
    exact .setSemaphore k rfl
  · refine .trans (.trans (.trans ?_ (.setState _ _ _)) (.freeMutex (by exact hcard _) hf)) (.yield hy)
    exact .setSemaphore k rfl
  · refine .trans (.trans (.trans ?_ (.setState _ _ _)) (.freeMutex (by exact hcard _) hf)) (.yield hy)
    exact .setSemaphore k rfl

/-- Freeing a mutex leaves a clean one clean, in use or not. -/
theorem CleanMutex.freeMutex (hclean : CleanMutex k i)
    (hcard : (k.mutexes m).cardinalBlocked = (waitersOf (k.mutexes m).queue).length)
    (h : Sync.freeMutex m k = some k') : CleanMutex k' i := by
  by_cases him : i = m
  · subst him
    rcases freeMutex_cases hcard h with ⟨-, rfl⟩ | ⟨-, p, queue, hwait, -⟩ | ⟨-, hwait, rfl⟩
    · exact hclean
    · have hnil : waitersOf (k.mutexes i).queue = [] := hclean.2
      rw [hwait] at hnil
      exact absurd hnil (by simp)
    · refine ⟨by rw [Kernel.setMutex_self], ?_⟩
      rw [Kernel.waiters_setMutex_self]
      exact hwait
  · rw [CleanMutex, Kernel.waiters, (freeMutex_slots hcard h).2 i him]
    exact hclean

/-- `getMutex` leaves every slot clean that was not in use before, the new mutex included. -/
theorem getMutexRest_clean {name : ℕ}
    (hcard : ∀ m, (k.mutexes m).cardinalBlocked = (waitersOf (k.mutexes m).queue).length)
    (hclean : ∀ i, (k.mutexes i).used = false → CleanMutex k i)
    (h : getMutexRest name k = some (i, k')) :
    (∀ i, (k.mutexes i).used = false → CleanMutex k' i) ∧
      ∀ i, (k'.mutexes i).used = false → (k.mutexes i).used = false := by
  have hkeeps : ∀ {k₁ : Kernel}, Keeps k k₁ → (∀ i, (k.mutexes i).used = false → CleanMutex k₁ i) ∧
      ∀ i, (k₁.mutexes i).used = false → (k.mutexes i).used = false := fun hk =>
    ⟨fun i hi => hk.clean i hi (hclean i hi), fun i hi => (hk.mutexes i).symm.trans hi⟩
  rcases getMutexRest_cases h with ⟨-, hf⟩ | ⟨-, -, -, hf⟩ | ⟨-, hspot, hf⟩
  · exact hkeeps (Keeps.freeMutex (hcard _) hf)
  · exact hkeeps (Keeps.freeMutex (hcard _) hf)
  · set k₁ := k.setMutex i { k.mutexes i with used := true, name := name, pidCreator := k.pid }
      with hk₁
    have hslot : ∀ n, (k₁.mutexes n).mutex = (k.mutexes n).mutex ∧
        (k₁.mutexes n).queue = (k.mutexes n).queue ∧
        (k₁.mutexes n).cardinalBlocked = (k.mutexes n).cardinalBlocked ∧
        ((k₁.mutexes n).used = false → (k.mutexes n).used = false) := fun n => by
      by_cases hn : n = i
      · rw [hn, hk₁, Kernel.setMutex_self]
        exact ⟨rfl, rfl, rfl, fun h => absurd h (by simp)⟩
      · rw [hk₁, Kernel.setMutex_ne _ _ hn]
        exact ⟨rfl, rfl, rfl, id⟩
    have hcard₁ : (k₁.mutexes k.adminMutex).cardinalBlocked =
        (waitersOf (k₁.mutexes k.adminMutex).queue).length := by
      rw [(hslot _).2.2.1, (hslot _).2.1, hcard]
    refine ⟨fun n hn => ?_, fun n hn => ?_⟩
    · refine CleanMutex.freeMutex ?_ hcard₁ hf
      rw [CleanMutex, Kernel.waiters, (hslot n).1, (hslot n).2.1]
      exact hclean n hn
    · exact (hslot n).2.2.2 (((Keeps.freeMutex hcard₁ hf).mutexes n).symm.trans hn)

/-! ### Suspended calls -/

/-- Who is in the ring now was in it before, or has nothing pending. -/
theorem Settled.fresh_pending (h : Settled s) {me : ℤ} (hf : Frame s.kernel t.kernel me) {p : ℤ}
    (hp : p ∈ pids t.kernel.sched) : p ∈ pids s.kernel.sched ∨ s.pending p = none := by
  refine (hf.fresh p hp).imp_right fun hle => ?_
  cases hc : s.pending p with
  | none => rfl
  | some c =>
    have := (h.parked.range p c hc).2
    omega

theorem Suspended.of_subset {f : Pending → Bool}
    (hpids : ∀ p ∈ pids t.kernel.sched, p ∈ pids s.kernel.sched ∨ s.pending p = none)
    (hpending : ∀ p, (t.pending p).any f = true → (s.pending p).any f = true)
    (h : Suspended t f) : Suspended s f := by
  obtain ⟨p, hp, hf⟩ := h
  rcases hpids p hp with hin | hnone
  · exact ⟨p, hin, hpending p hf⟩
  · have := hpending p hf
    simp [hnone] at this

/-- A call of the current process is suspended. -/
theorem Suspended.of_assign {f : Pending → Bool} {c : Pending}
    (hpids : ∀ p ∈ pids t.kernel.sched, p ∈ pids s.kernel.sched ∨ s.pending p = none)
    (hpending : t.pending = assign s.pending s.pid (some c)) (hf : f c = false)
    (h : Suspended t f) : Suspended s f := by
  refine h.of_subset hpids fun p hp => ?_
  rw [hpending] at hp
  by_cases hpid : p = s.pid
  · rw [hpid, assign_self, Option.any_some, hf] at hp
    exact absurd hp (by simp)
  · rwa [assign_ne _ _ hpid] at hp

/-- The queues of the semaphores and the suspended calls are as before. -/
theorem LifeCycle.of_keeps (h : LifeCycle s) (ht : Settled t) (hk : Keeps s.kernel t.kernel)
    (hwait : ∀ j, Vacant s j → t.kernel.waiters (.semaphore j) = [])
    (hsuspended : ∀ j, (Suspended t (Pending.creates j) → Suspended s (Pending.creates j)) ∧
      (Suspended t (Pending.waitsOn j) → Suspended s (Pending.waitsOn j))) : LifeCycle t := by
  refine ⟨ht, fun i hi => ?_, fun j hj => ?_⟩
  · rw [hk.mutexes] at hi
    exact hk.clean i hi (h.mutexes i hi)
  · have hvacant : Vacant s j := by
      rw [Vacant, hk.semaphores] at hj
      exact hj.imp_right (hsuspended j).1
    exact ⟨hwait j hvacant, fun hs => (h.semaphores j hvacant).2 ((hsuspended j).2 hs)⟩

theorem Fresh.of_keeps (h : LifeCycle s) (hk : Keeps s.kernel t.kernel)
    (hgen : ∀ j, t.ledger.generation j = s.ledger.generation j) : Fresh s t :=
  ⟨fun i hi => hk.clean i hi (h.mutexes i hi), fun j hj => absurd (hgen j) hj⟩

theorem Fresh.of_growth (hk : Keeps s.kernel u.kernel)
    (hgen : ∀ j, u.ledger.generation j = s.ledger.generation j) (h : Fresh u t) : Fresh s t := by
  refine ⟨fun i hi => h.mutexes i ((hk.mutexes i).trans hi), fun j hj => h.semaphores j ?_⟩
  rw [hgen]
  exact hj

/-! ### The parts of the calls -/

/-- What a call relies on when it goes on behind `lockMutex`. -/
def Rest.Ready (s : Machine) : Rest → Prop
  | .wait j => ¬ Vacant s j
  | .createSemaphore index _ _ _ => CleanSemaphore s index
  | _ => True

theorem lock_lifeCycle (h : LifeCycle s) (hidle : s.idle = true) {garbage : ℤ} {rest : Rest}
    {returned : Bool} (hready : rest.Ready s)
    (hlock : s.lock m garbage rest = some (returned, t)) :
    LifeCycle t ∧ Keeps s.kernel t.kernel ∧
      (∀ j, t.ledger.generation j = s.ledger.generation j) ∧
      (returned = true → rest.Ready t) := by
  have hs := h.settled
  obtain ⟨ht, hframe⟩ := hs.lock hidle hlock
  have hpids := fun p => hs.fresh_pending hframe (p := p)
  have hu : ∀ j, Untouched j s t := fun j => .lock hidle hlock
  have hgen : ∀ j, t.ledger.generation j = s.ledger.generation j := fun j =>
    congrArg Account.generation (hu j).account
  obtain ⟨⟨b, k'⟩, hk, hpair⟩ := Option.map_eq_some_iff.mp hlock
  have hkeeps : Keeps s.kernel t.kernel := by
    have hkernel : t.kernel = k' := by
      cases b with
      | true => exact congrArg Machine.kernel (Prod.mk.inj hpair).2.symm
      | false => exact congrArg Machine.kernel (Prod.mk.inj hpair).2.symm
    rw [hkernel]
    exact .lockMutex hs.parked.current_range.1 (hs.parked.mutex_cardinal m) hk
  obtain ⟨-, -, hcases⟩ := lock_spec hs hidle hlock
  have hsame : t.pending = s.pending → LifeCycle t ∧ Keeps s.kernel t.kernel ∧
      (∀ j, t.ledger.generation j = s.ledger.generation j) ∧
      (returned = true → rest.Ready t) := fun hpending => by
    have hsub : ∀ f, Suspended t f → Suspended s f := fun f hf =>
      hf.of_subset hpids fun p hp => by rwa [hpending] at hp
    have hvacant : ∀ j, Vacant t j → Vacant s j := fun j hj => by
      rw [Vacant, hkeeps.semaphores] at hj
      exact hj.imp_right (hsub _)
    refine ⟨h.of_keeps ht hkeeps (fun j hj => ?_) fun j => ⟨hsub _, hsub _⟩, hkeeps, hgen,
      fun _ => ?_⟩
    · rw [(hu j).waiters]
      exact (h.semaphores j hj).1
    · cases rest with
      | wait j => exact fun hj => hready (hvacant j hj)
      | createSemaphore index name start pid =>
        refine ⟨?_, fun hf => hready.2 (hsub _ hf)⟩
        rw [(hu index).waiters]
        exact hready.1
      | _ => trivial
  rcases hcases with ⟨-, -, rfl⟩ | ⟨-, -, -, -, -, -, -, hpending⟩ |
    ⟨-, rfl, -, -, -, hpending, -⟩
  · exact hsame rfl
  · exact hsame hpending
  · refine ⟨⟨ht, fun i hi => ?_, fun j hj => ?_⟩, hkeeps, hgen, fun hr => absurd hr (by simp)⟩
    · rw [hkeeps.mutexes] at hi
      exact hkeeps.clean i hi (h.mutexes i hi)
    · -- the slot was vacant before, or the suspended call is the one that creates it
      have hclean : CleanSemaphore s j ∧ Pending.waitsOn j (.locking m rest) = false := by
        by_cases hcreates : Pending.creates j (.locking m rest) = true
        · cases rest with
          | createSemaphore index name start pid =>
            obtain rfl : index = j := by simpa [Pending.creates] using hcreates
            exact ⟨hready, rfl⟩
          | _ => simp [Pending.creates] at hcreates
        · have hvacant : Vacant s j := by
            rw [Vacant, hkeeps.semaphores] at hj
            exact hj.imp_right fun hf =>
              hf.of_assign hpids hpending (by simpa using hcreates)
          refine ⟨h.semaphores j hvacant, ?_⟩
          cases rest with
          | wait i =>
            have hne : i ≠ j := fun he => hready (he ▸ hvacant)
            simpa [Pending.waitsOn] using hne
          | _ => rfl
      refine ⟨?_, fun hf => hclean.1.2 (hf.of_assign hpids hpending hclean.2)⟩
      rw [(hu j).waiters]
      exact hclean.1.1

theorem wake_lifeCycle (h : LifeCycle s) {c : Pending} (hpending : s.pending s.pid = some c) :
    LifeCycle s.wake ∧ (∀ rest, c = .locking m rest → rest.Ready s.wake) ∧
      ∀ j, s.wake.ledger.generation j = s.ledger.generation j := by
  have hin : s.pid ∈ pids s.kernel.sched := getCurrentPid_mem h.settled.parked.ring
  have hsub : ∀ f, Suspended s.wake f → Suspended s f := fun f hf => by
    refine hf.of_subset (fun p hp => Or.inl (by rwa [wake_kernel] at hp)) fun p hp => ?_
    rw [wake_pending] at hp
    by_cases hpid : p = s.pid
    · rw [hpid, assign_self] at hp
      exact absurd hp (by simp)
    · rwa [assign_ne _ _ hpid] at hp
  have hvacant : ∀ j, Vacant s.wake j → Vacant s j := fun j hj => by
    rw [Vacant, wake_kernel] at hj
    exact hj.imp_right (hsub _)
  refine ⟨h.of_keeps h.settled.wake (.of_mutexes (by rw [wake_kernel]) fun j => by rw [wake_kernel])
    (fun j hj => ?_) fun j => ⟨hsub _, hsub _⟩, fun rest hc => ?_, fun j => ?_⟩
  · rw [wake_kernel]
    exact (h.semaphores j hj).1
  · subst hc
    cases rest with
    | wait j =>
      exact fun hj => (h.semaphores j (hvacant j hj)).2
        ⟨s.pid, hin, by simp [hpending, Pending.waitsOn]⟩
    | createSemaphore index name start pid =>
      have hclean := h.semaphores index
        (Or.inr ⟨s.pid, hin, by simp [hpending, Pending.creates]⟩)
      refine ⟨?_, fun hf => hclean.2 (hsub _ hf)⟩
      rw [wake_kernel]
      exact hclean.1
    | _ => trivial
  · unfold Machine.wake
    dsimp only
    split
    · rfl
    · rfl
    · dsimp only
      split_ifs <;> rfl

theorem waitEnd_lifeCycle (h : LifeCycle s) (hidle : s.idle = true) (hready : ¬ Vacant s j)
    (hrun : s.waitEnd j = some t) : LifeCycle t ∧ Fresh s t := by
  have hs := h.settled
  obtain ⟨ht, hframe, -⟩ := hs.waitEnd hidle hrun
  have hpids := fun p => hs.fresh_pending hframe (p := p)
  obtain ⟨-, hu, hcases⟩ := waitEnd_spec hs hidle hrun
  have hgen : ∀ i, t.ledger.generation i = s.ledger.generation i := fun i => by
    by_cases hi : i = j
    · subst hi
      rcases hcases with ⟨-, -, -, ha⟩ | ⟨-, -, ha, -⟩
      · exact congrArg Account.generation ha
      · exact congrArg Account.generation ha
    · exact congrArg Account.generation (hu i hi).account
  obtain ⟨⟨b, k'⟩, hk, hrest⟩ := Option.map_eq_some_iff.mp hrun
  have hkeeps : Keeps s.kernel t.kernel := by
    have hkernel : t.kernel = k' := by
      cases b with
      | true => exact congrArg Machine.kernel hrest.symm
      | false => exact congrArg Machine.kernel hrest.symm
    rw [hkernel]
    exact .waitRest hs.parked.current_range.1 hs.parked.mutex_cardinal hk
  have hsub : ∀ f, (∀ g, f (.sleeping j g) = false) → Suspended t f → Suspended s f := by
    intro f hf hsus
    rcases hcases with ⟨-, hpending, -, -⟩ | ⟨-, hpending, -, -⟩
    · exact hsus.of_subset hpids fun p hp => by rwa [hpending] at hp
    · exact hsus.of_assign hpids hpending (hf _)
  refine ⟨h.of_keeps ht hkeeps (fun i hi => ?_) fun i =>
    ⟨hsub _ fun _ => rfl, hsub _ fun _ => rfl⟩, .of_keeps h hkeeps hgen⟩
  have hne : i ≠ j := fun he => hready (he ▸ hi)
  rw [(hu i hne).waiters]
  exact (h.semaphores i hi).1

/-- The mutexes may be taken into use. -/
theorem LifeCycle.of_semaphores (h : LifeCycle s) (ht : Settled t)
    (hmutexes : ∀ i, (s.kernel.mutexes i).used = false → CleanMutex t.kernel i)
    (hused : ∀ i, (t.kernel.mutexes i).used = false → (s.kernel.mutexes i).used = false)
    (hsem : ∀ j, (t.kernel.semaphores j).used = (s.kernel.semaphores j).used)
    (hwait : ∀ j, t.kernel.waiters (.semaphore j) = s.kernel.waiters (.semaphore j))
    (hpids : ∀ p ∈ pids t.kernel.sched, p ∈ pids s.kernel.sched ∨ s.pending p = none)
    (hpending : t.pending = s.pending) : LifeCycle t := by
  have hsub : ∀ f, Suspended t f → Suspended s f := fun f hf =>
    hf.of_subset hpids fun p hp => by rwa [hpending] at hp
  refine ⟨ht, fun i hi => hmutexes i (hused i hi), fun j hj => ?_⟩
  have hvacant : Vacant s j := by
    rw [Vacant, hsem] at hj
    exact hj.imp_right (hsub _)
  refine ⟨?_, fun hf => (h.semaphores j hvacant).2 (hsub _ hf)⟩
  rw [hwait]
  exact (h.semaphores j hvacant).1

theorem getMutexEnd_lifeCycle (h : LifeCycle s) {name : ℕ} (hrun : s.getMutexEnd name = some t) :
    LifeCycle t ∧ Fresh s t := by
  have hs := h.settled
  obtain ⟨ht, hframe⟩ := hs.getMutexEnd hrun
  have hu : ∀ j, Untouched j s t := fun j => .getMutexEnd hrun
  obtain ⟨⟨i, k'⟩, hk, rfl⟩ := Option.map_eq_some_iff.mp hrun
  obtain ⟨hclean, hused⟩ := getMutexRest_clean hs.parked.mutex_cardinal h.mutexes hk
  have hsem := getMutexRest_semaphores hk
  exact ⟨h.of_semaphores ht hclean hused (fun j => by rw [hsem]) (fun j => (hu j).waiters)
    (fun p hp => hs.fresh_pending hframe hp) rfl, hclean, fun j hj => absurd rfl hj⟩

theorem createSemaphoreEnd_lifeCycle (h : LifeCycle s) (hready : CleanSemaphore s j) {name : ℕ}
    {start pid : ℤ} (hrun : s.createSemaphoreEnd j name start pid = some t) :
    LifeCycle t ∧ Fresh s t := by
  have hs := h.settled
  obtain ⟨ht, hframe⟩ := hs.createSemaphoreEnd hrun
  obtain ⟨hcounter, hwait, haccount, hpending, hu⟩ := createSemaphoreEnd_spec hrun
  have hwaiters : ∀ i, t.kernel.waiters (.semaphore i) = s.kernel.waiters (.semaphore i) :=
    fun i => by
      by_cases hi : i = j
      · rw [hi, hwait]
      · exact (hu i hi).waiters
  obtain ⟨k', hk, ht'⟩ := Option.map_eq_some_iff.mp hrun
  obtain ⟨⟨i, k₁⟩, hget, hf⟩ := Option.bind_eq_some_iff.mp hk
  obtain ⟨hclean, hused⟩ := getMutexRest_clean hs.parked.mutex_cardinal h.mutexes hget
  have hparked := (Settled.getMutexRest hs.parked hs.current hget s.pid).1
  have hkernel : t.kernel = k' := by rw [← ht']
  have hcard := hparked.mutex_cardinal k₁.semaphoreMutex
  have hset : Keeps k₁ (Sync.createSemaphoreEnd j i start pid k₁) := .setSemaphore k₁ rfl
  have hkeeps : Keeps k₁ t.kernel := by
    rw [hkernel]
    exact hset.trans (Keeps.freeMutex hcard hf)
  have hmutexes : ∀ i, (s.kernel.mutexes i).used = false → CleanMutex t.kernel i := fun n hn => by
    rw [hkernel]
    exact CleanMutex.freeMutex (k := Sync.createSemaphoreEnd j i start pid k₁) (hclean n hn) hcard hf
  refine ⟨h.of_semaphores ht hmutexes (fun n hn => ?_) (fun n => ?_) hwaiters
    (fun p hp => hs.fresh_pending hframe hp) hpending, hmutexes, fun n hn => ?_⟩
  · exact hused n ((hkeeps.mutexes n).symm.trans hn)
  · rw [hkeeps.semaphores, getMutexRest_semaphores hget]
  · by_cases hnj : n = j
    · subst hnj
      refine ⟨hcounter.trans ?_, hwait.trans hready.1⟩
      exact (congrArg Account.start haccount).symm
    · exact absurd (congrArg Account.generation (hu n hnj).account) hn

theorem free_lifeCycle (h : LifeCycle s) (hrun : s.free m = some t) :
    LifeCycle t ∧ Fresh s t := by
  have hs := h.settled
  obtain ⟨ht, hframe⟩ := hs.free hrun
  have hu : ∀ j, Untouched j s t := fun j => .free hrun
  obtain ⟨k', hk, rfl⟩ := Option.map_eq_some_iff.mp hrun
  have hkeeps : Keeps s.kernel k' := .freeMutex (hs.parked.mutex_cardinal m) hk
  exact ⟨h.of_semaphores ht (fun i hi => hkeeps.clean i hi (h.mutexes i hi))
    (fun i hi => (hkeeps.mutexes i).symm.trans hi) hkeeps.semaphores (fun j => (hu j).waiters)
    (fun p hp => hs.fresh_pending hframe hp) rfl, .of_keeps h hkeeps fun _ => rfl⟩

theorem signal_lifeCycle (h : LifeCycle s) (hrun : s.signal j = some t) :
    LifeCycle t ∧ Fresh s t := by
  have hs := h.settled
  obtain ⟨ht, hwakes, hsub⟩ := hs.signal hrun
  obtain ⟨hpending, hu, hcases⟩ := signal_spec hs hrun
  have hgen : ∀ i, t.ledger.generation i = s.ledger.generation i := fun i => by
    by_cases hi : i = j
    · subst hi
      rcases hcases with rfl | ⟨-, -, ⟨p, -, -, ha⟩ | ⟨-, -, ha⟩⟩
      · rfl
      · exact congrArg Account.generation ha
      · exact congrArg Account.generation ha
    · exact congrArg Account.generation (hu i hi).account
  obtain ⟨k', hk, ht'⟩ := Option.map_eq_some_iff.mp hrun
  have hkeeps : Keeps s.kernel t.kernel := by
    rw [show t.kernel = k' by rw [← ht']]
    rcases signal_cases (hs.parked.semaphore_cardinal j) hk with
      ⟨-, rfl⟩ | ⟨-, p, queue, -, -, rfl⟩ | ⟨-, -, -, rfl⟩
    · exact .of_mutexes rfl fun _ => rfl
    · exact (Keeps.setState _ p .ready).trans (@Keeps.setSemaphore j (s.kernel.setState p .ready) _ rfl)
    · exact .setSemaphore s.kernel rfl
  have hsame : ∀ f, Suspended t f → Suspended s f := fun f hf =>
    hf.of_subset (fun p hp => Or.inl (by rwa [hwakes.pids] at hp))
      fun p hp => by rwa [hpending] at hp
  refine ⟨h.of_keeps ht hkeeps (fun i hi => ?_) fun i => ⟨hsame _, hsame _⟩,
    .of_keeps h hkeeps hgen⟩
  refine List.eq_nil_iff_forall_not_mem.mpr fun p hp => ?_
  have := hsub _ p hp
  rw [(h.semaphores i hi).1] at this
  exact absurd this List.not_mem_nil

theorem close_lifeCycle (h : LifeCycle s)
    (hok : isValidMutex m s.kernel = true → s.pid = (s.kernel.mutexes m).pidCreator →
      CleanMutex s.kernel m)
    (hrun : s.close m = some t) : LifeCycle t ∧ Fresh s t := by
  have hs := h.settled
  obtain ⟨ht, hframe⟩ := hs.close hrun
  have hu : ∀ j, Untouched j s t := fun j => .close hrun
  obtain ⟨k', hk, rfl⟩ := Option.map_eq_some_iff.mp hrun
  rcases closeMutex_cases hk with rfl | ⟨hvalid, hcreator, rfl⟩
  · exact ⟨h, .of_keeps h (.of_mutexes rfl fun _ => rfl) fun _ => rfl⟩
  have hword : ∀ i, CleanMutex s.kernel i → CleanMutex
      (s.kernel.setMutex m { s.kernel.mutexes m with used := false }) i := fun i hi => by
    by_cases him : i = m
    · subst him
      rw [CleanMutex, Kernel.setMutex_self, Kernel.waiters_setMutex_self]
      exact hi
    · rw [CleanMutex, Kernel.waiters, Kernel.setMutex_ne _ _ him]
      exact hi
  refine ⟨⟨ht, fun i hi => hword i ?_, fun j hj => h.semaphores j hj⟩,
    fun i hi => hword i (h.mutexes i hi), fun j hj => absurd rfl hj⟩
  by_cases him : i = m
  · rw [him]
    exact hok hvalid hcreator
  · rw [Kernel.setMutex_ne _ _ him] at hi
    exact h.mutexes i hi

theorem closeSemaphore_lifeCycle (h : LifeCycle s)
    (hok : isValidSemaphore j s.kernel = true → s.pid = (s.kernel.semaphores j).pidCreator →
      CleanSemaphore s j)
    (hrun : s.closeSemaphore j = some t) : LifeCycle t ∧ Fresh s t := by
  have hs := h.settled
  obtain ⟨ht, hframe⟩ := hs.closeSemaphore hrun
  have hu : ∀ i, Untouched i s t := fun i => .closeSemaphore hrun
  obtain ⟨k', hk, rfl⟩ := Option.map_eq_some_iff.mp hrun
  rcases semClose_cases hk with rfl | ⟨hvalid, hcreator, rfl⟩
  · exact ⟨h, .of_keeps h (.of_mutexes rfl fun _ => rfl) fun _ => rfl⟩
  refine ⟨⟨ht, h.mutexes, fun i hi => ?_⟩, h.mutexes, fun i hj => absurd rfl hj⟩
  have hclean : CleanSemaphore s i := by
    by_cases hij : i = j
    · rw [hij]
      exact hok hvalid hcreator
    · rw [Vacant, Kernel.setSemaphore_ne _ _ hij] at hi
      exact h.semaphores i hi
  exact ⟨(hu i).waiters.trans hclean.1, hclean.2⟩

/-- The processes come and go, or another one runs. -/
theorem process_lifeCycle (h : LifeCycle s) (ht : Settled t)
    (hmutexes : t.kernel.mutexes = s.kernel.mutexes)
    (hsem : t.kernel.semaphores = s.kernel.semaphores) (hpending : t.pending = s.pending)
    (hledger : t.ledger = s.ledger)
    (hpids : ∀ p ∈ pids t.kernel.sched, p ∈ pids s.kernel.sched ∨ s.pending p = none) :
    LifeCycle t ∧ Fresh s t := by
  have hkeeps : Keeps s.kernel t.kernel := .of_mutexes hmutexes fun j => by rw [hsem]
  refine ⟨h.of_semaphores ht (fun i hi => hkeeps.clean i hi (h.mutexes i hi))
    (fun i hi => (hkeeps.mutexes i).symm.trans hi) hkeeps.semaphores (fun j => ?_) hpids hpending,
    .of_keeps h hkeeps fun j => by rw [hledger]⟩
  rw [Kernel.waiters, hsem]
  rfl

theorem semCreateEnd_lifeCycle (h : LifeCycle s) (hidle : s.idle = true) {name : ℕ}
    {start garbage : ℤ} (hrun : s.semCreateEnd name start garbage = some t) :
    LifeCycle t ∧ Fresh s t := by
  unfold Machine.semCreateEnd at hrun
  split at hrun
  · obtain rfl := Option.some.inj hrun
    exact ⟨h, .of_keeps h (.of_mutexes rfl fun _ => rfl) fun _ => rfl⟩
  split at hrun
  · exact free_lifeCycle h hrun
  rename_i index hindex
  have hunused : (s.kernel.semaphores index).used = false := by
    simpa using (firstIndex_spec hindex).2.2
  have hclean := h.semaphores index (Or.inl hunused)
  have hu : ∀ j, Untouched j s (s.reserve index name) := fun j => .reserve index name
  have hreserve : LifeCycle (s.reserve index name) := by
    refine ⟨(h.settled.reserve index name).1, h.mutexes, fun j hj => ?_⟩
    have hvacant : Vacant s j := by
      refine hj.imp_left fun hused => ?_
      by_cases hji : j = index
      · rw [hji]
        exact hunused
      · rw [Machine.reserve, createSemaphoreStart, Kernel.setSemaphore_ne _ _ hji] at hused
        exact hused
    exact ⟨(hu j).waiters.trans (h.semaphores j hvacant).1, (h.semaphores j hvacant).2⟩
  have hready : (Rest.createSemaphore index name start s.pid).Ready (s.reserve index name) :=
    ⟨(hu index).waiters.trans hclean.1, hclean.2⟩
  dsimp only at hrun
  obtain ⟨⟨returned, u⟩, hlock, hrest⟩ := Option.bind_eq_some_iff.mp hrun
  obtain ⟨hlife, hkeeps, hgen, hready'⟩ := lock_lifeCycle hreserve hidle hready hlock
  have hfresh : Fresh u t → Fresh s t := fun hf =>
    ⟨fun i hi => hf.mutexes i ((hkeeps.mutexes i).trans hi), fun j hj =>
      hf.semaphores j (by rw [hgen]; exact hj)⟩
  cases returned with
  | true =>
    obtain ⟨hlife', hf⟩ := createSemaphoreEnd_lifeCycle hlife (hready' rfl) hrest
    exact ⟨hlife', hfresh hf⟩
  | false =>
    obtain rfl : u = t := Option.some.inj hrest
    exact ⟨hlife, hfresh (.of_keeps hlife (.of_mutexes rfl fun _ => rfl) fun _ => rfl)⟩

/-! ### The calls -/

theorem proceed_lifeCycle (h : LifeCycle s) (hidle : s.idle = true) {garbage : ℤ} {rest : Rest}
    (hready : rest.Ready s) (hrun : s.proceed garbage rest = some t) :
    LifeCycle t ∧ Fresh s t := by
  cases rest with
  | lockMutex =>
    obtain rfl : s = t := Option.some.inj hrun
    exact ⟨h, .of_keeps h (.of_mutexes rfl fun _ => rfl) fun _ => rfl⟩
  | getMutex name => exact getMutexEnd_lifeCycle h hrun
  | semCreate name start => exact semCreateEnd_lifeCycle h hidle hrun
  | createSemaphore index name start pid => exact createSemaphoreEnd_lifeCycle h hready hrun
  | wait j => exact waitEnd_lifeCycle h hidle hready hrun

theorem lockThen_lifeCycle (h : LifeCycle s) (hidle : s.idle = true) {garbage : ℤ} (rest : Rest)
    (hready : rest.Ready s) (hrun : s.lockThen m garbage rest = some t) :
    LifeCycle t ∧ Fresh s t := by
  rcases lockThen_cases hrun with hlock | ⟨u, hlock, hrest⟩
  · obtain ⟨hlife, hkeeps, hgen, -⟩ := lock_lifeCycle h hidle hready hlock
    exact ⟨hlife, .of_keeps h hkeeps hgen⟩
  · obtain ⟨hlife, hkeeps, hgen, hready'⟩ := lock_lifeCycle h hidle hready hlock
    obtain ⟨hsched, -, hpending⟩ := lock_returned hlock
    obtain ⟨hlife', hfresh⟩ :=
      proceed_lifeCycle hlife (idle_of_sched hsched hpending hidle) (hready' rfl) hrest
    exact ⟨hlife', .of_growth hkeeps hgen hfresh⟩

theorem resume_lifeCycle (h : LifeCycle s) {garbage : ℤ} (hrun : s.resume garbage = some t) :
    LifeCycle t ∧ Fresh s t := by
  have hkeeps : Keeps s.kernel s.wake.kernel :=
    .of_mutexes (by rw [wake_kernel]) fun j => by rw [wake_kernel]
  rcases resume_cases hrun with ⟨m, rest, hpending, hrest⟩ | ⟨j, g, hpending, rfl⟩
  · obtain ⟨hlife, hready, hgen⟩ := wake_lifeCycle (m := m) h hpending
    obtain ⟨hlife', hfresh⟩ := proceed_lifeCycle hlife wake_idle (hready rest rfl) hrest
    exact ⟨hlife', .of_growth hkeeps hgen hfresh⟩
  · obtain ⟨hlife, -, hgen⟩ := wake_lifeCycle (m := 0) h hpending
    exact ⟨hlife, .of_keeps h hkeeps hgen⟩

/-- Every step that closes only idle objects keeps the unused slots clean. -/
theorem step_lifeCycle {a : Action} (h : LifeCycle s) (hok : ClosesIdle s a)
    (hstep : step s a = some t) : LifeCycle t ∧ Fresh s t := by
  have hs := h.settled
  cases a with
  | tick =>
    simp only [step] at hstep
    split_ifs at hstep
    obtain ⟨ht, hframe⟩ := hs.switch hstep
    obtain ⟨k', hk, rfl⟩ := Option.map_eq_some_iff.mp hstep
    obtain ⟨hsem, hmutexes, -, -⟩ := yield_tables hk
    exact process_lifeCycle h ht hmutexes hsem rfl rfl fun p hp => hs.fresh_pending hframe hp
  | createProcess page =>
    simp only [step] at hstep
    split_ifs at hstep with hc
    obtain rfl := Option.some.inj hstep
    obtain ⟨ht, hframe⟩ := hs.createProcess hc.2
    exact process_lifeCycle h ht rfl rfl rfl rfl fun p hp => hs.fresh_pending hframe hp
  | removeProcess pid =>
    simp only [step] at hstep
    split_ifs at hstep
    obtain ⟨ht, -, -, hpids, -⟩ := hs.removeProcess hstep
    obtain ⟨sched, -, rfl⟩ := Option.map_eq_some_iff.mp hstep
    exact process_lifeCycle h ht rfl rfl rfl rfl fun p hp => Or.inl ((hpids p).mp hp).1
  | store strings =>
    simp only [step] at hstep
    split_ifs at hstep
    obtain rfl := Option.some.inj hstep
    obtain ⟨ht, hframe⟩ := hs.store strings
    exact process_lifeCycle h ht rfl rfl rfl rfl fun p hp => Or.inl hp
  | lockMutex mutex garbage =>
    obtain ⟨hidle, hrun⟩ := step_call hstep
    exact lockThen_lifeCycle h hidle .lockMutex trivial hrun
  | freeMutex mutex => exact free_lifeCycle h (step_call hstep).2
  | getMutex name garbage =>
    obtain ⟨hidle, hrun⟩ := step_call hstep
    exact lockThen_lifeCycle h hidle (.getMutex name) trivial hrun
  | closeMutex mutex => exact close_lifeCycle h hok (step_call hstep).2
  | semCreate name start garbage =>
    obtain ⟨hidle, hrun⟩ := step_call hstep
    exact lockThen_lifeCycle h hidle (.semCreate name start) trivial hrun
  | semClose j => exact closeSemaphore_lifeCycle h hok (step_call hstep).2
  | wait j garbage =>
    obtain ⟨hidle, hrun⟩ := step_call hstep
    simp only [Machine.call, Machine.wait] at hrun
    split_ifs at hrun with hneg hvalid
    · refine lockThen_lifeCycle h hidle (.wait j) (fun hvacant => ?_) hrun
      rcases hvacant with hunused | hcreates
      · unfold isValidSemaphore at hvalid
        split_ifs at hvalid
        rw [hunused] at hvalid
        exact absurd hvalid (by simp)
      · exact hok hvalid hcreates
    · obtain rfl := Option.some.inj hrun
      exact ⟨h, .of_keeps h (.of_mutexes rfl fun _ => rfl) fun _ => rfl⟩
  | signal j => exact signal_lifeCycle h (step_call hstep).2
  | resume garbage => exact resume_lifeCycle h hstep

theorem IsBoot.lifeCycle (h : IsBoot s) : LifeCycle s := by
  have hb := h.booted
  refine ⟨h.settled, fun i _ => ⟨(hb.mutexes i).2.2, hb.waiters _⟩, fun j _ => ⟨hb.waiters _, ?_⟩⟩
  obtain ⟨-, -, -, -, -, -, -, -, -, -, hpending, -⟩ := h
  rintro ⟨p, -, hp⟩
  simp [hpending] at hp

theorem reachable_lifeCycle (h : (machineSystem.restrict ClosesIdle).Reachable s) :
    LifeCycle s := by
  induction h with
  | start hs => exact IsBoot.lifeCycle hs
  | next _ hstep ih => exact (step_lifeCycle ih hstep.1 hstep.2).1

/-- No process is left in the queue of an object that is closed. -/
structure ClosedEmpty (s : Machine) : Prop where
  mutexes : ∀ i, (s.kernel.mutexes i).used = false → s.kernel.waiters (.mutex i) = []
  semaphores : ∀ j, (s.kernel.semaphores j).used = false → s.kernel.waiters (.semaphore j) = []

/-- A mutex that the step takes into use is unlocked, a semaphore that it creates has its start
value, and their queues are empty. -/
structure CreatedClean (s t : Machine) : Prop where
  mutexes : ∀ i, (s.kernel.mutexes i).used = false → (t.kernel.mutexes i).used = true →
    (t.kernel.mutexes i).mutex = 0 ∧ t.kernel.waiters (.mutex i) = [] ∧
      (t.kernel.mutexes i).cardinalBlocked = 0
  semaphores : ∀ j, t.ledger.generation j ≠ s.ledger.generation j →
    (t.kernel.semaphores j).semaphore = t.ledger.start j ∧
      t.kernel.waiters (.semaphore j) = [] ∧ (t.kernel.semaphores j).cardinalBlocked = 0

/-- In a run that closes only idle objects, closed objects have no waiters and created ones are
as good as new. -/
theorem life_cycle (h : (machineSystem.restrict ClosesIdle).Reachable s) :
    ClosedEmpty s ∧ ∀ a, ClosesIdle s a → ∀ t, step s a = some t → CreatedClean s t := by
  have hlife := reachable_lifeCycle h
  refine ⟨⟨fun i hi => (hlife.mutexes i hi).2, fun j hj => (hlife.semaphores j (Or.inl hj)).1⟩,
    fun a hok t hstep => ?_⟩
  obtain ⟨ht, hfresh⟩ := step_lifeCycle hlife hok hstep
  refine ⟨fun i hi _ => ?_, fun j hj => ?_⟩
  · obtain ⟨hword, hwait⟩ := hfresh.mutexes i hi
    have hcard := ht.settled.parked.cardinal (.mutex i)
    rw [hwait] at hcard
    exact ⟨hword, hwait, hcard⟩
  · obtain ⟨hcounter, hwait⟩ := hfresh.semaphores j hj
    have hcard := ht.settled.parked.cardinal (.semaphore j)
    rw [hwait] at hcard
    exact ⟨hcounter, hwait, hcard⟩

end

/-! ### Runs -/

/-- Mutex 2, in use or not, its word and its waiters. -/
def mutexView (s : Machine) : Bool × ℤ × List ℤ :=
  ((s.kernel.mutexes 2).used, (s.kernel.mutexes 2).mutex, s.kernel.waiters (.mutex 2))

/-- A semaphore is closed after it was used, then its slot is used for another one. -/
theorem life_cycle_reuse : ∃ s t, (machineSystem.restrict ClosesIdle).Reachable s ∧
    step s (.semCreate 3 5 0) = some t ∧ s.ledger.generation 0 = 1 ∧ t.ledger.generation 0 = 2 ∧
    ClosedEmpty s ∧ CreatedClean s t := by
  obtain ⟨s, hs, hf⟩ := reachable_restrict_of_execute IsBoot isBoot_bootedMachine
    (show (execute (guarded ClosesIdle step) bootedMachine
      (createProcesses 2 ++ [.tick, .getMutex 2 0, .lockMutex 2 0, .freeMutex 2, .closeMutex 2,
        .semCreate 2 1 0, .wait 0 0, .semClose 0])).map
          (fun s => (s.ledger.generation 0,
            (step s (.semCreate 3 5 0)).map fun t => t.ledger.generation 0)) =
      some (1, some 2) by decide +kernel)
  obtain ⟨hgen, hstep⟩ := Prod.mk.inj hf
  obtain ⟨t, ht, hgen'⟩ := Option.map_eq_some_iff.mp hstep
  have hlife := life_cycle hs
  exact ⟨s, t, hs, ht, hgen, hgen', hlife.1, hlife.2 (.semCreate 3 5 0) trivial t ht⟩

/-- Process 3 closes mutex 2 while it holds it and process 2 waits for it. The next mutex gets
the slot locked and with the waiter. -/
theorem locked_slot_reused : ∃ s t, machineSystem.Reachable s ∧
    step s (.getMutex 3 0) = some t ∧ (s.kernel.mutexes 2).used = false ∧
    s.kernel.waiters (.mutex 2) = [2] ∧ (t.kernel.mutexes 2).used = true ∧
    (t.kernel.mutexes 2).mutex = 1 ∧ ¬ ClosedEmpty s ∧ ¬ CreatedClean s t := by
  obtain ⟨s, hs, hf⟩ := reachable_replay
    (show (execute step bootedMachine
      (createProcesses 2 ++ [.tick, .getMutex 2 0, .lockMutex 2 0, .tick, .lockMutex 2 0, .tick,
        .tick, .closeMutex 2])).map (fun s => (mutexView s, (step s (.getMutex 3 0)).map mutexView)) =
      some ((false, 1, [2]), some (true, 1, [2])) by decide +kernel)
  obtain ⟨hview, hstep⟩ := Prod.mk.inj hf
  obtain ⟨t, ht, hview'⟩ := Option.map_eq_some_iff.mp hstep
  obtain ⟨hused, hrest⟩ := Prod.mk.inj hview
  obtain ⟨hused', hrest'⟩ := Prod.mk.inj hview'
  obtain ⟨-, hwait⟩ := Prod.mk.inj hrest
  obtain ⟨hword, -⟩ := Prod.mk.inj hrest'
  refine ⟨s, t, hs, ht, hused, hwait, hused', hword, fun h => ?_, fun h => ?_⟩
  · have := h.mutexes 2 hused
    simp [hwait] at this
  · have := (h.mutexes 2 hused hused').1
    omega

end GatOS.Sync
