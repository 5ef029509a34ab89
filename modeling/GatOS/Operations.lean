import GatOS.SystemCalls

/-!
# The parts of a system call

Each step of the machine is a short sequence of operations on the tables. What every operation
preserves is preserved by every step.
-/
namespace GatOS.Sync
open Scheduler

inductive Op
  | switch
  | createProcess (page : ℕ)
  | removeProcess (pid : ℤ)
  | lock (mutex garbage : ℤ) (rest : Rest)
  | free (mutex : ℤ)
  | getMutexEnd (name : ℕ)
  | close (mutex : ℤ)
  | reserve (index : ℤ) (name : ℕ)
  | createSemaphoreEnd (index : ℤ) (name : ℕ) (start pid : ℤ)
  | closeSemaphore (semaphore : ℤ)
  | waitEnd (semaphore : ℤ)
  | signal (semaphore : ℤ)
  | wake
  | store (strings : ℕ → List ℤ)

namespace Op

def perform (s : Machine) : Op → Option Machine
  | .switch => s.switch
  | .createProcess page => some (s.createProcess page)
  | .removeProcess pid => s.removeProcess pid
  | .lock mutex garbage rest => (s.lock mutex garbage rest).map Prod.snd
  | .free mutex => s.free mutex
  | .getMutexEnd name => s.getMutexEnd name
  | .close mutex => s.close mutex
  | .reserve index name => some (s.reserve index name)
  | .createSemaphoreEnd index name start pid => s.createSemaphoreEnd index name start pid
  | .closeSemaphore j => s.closeSemaphore j
  | .waitEnd j => s.waitEnd j
  | .signal j => s.signal j
  | .wake => some s.wake
  | .store strings => some { s with kernel := { s.kernel with strings } }

/-- When an operation is part of a call. -/
def Enabled (s : Machine) : Op → Prop
  | .lock .. => s.idle = true
  | .waitEnd _ => s.idle = true
  | .createProcess page => FreshPage s.kernel.sched page
  | .wake => s.idle = false
  | .reserve index _ => getFreePositionSemaphores s.kernel = some index
  | _ => True

/-- The operations that create a semaphore in slot `index`. -/
def Creates (index : ℤ) : Op → Prop
  | .reserve i _ => i = index
  | .createSemaphoreEnd i _ _ _ => i = index
  | _ => False

/-- The operations that no result puts a condition on. -/
def Basic : Op → Prop
  | .removeProcess _ => False
  | .close _ => False
  | .closeSemaphore _ => False
  | .waitEnd _ => False
  | .signal _ => False
  | .reserve .. => False
  | .createSemaphoreEnd .. => False
  | _ => True

end Op

/-- A sequence of operations, each of which meets the condition in its state. -/
inductive Ops (ok : Machine → Op → Prop) : Machine → Machine → Prop
  | refl (s : Machine) : Ops ok s s
  | tail {s t u : Machine} (h : Ops ok s t) (op : Op) (henabled : op.Enabled t) (hok : ok t op)
      (hrun : op.perform t = some u) : Ops ok s u

section

variable {ok : Machine → Op → Prop} {s t u : Machine}

theorem Ops.invariant {P : Machine → Prop}
    (hP : ∀ s op t, P s → op.Enabled s → ok s op → op.perform s = some t → P t)
    (h : Ops ok s t) (hs : P s) : P t := by
  induction h with
  | refl => exact hs
  | tail _ op henabled hok hrun ih => exact hP _ _ _ ih henabled hok hrun

theorem Ops.single (op : Op) (henabled : op.Enabled s) (hok : ok s op)
    (hrun : op.perform s = some t) : Ops ok s t := (Ops.refl s).tail op henabled hok hrun

theorem Ops.trans (h : Ops ok s t) (g : Ops ok t u) : Ops ok s u := by
  induction g with
  | refl => exact h
  | tail _ op henabled hok hrun ih => exact ih.tail op henabled hok hrun

/-! ### The condition on a call -/

/-- The waiter queues of the semaphores are the same. -/
def SameQueues (s s' : Machine) : Prop :=
  ∀ j, (s'.kernel.semaphores j).queue = (s.kernel.semaphores j).queue

/-- Whether `lockMutex` returns at once. -/
def passes (mutex : ℤ) (k : Kernel) : Bool :=
  !isValidMutex mutex k || (testAndSet (k.mutexes mutex)).1

/-- The condition on the operations in the rest of a call. -/
def Rest.Admitted (ok : Machine → Op → Prop) (s : Machine) : Rest → Prop
  | .wait j => ∀ s' : Machine, s'.kernel.semaphores = s.kernel.semaphores → ok s' (.waitEnd j)
  | .semCreate _ _ => ∀ index, getFreePositionSemaphores s.kernel = some index →
      ∀ s' op, SameQueues s s' → op.Creates index → ok s' op
  | .createSemaphore index _ _ _ =>
      ∀ s' op, SameQueues s s' → op.Creates index → ok s' op
  | _ => True

def Action.Admitted (ok : Machine → Op → Prop) (s : Machine) : Action → Prop
  | .removeProcess pid => ok s (.removeProcess pid)
  | .closeMutex mutex => ok s (.close mutex)
  | .semClose j => ok s (.closeSemaphore j)
  | .signal j => ok s (.signal j)
  | .wait j _ => isValidSemaphore j s.kernel = true →
      passes (s.kernel.semaphores j).mutex s.kernel = true → (Rest.wait j).Admitted ok s
  | .semCreate name start _ => passes s.kernel.semaphoreMutex s.kernel = true →
      (Rest.semCreate name start).Admitted ok s
  | .resume _ => ∀ mutex rest, s.pending s.pid = some (.locking mutex rest) → rest.Admitted ok s
  | _ => True

theorem Rest.Admitted.congr {rest : Rest} (h : rest.Admitted ok s)
    (hsem : t.kernel.semaphores = s.kernel.semaphores) : rest.Admitted ok t := by
  have hqueues : ∀ s', SameQueues t s' → SameQueues s s' := fun s' h j => by rw [h, hsem]
  cases rest with
  | wait j => exact fun s' hs' => h s' (hs'.trans hsem)
  | semCreate name start =>
    intro index hindex s' op hs'
    rw [getFreePositionSemaphores, hsem] at hindex
    exact h index hindex s' op (hqueues s' hs')
  | createSemaphore index name start pid => exact fun s' op hs' => h s' op (hqueues s' hs')
  | _ => exact h

theorem Rest.admitted (h : ∀ s op, ok s op) (rest : Rest) : rest.Admitted ok s := by
  cases rest with
  | wait j => exact fun s' _ => h s' _
  | semCreate name start => exact fun _ _ s' op _ _ => h s' op
  | createSemaphore index name start pid => exact fun s' op _ _ => h s' op
  | _ => trivial

theorem Action.admitted (h : ∀ s op, ok s op) (a : Action) : a.Admitted ok s := by
  cases a with
  | removeProcess pid => exact h s _
  | closeMutex mutex => exact h s _
  | semClose j => exact h s _
  | signal j => exact h s _
  | wait j garbage => exact fun _ _ => Rest.admitted h (.wait j)
  | semCreate name start garbage => exact fun _ => Rest.admitted h (.semCreate name start)
  | resume garbage => exact fun _ rest _ => Rest.admitted h rest
  | _ => trivial

/-! ### Calls as sequences of operations -/

/-- When `lockMutex` returns at once the scheduler and the semaphores are as before. -/
theorem lockMutex_returned {k k' : Kernel} {mutex garbage : ℤ}
    (h : lockMutex mutex garbage k = some (true, k')) :
    k'.sched = k.sched ∧ k'.semaphores = k.semaphores := by
  unfold lockMutex at h
  split_ifs at h with hneg hvalid
  · dsimp only at h
    split_ifs at h with hlock hfull
    · obtain ⟨-, rfl⟩ := Prod.mk.inj (Option.some.inj h)
      exact ⟨rfl, rfl⟩
    · obtain ⟨k₁, -, hpair⟩ := Option.map_eq_some_iff.mp h
      exact absurd (Prod.mk.inj hpair).1 (by simp)
    · obtain ⟨k₁, -, hpair⟩ := Option.map_eq_some_iff.mp h
      exact absurd (Prod.mk.inj hpair).1 (by simp)
  · obtain ⟨-, rfl⟩ := Prod.mk.inj (Option.some.inj h)
    exact ⟨rfl, rfl⟩

/-- `lockMutex` returns at once when the mutex passes, and only then. -/
theorem lockMutex_passes {k k' : Kernel} {mutex garbage : ℤ} {returned : Bool}
    (h : lockMutex mutex garbage k = some (returned, k')) : passes mutex k = returned := by
  unfold lockMutex at h
  split_ifs at h with hneg hvalid
  · dsimp only at h
    split_ifs at h with hlock hfull
    · obtain ⟨rfl, -⟩ := Prod.mk.inj (Option.some.inj h)
      rw [passes, hlock, Bool.or_true]
    · obtain ⟨k₁, -, hpair⟩ := Option.map_eq_some_iff.mp h
      obtain ⟨rfl, -⟩ := Prod.mk.inj hpair
      simp [passes, hvalid, hlock]
    · obtain ⟨k₁, -, hpair⟩ := Option.map_eq_some_iff.mp h
      obtain ⟨rfl, -⟩ := Prod.mk.inj hpair
      simp [passes, hvalid, hlock]
  · obtain ⟨rfl, -⟩ := Prod.mk.inj (Option.some.inj h)
    simp [passes, hvalid]

theorem passes_of_lock {mutex garbage : ℤ} {rest : Rest}
    (h : s.lock mutex garbage rest = some (true, t)) : passes mutex s.kernel = true := by
  obtain ⟨⟨returned, k'⟩, hk, hpair⟩ := Option.map_eq_some_iff.mp h
  cases returned with
  | true => exact lockMutex_passes hk
  | false => exact absurd (Prod.mk.inj hpair).1 (by simp)

theorem lock_pending {mutex garbage : ℤ} {rest : Rest}
    (hlock : s.lock mutex garbage rest = some (false, t)) :
    t.pending s.pid = some (.locking mutex rest) := by
  obtain ⟨⟨b, k'⟩, -, hpair⟩ := Option.map_eq_some_iff.mp hlock
  cases b with
  | true => exact absurd (Prod.mk.inj hpair).1 (by simp)
  | false =>
    obtain ⟨-, rfl⟩ := Prod.mk.inj hpair
    exact assign_self _ _ _

theorem lock_returned {mutex garbage : ℤ} {rest : Rest}
    (h : s.lock mutex garbage rest = some (true, t)) :
    t.kernel.sched = s.kernel.sched ∧ t.kernel.semaphores = s.kernel.semaphores ∧
      t.pending = s.pending := by
  obtain ⟨⟨returned, k'⟩, hk, hpair⟩ := Option.map_eq_some_iff.mp h
  cases returned with
  | true =>
    obtain ⟨h1, h2⟩ := lockMutex_returned hk
    obtain ⟨-, rfl⟩ := Prod.mk.inj hpair
    exact ⟨h1, h2, rfl⟩
  | false => exact absurd (Prod.mk.inj hpair).1 (by simp)

/-- A call that locks a mutex first is suspended there or goes on. -/
theorem lockThen_cases {mutex garbage : ℤ} {rest : Rest}
    (h : s.lockThen mutex garbage rest = some t) :
    s.lock mutex garbage rest = some (false, t) ∨
      ∃ u, s.lock mutex garbage rest = some (true, u) ∧ u.proceed garbage rest = some t := by
  obtain ⟨⟨returned, u⟩, hlock, hrest⟩ := Option.bind_eq_some_iff.mp h
  cases returned with
  | true => exact Or.inr ⟨u, hlock, hrest⟩
  | false =>
    obtain rfl : u = t := Option.some.inj hrest
    exact Or.inl hlock

theorem resume_cases {garbage : ℤ} (h : s.resume garbage = some t) :
    (∃ mutex rest, s.pending s.pid = some (.locking mutex rest) ∧
        s.wake.proceed garbage rest = some t) ∨
      ∃ j g, s.pending s.pid = some (.sleeping j g) ∧ t = s.wake := by
  unfold Machine.resume at h
  split at h
  · exact absurd h (by simp)
  · rename_i mutex rest hpending
    exact Or.inl ⟨mutex, rest, hpending, h⟩
  · rename_i j g hpending
    exact Or.inr ⟨j, g, hpending, (Option.some.inj h).symm⟩

theorem idle_of_sched (hsched : t.kernel.sched = s.kernel.sched) (hpending : t.pending = s.pending)
    (h : s.idle = true) : t.idle = true := by
  have hpid : t.pid = s.pid := congrArg getCurrentPid hsched
  rw [Machine.idle, hpid, hpending]
  exact h

theorem wake_pid : s.wake.pid = s.pid := by
  unfold Machine.wake
  dsimp only
  split <;> rfl

theorem wake_idle : s.wake.idle = true := by
  have hpending : s.wake.pending = assign s.pending s.pid none := by
    unfold Machine.wake
    dsimp only
    split <;> rfl
  rw [Machine.idle, wake_pid, hpending, assign_self]
  rfl

theorem wake_kernel : s.wake.kernel = s.kernel := by
  unfold Machine.wake
  dsimp only
  split <;> rfl

/-- A call comes from a process that is in no other one. -/
theorem step_call {x : Option Machine}
    (h : (if s.idle ∧ s.pid ≠ initPid then x else none) = some t) :
    s.idle = true ∧ x = some t := by
  split_ifs at h with hc
  exact ⟨hc.1, h⟩

variable (hbasic : ∀ s op, Op.Basic op → ok s op)
include hbasic

theorem semCreateEnd_ops {name : ℕ} {start garbage : ℤ} (hidle : s.idle = true)
    (hok : (Rest.semCreate name start).Admitted ok s)
    (h : s.semCreateEnd name start garbage = some t) : Ops ok s t := by
  unfold Machine.semCreateEnd at h
  split at h
  · rw [← Option.some.inj h]
    exact Ops.refl s
  split at h
  · exact Ops.single (.free _) trivial (hbasic _ _ trivial) h
  rename_i index hindex
  dsimp only at h
  obtain ⟨⟨returned, u⟩, hlock, hrest⟩ := Option.bind_eq_some_iff.mp h
  have hqueues : SameQueues s (s.reserve index name) := fun j => by
    show (if j = index then _ else _ : Semaphore).queue = _
    split_ifs with hj
    · rw [hj]
    · rfl
  have hreserve : Ops ok s (s.reserve index name) :=
    Ops.single (.reserve index name) hindex (hok index hindex _ _ (fun _ => rfl) rfl) rfl
  have hidle' : (s.reserve index name).idle = true := hidle
  have hrun : Ops ok s u :=
    hreserve.tail (.lock _ garbage (.createSemaphore index name start s.pid)) hidle'
      (hbasic _ _ trivial) (by rw [Op.perform, hlock, Option.map_some])
  cases returned with
  | true =>
    refine hrun.tail (.createSemaphoreEnd index name start s.pid) trivial
      (hok index hindex _ _ (fun j => ?_) rfl) hrest
    rw [(lock_returned hlock).2.1]
    exact hqueues j
  | false =>
    obtain rfl : u = t := Option.some.inj hrest
    exact hrun

theorem proceed_ops {garbage : ℤ} {rest : Rest} (hidle : s.idle = true)
    (hok : rest.Admitted ok s) (h : s.proceed garbage rest = some t) : Ops ok s t := by
  cases rest with
  | lockMutex =>
    rw [← Option.some.inj h]
    exact Ops.refl s
  | getMutex name => exact Ops.single (.getMutexEnd name) trivial (hbasic _ _ trivial) h
  | semCreate name start => exact semCreateEnd_ops hbasic hidle hok h
  | createSemaphore index name start pid =>
    exact Ops.single (.createSemaphoreEnd index name start pid) trivial
      (hok _ _ (fun _ => rfl) rfl) h
  | wait j => exact Ops.single (.waitEnd j) hidle (hok s rfl) h

theorem lockThen_ops {mutex garbage : ℤ} (rest : Rest) (hidle : s.idle = true)
    (hok : passes mutex s.kernel = true → rest.Admitted ok s)
    (h : s.lockThen mutex garbage rest = some t) : Ops ok s t := by
  rcases lockThen_cases h with hlock | ⟨u, hlock, hrest⟩
  · exact Ops.single (.lock mutex garbage rest) hidle (hbasic _ _ trivial)
      (by rw [Op.perform, hlock, Option.map_some])
  · have hrun : Ops ok s u := Ops.single (.lock mutex garbage rest) hidle (hbasic _ _ trivial)
      (by rw [Op.perform, hlock, Option.map_some])
    obtain ⟨hsched, hsem, hpending⟩ := lock_returned hlock
    exact hrun.trans
      (proceed_ops hbasic (idle_of_sched hsched hpending hidle)
        ((hok (passes_of_lock hlock)).congr hsem) hrest)

theorem resume_ops {garbage : ℤ}
    (hok : ∀ mutex rest, s.pending s.pid = some (.locking mutex rest) → rest.Admitted ok s)
    (h : s.resume garbage = some t) : Ops ok s t := by
  have hwake : s.pending s.pid ≠ none → Ops ok s s.wake := fun hne =>
    Ops.single .wake (by simpa [Op.Enabled, Machine.idle, Option.isSome_iff_ne_none] using hne)
      (hbasic _ _ trivial) rfl
  rcases resume_cases h with ⟨mutex, rest, hpending, hrest⟩ | ⟨j, g, hpending, rfl⟩
  · refine (hwake (by simp [hpending])).trans
      (proceed_ops hbasic wake_idle ((hok mutex rest hpending).congr ?_) hrest)
    rw [wake_kernel]
  · exact hwake (by simp [hpending])

/-- Every step is a sequence of operations. -/
theorem step_ops {a : Action} (hok : a.Admitted ok s) (h : step s a = some t) : Ops ok s t := by
  cases a with
  | resume garbage => exact resume_ops hbasic hok h
  | tick =>
    simp only [step] at h
    split_ifs at h
    exact Ops.single .switch trivial (hbasic _ _ trivial) h
  | createProcess page =>
    simp only [step] at h
    split_ifs at h with hc
    exact Ops.single (.createProcess page) hc.2 (hbasic _ _ trivial) h
  | removeProcess pid =>
    simp only [step] at h
    split_ifs at h
    exact Ops.single (.removeProcess pid) trivial hok h
  | store strings =>
    simp only [step] at h
    split_ifs at h
    exact Ops.single (.store strings) trivial (hbasic _ _ trivial) h
  | lockMutex mutex garbage =>
    obtain ⟨hidle, h⟩ := step_call h
    exact lockThen_ops hbasic .lockMutex hidle (fun _ => trivial) h
  | freeMutex mutex => exact Ops.single (.free mutex) trivial (hbasic _ _ trivial) (step_call h).2
  | getMutex name garbage =>
    obtain ⟨hidle, h⟩ := step_call h
    exact lockThen_ops hbasic (.getMutex name) hidle (fun _ => trivial) h
  | closeMutex mutex => exact Ops.single (.close mutex) trivial hok (step_call h).2
  | semCreate name start garbage =>
    obtain ⟨hidle, h⟩ := step_call h
    exact lockThen_ops hbasic (.semCreate name start) hidle hok h
  | semClose j => exact Ops.single (.closeSemaphore j) trivial hok (step_call h).2
  | wait j garbage =>
    obtain ⟨hidle, h⟩ := step_call h
    simp only [Machine.call, Machine.wait] at h
    split_ifs at h with hneg hvalid
    · exact lockThen_ops hbasic (.wait j) hidle (hok hvalid) h
    · rw [← Option.some.inj h]
      exact Ops.refl s
  | signal j => exact Ops.single (.signal j) trivial hok (step_call h).2

end

end GatOS.Sync
