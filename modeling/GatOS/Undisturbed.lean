import GatOS.SemaphoreCalls
import GatOS.MutexFrame

/-!
# Calls that leave a group of processes alone

A group has its own semaphores and the mutexes inside them. A call of somebody else that uses
neither leaves the members of the group in the ring and blocks none of them.
-/
namespace GatOS.Sync
open Scheduler Transition

structure Group where
  semaphores : List ℤ
  locks : List ℤ
  members : List ℤ

/-- The locks are as before, the members are still in the ring, and they run or are ready if
they were. -/
structure Leaves (g : Group) (k k' : Kernel) : Prop where
  locks : ∀ m ∈ g.locks, k'.mutexes m = k.mutexes m
  admin : k'.adminMutex = k.adminMutex
  ring : ∀ p ∈ g.members, p ∈ pids k.sched → p ∈ pids k'.sched
  awake : ∀ p ∈ g.members, ∀ state, state ≠ .ready → state ≠ .running →
    InState k'.sched p state → InState k.sched p state

/-- In addition nobody has called `wait` or `signal` on the semaphores of the group. -/
structure Spares (g : Group) (s t : Machine) : Prop where
  untouched : ∀ j ∈ g.semaphores, Untouched j s t
  leaves : Leaves g s.kernel t.kernel

section

variable {g : Group} {k k' k'' : Kernel} {m p : ℤ}

namespace Leaves

theorem refl (g : Group) (k : Kernel) : Leaves g k k :=
  ⟨fun _ _ => rfl, rfl, fun _ _ h => h, fun _ _ _ _ _ h => h⟩

theorem trans (h : Leaves g k k') (h' : Leaves g k' k'') : Leaves g k k'' := by
  refine ⟨fun m hm => ?_, h'.admin.trans h.admin, fun p hp hin => ?_, ?_⟩
  · exact (h'.locks m hm).trans (h.locks m hm)
  · exact h'.ring p hp (h.ring p hp hin)
  · intro p hp state hready hrunning hin
    exact h.awake p hp state hready hrunning (h'.awake p hp state hready hrunning hin)

/-- The processes are as before. -/
theorem of_sched (hsched : k'.sched = k.sched) (hadmin : k'.adminMutex = k.adminMutex)
    (hlock : ∀ m ∈ g.locks, k'.mutexes m = k.mutexes m) : Leaves g k k' := by
  refine ⟨hlock, hadmin, fun p _ hin => ?_, fun p _ state _ _ hin => ?_⟩
  · rwa [hsched]
  · rwa [hsched] at hin

theorem setMutex (k : Kernel) (x : Mutex) (hm : m ∉ g.locks) : Leaves g k (k.setMutex m x) := by
  refine of_sched rfl rfl fun i hi => Kernel.setMutex_ne k x ?_
  rintro rfl
  exact hm hi

theorem setSemaphore (k : Kernel) (j : ℤ) (sem : Semaphore) :
    Leaves g k (k.setSemaphore j sem) := of_sched rfl rfl fun _ _ => rfl

/-- Somebody becomes ready, or somebody else is blocked. -/
theorem setState (hring : RingInvariant k.sched) {state : ProcessState}
    (hp : p ∈ g.members → state = .ready) : Leaves g k (k.setState p state) := by
  refine ⟨fun _ _ => rfl, rfl, fun r _ hin => ?_, fun r hr state' hready _ hin => ?_⟩
  · rw [Kernel.setState_sched, pids_changeProcessState hring]
    exact hin
  · rw [Kernel.setState_sched] at hin
    by_cases hrp : r = p
    · subst hrp
      obtain rfl := hp hr
      have hmem := hin.mem_pids
      rw [pids_changeProcessState hring] at hmem
      have hself := inState_changeProcessState_self hring r .ready hmem
      have hring' := (changeProcessState_spec hring r .ready).1
      exact absurd (InState.unique hring' hin hself) hready
    · exact (inState_changeProcessState_ne hring p state hrp state').mp hin

/-- The processes are scheduled anew. -/
theorem schedule (hring : RingInvariant k.sched) {sched : State}
    (hs : Scheduler.schedule k.sched = some sched) :
    Leaves g k { k with sched := sched } := by
  obtain ⟨-, hperm, -⟩ := schedule_view hring hs
  refine ⟨fun _ _ => rfl, rfl, fun p _ hin => ?_, ?_⟩
  · exact hperm.mem_iff.mpr hin
  · intro p _ state hready hrunning hin
    exact (inState_schedule hring hs p hready hrunning).mp hin

theorem yield (hring : RingInvariant k.sched) (hy : k.yield = some k') : Leaves g k k' := by
  obtain ⟨sched, hs, rfl⟩ := Option.map_eq_some_iff.mp hy
  rw [Scheduler.yield, if_neg hring.current_ne_null] at hs
  exact schedule hring hs

theorem freeMutex {k k' : Kernel} (hring : RingInvariant k.sched)
    (hcard : (k.mutexes m).cardinalBlocked = (waitersOf (k.mutexes m).queue).length)
    (hm : m ∉ g.locks) (hf : freeMutex m k = some k') : Leaves g k k' := by
  rcases freeMutex_cases hcard hf with ⟨-, rfl⟩ | ⟨-, p, queue, -, rfl⟩ | ⟨-, -, rfl⟩
  · exact refl g k'
  · exact (setState hring fun _ => rfl).trans (setMutex _ _ hm)
  · exact setMutex k _ hm

theorem signal {k k' : Kernel} {j : ℤ} (hring : RingInvariant k.sched)
    (hcard : (k.semaphores j).cardinalBlocked = (waitersOf (k.semaphores j).queue).length)
    (hs : signal j k = some k') : Leaves g k k' := by
  rcases signal_cases hcard hs with ⟨-, rfl⟩ | ⟨-, p, queue, -, -, rfl⟩ | ⟨-, -, -, rfl⟩
  · exact refl g k'
  · exact (setState hring fun _ => rfl).trans (setSemaphore _ j _)
  · exact setSemaphore k j _

theorem createProcess (hring : RingInvariant k.sched) {page : ℕ} (hp : FreshPage k.sched page) :
    Leaves g k { k with sched := (Scheduler.createProcess page k.sched).2 } := by
  refine ⟨fun _ _ => rfl, rfl, fun p _ hin => ?_, fun p _ state hready _ hin => ?_⟩
  · exact (pids_createProcess hring hp).mem_iff.mpr (List.mem_cons_of_mem _ hin)
  · exact (inState_createProcess hring hp p hready).mp hin

theorem removeProcess (hring : RingInvariant k.sched) {pid : ℤ} (hp : pid ∉ g.members)
    {sched : State} (hs : Scheduler.removeProcess pid k.sched = some sched)
    (hcur : ¬ Blocked k.sched k.pid) : Leaves g k { k with sched := sched } := by
  by_cases hpid : pid = 0
  · rw [Scheduler.removeProcess, if_pos hpid, Scheduler.yield,
      if_neg hring.current_ne_null] at hs
    exact schedule hring hs
  · obtain ⟨-, hpids, -⟩ := removeProcess_view hring hpid hs hcur
    refine ⟨fun _ _ => rfl, rfl, fun p hmem hin => ?_, ?_⟩
    · refine (hpids p).mpr ⟨hin, ?_⟩
      rintro rfl
      exact hp hmem
    · intro p _ state hready hrunning hin
      exact ((inState_removeProcess hring hpid hs p hready hrunning).mp hin).1

end Leaves

end

/-! ### The operations -/

theorem ringInvariant_freeMutex {k k' : Kernel} {m : ℤ} (hring : RingInvariant k.sched)
    (hcard : (k.mutexes m).cardinalBlocked = (waitersOf (k.mutexes m).queue).length)
    (hf : freeMutex m k = some k') : RingInvariant k'.sched := by
  rcases freeMutex_cases hcard hf with ⟨-, rfl⟩ | ⟨-, p, queue, -, rfl⟩ | ⟨-, -, rfl⟩
  · exact hring
  · exact (changeProcessState_spec hring p .ready).1
  · exact hring

/-- The operation has nothing to do with the group. The process that it is an operation of is
no member, when it may be blocked there. -/
def Op.Avoids (g : Group) (s : Machine) : Op → Prop
  | .lock mutex garbage _ => mutex ∉ g.locks ∧ garbage ∉ g.members ∧ s.pid ∉ g.members
  | .free mutex => mutex ∉ g.locks
  | .close mutex => mutex ∉ g.locks
  | .getMutexEnd _ =>
    s.kernel.adminMutex ∉ g.locks ∧ ∀ m ∈ g.locks, (s.kernel.mutexes m).used = true
  | .removeProcess pid => pid ∉ g.members
  | .waitEnd j =>
    j ∉ g.semaphores ∧ (s.kernel.semaphores j).mutex ∉ g.locks ∧ s.pid ∉ g.members
  | .signal j => j ∉ g.semaphores
  | .wake => ∀ j ∈ g.semaphores, ∀ n, s.pending s.pid ≠ some (.sleeping j n)
  | .reserve .. => False
  | .createSemaphoreEnd .. => False
  | .closeSemaphore _ => False
  | _ => True

section

variable {g : Group} {s t u : Machine} {garbage : ℤ}

theorem Spares.refl (g : Group) (s : Machine) : Spares g s s :=
  ⟨fun _ _ => .of_semaphores rfl rfl rfl, Leaves.refl g _⟩

theorem Untouched.trans {j : ℤ} (h : Untouched j s t) (h' : Untouched j t u) : Untouched j s u :=
  ⟨h'.counter.trans h.counter, h'.waiters.trans h.waiters, h'.account.trans h.account,
    fun p n => (h'.pending p n).trans (h.pending p n)⟩

theorem Spares.trans (h : Spares g s t) (h' : Spares g t u) : Spares g s u :=
  ⟨fun j hj => (h.untouched j hj).trans (h'.untouched j hj), h.leaves.trans h'.leaves⟩

/-- `lockMutex` blocks the process that calls it, or the one that the garbage names. -/
theorem Leaves.lock (h : Settled s) {mutex : ℤ} {rest : Rest} {returned : Bool}
    (hop : (Op.lock mutex garbage rest).Avoids g s)
    (hlock : s.lock mutex garbage rest = some (returned, t)) : Leaves g s.kernel t.kernel := by
  obtain ⟨hmutex, hgarbage, hpid⟩ := hop
  have hring := h.parked.ring
  obtain ⟨⟨b, k'⟩, hk, hpair⟩ := Option.map_eq_some_iff.mp hlock
  have hkernel : t.kernel = k' := by
    cases b with
    | true =>
      obtain ⟨-, rfl⟩ := Prod.mk.inj hpair
      rfl
    | false =>
      obtain ⟨-, rfl⟩ := Prod.mk.inj hpair
      rfl
  rw [hkernel]
  rcases lockMutex_cases h.parked.current_range.1 (h.parked.mutex_cardinal mutex) hk with
    ⟨-, -, rfl⟩ | ⟨-, -, -, -, rfl⟩ | ⟨-, -, -, -, queue, -, hy⟩ | ⟨-, -, -, -, hy⟩
  · exact Leaves.refl g _
  · exact Leaves.setMutex _ _ hmutex
  · set k₁ := s.kernel.setMutex mutex { s.kernel.mutexes mutex with
      queue := queue
      cardinalBlocked := (s.kernel.mutexes mutex).cardinalBlocked + 1 }
    have hset : Leaves g s.kernel k₁ := Leaves.setMutex _ _ hmutex
    have hblock : Leaves g k₁ (k₁.setState s.kernel.pid .blocked) :=
      Leaves.setState (k := k₁) hring fun hp => absurd hp hpid
    exact (hset.trans hblock).trans (Leaves.yield (changeProcessState_spec hring _ _).1 hy)
  · have hblock : Leaves g s.kernel (s.kernel.setState garbage .blocked) :=
      Leaves.setState hring fun hp => absurd hp hgarbage
    exact hblock.trans (Leaves.yield (changeProcessState_spec hring _ _).1 hy)

theorem Leaves.getMutexEnd (h : Settled s) {name : ℕ} (hop : (Op.getMutexEnd name).Avoids g s)
    (hrun : s.getMutexEnd name = some t) : Leaves g s.kernel t.kernel := by
  obtain ⟨hadmin, hused⟩ := hop
  obtain ⟨⟨i, k'⟩, hk, rfl⟩ := Option.map_eq_some_iff.mp hrun
  have hcard := h.parked.mutex_cardinal s.kernel.adminMutex
  rcases getMutexRest_cases hk with ⟨-, hf⟩ | ⟨-, -, -, hf⟩ | ⟨-, hspot, hf⟩
  · exact Leaves.freeMutex h.parked.ring hcard hadmin hf
  · exact Leaves.freeMutex h.parked.ring hcard hadmin hf
  · -- a slot that is not in use is none of the locks
    have hfree : (s.kernel.mutexes i).used = false := by
      simpa using (firstIndex_spec hspot).2.2
    have hi : i ∉ g.locks := fun hi => by
      rw [hused i hi] at hfree
      exact absurd hfree (by simp)
    have hset := Leaves.setMutex s.kernel
      { s.kernel.mutexes i with used := true, name := name, pidCreator := s.kernel.pid } hi
    have hparked := h.parked.setMutex (i := i) (m := { s.kernel.mutexes i with
      used := true, name := name, pidCreator := s.kernel.pid }) rfl rfl
    exact hset.trans (Leaves.freeMutex hparked.ring (hparked.mutex_cardinal _) hadmin hf)

/-- The running process is blocked, frees a mutex and gives up the processor. -/
theorem Leaves.block_free_yield {k k₁ k' : Kernel} {pid mutex : ℤ} (hring : RingInvariant k.sched)
    (hcard : (k.mutexes mutex).cardinalBlocked = (waitersOf (k.mutexes mutex).queue).length)
    (hpid : pid ∉ g.members) (hmutex : mutex ∉ g.locks)
    (hf : Sync.freeMutex mutex (k.setState pid .blocked) = some k₁) (hy : k₁.yield = some k') :
    Leaves g k k' := by
  have hring' : RingInvariant (k.setState pid .blocked).sched :=
    (changeProcessState_spec hring pid .blocked).1
  have hblock : Leaves g k (k.setState pid .blocked) :=
    Leaves.setState hring fun hp => absurd hp hpid
  have hfree : Leaves g (k.setState pid .blocked) k₁ := Leaves.freeMutex hring' hcard hmutex hf
  have hyield : Leaves g k₁ k' := Leaves.yield (ringInvariant_freeMutex hring' hcard hf) hy
  exact (hblock.trans hfree).trans hyield

theorem Leaves.waitEnd (h : Settled s) {j : ℤ} (hop : (Op.waitEnd j).Avoids g s)
    (hrun : s.waitEnd j = some t) : Leaves g s.kernel t.kernel := by
  obtain ⟨-, hmutex, hpid⟩ := hop
  have hring := h.parked.ring
  have hcard := h.parked.mutex_cardinal (s.kernel.semaphores j).mutex
  obtain ⟨⟨b, k'⟩, hk, ht⟩ := Option.map_eq_some_iff.mp hrun
  have hkernel : t.kernel = k' := by
    cases b with
    | true => rw [← ht]; rfl
    | false => rw [← ht]; rfl
  rw [hkernel]
  have hdecrement : Leaves g s.kernel (decrement j s.kernel) := Leaves.setSemaphore _ j _
  rcases waitRest_cases h.parked.current_range.1 hk with
    ⟨-, -, hf⟩ | ⟨-, -, -, queue, k₁, -, hf, hy⟩ | ⟨-, -, -, k₁, hf, hy⟩
  · exact hdecrement.trans (Leaves.freeMutex (k := decrement j s.kernel) hring hcard hmutex hf)
  · exact (Leaves.setSemaphore s.kernel j _).trans
      (Leaves.block_free_yield hring hcard hpid hmutex hf hy)
  · exact hdecrement.trans
      (Leaves.block_free_yield (k := decrement j s.kernel) hring hcard hpid hmutex hf hy)

/-- An operation that has nothing to do with the group leaves it alone. -/
theorem op_sparesGroup (op : Op) (h : Settled s) (henabled : op.Enabled s) (hop : op.Avoids g s)
    (hrun : op.perform s = some t) : Spares g s t := by
  refine ⟨fun j hj => op_untouched h henabled ?_ hrun, ?_⟩
  · cases op with
    | waitEnd i =>
      rintro rfl
      exact hop.1 hj
    | signal i =>
      rintro rfl
      exact hop hj
    | wake =>
      rintro ⟨n, hn⟩
      exact hop j hj n hn
    | createSemaphoreEnd index name start pid => exact hop.elim
    | _ => exact id
  · have hring := h.parked.ring
    cases op with
    | switch =>
      obtain ⟨k', hk, rfl⟩ := Option.map_eq_some_iff.mp hrun
      exact Leaves.yield hring hk
    | createProcess page =>
      obtain rfl := Option.some.inj hrun
      exact Leaves.createProcess hring henabled
    | removeProcess pid =>
      obtain ⟨sched, hs, rfl⟩ := Option.map_eq_some_iff.mp hrun
      exact Leaves.removeProcess hring hop hs h.current
    | lock mutex garbage rest =>
      obtain ⟨⟨returned, u⟩, hlock, rfl⟩ := Option.map_eq_some_iff.mp hrun
      exact Leaves.lock h hop hlock
    | free mutex =>
      obtain ⟨k', hk, rfl⟩ := Option.map_eq_some_iff.mp hrun
      exact Leaves.freeMutex hring (h.parked.mutex_cardinal mutex) hop hk
    | getMutexEnd name => exact Leaves.getMutexEnd h hop hrun
    | close mutex =>
      obtain ⟨k', hk, rfl⟩ := Option.map_eq_some_iff.mp hrun
      rcases closeMutex_cases hk with rfl | ⟨-, -, rfl⟩
      · exact Leaves.refl g _
      · exact Leaves.setMutex _ _ hop
    | waitEnd i => exact Leaves.waitEnd h hop hrun
    | signal i =>
      obtain ⟨k', hk, rfl⟩ := Option.map_eq_some_iff.mp hrun
      exact Leaves.signal hring (h.parked.semaphore_cardinal i) hk
    | wake =>
      obtain rfl := Option.some.inj hrun
      rw [wake_kernel]
      exact Leaves.refl g _
    | store strings =>
      obtain rfl := Option.some.inj hrun
      exact Leaves.of_sched rfl rfl fun _ _ => rfl
    | reserve index name => exact hop.elim
    | createSemaphoreEnd index name start pid => exact hop.elim
    | closeSemaphore i => exact hop.elim

end

/-! ### Whole calls -/

/-- The rest of a call that neither creates a semaphore nor waits at one of the group, and does
not use its locks. -/
def Rest.Avoids (g : Group) (k : Kernel) : Rest → Prop
  | .wait j => j ∉ g.semaphores ∧ (k.semaphores j).mutex ∉ g.locks
  | .semCreate _ _ => False
  | .createSemaphore _ _ _ _ => False
  | .lockMutex => True
  | .getMutex _ => True

def Pending.Avoids (g : Group) (k : Kernel) : Pending → Prop
  | .locking _ rest => rest.Avoids g k
  | .sleeping j _ => j ∉ g.semaphores

/-- The call has nothing to do with the group. -/
def Action.Avoids (g : Group) (s : Machine) : Action → Prop
  | .removeProcess pid => pid ∉ g.members
  | .lockMutex mutex garbage => mutex ∉ g.locks ∧ garbage ∉ g.members
  | .freeMutex mutex => mutex ∉ g.locks
  | .closeMutex mutex => mutex ∉ g.locks
  | .getMutex _ garbage => garbage ∉ g.members
  | .wait j garbage => (Rest.wait j).Avoids g s.kernel ∧ garbage ∉ g.members
  | .signal j => j ∉ g.semaphores
  | .resume _ => ∀ c ∈ s.pending s.pid, c.Avoids g s.kernel
  | .semCreate _ _ _ => False
  | .semClose _ => False
  | .store _ => False
  | .tick => True
  | .createProcess _ => True

instance (g : Group) (k : Kernel) : (rest : Rest) → Decidable (rest.Avoids g k)
  | .wait _ => inferInstanceAs (Decidable (_ ∧ _))
  | .semCreate _ _ | .createSemaphore _ _ _ _ => .isFalse id
  | .lockMutex | .getMutex _ => .isTrue trivial

instance (g : Group) (k : Kernel) : (c : Pending) → Decidable (c.Avoids g k)
  | .locking _ rest => inferInstanceAs (Decidable (rest.Avoids g k))
  | .sleeping j _ => inferInstanceAs (Decidable (j ∉ g.semaphores))

instance (g : Group) (s : Machine) : (a : Action) → Decidable (a.Avoids g s)
  | .removeProcess pid => inferInstanceAs (Decidable (pid ∉ g.members))
  | .lockMutex _ _ | .wait _ _ => inferInstanceAs (Decidable (_ ∧ _))
  | .freeMutex mutex | .closeMutex mutex => inferInstanceAs (Decidable (mutex ∉ g.locks))
  | .getMutex _ garbage => inferInstanceAs (Decidable (garbage ∉ g.members))
  | .signal j => inferInstanceAs (Decidable (j ∉ g.semaphores))
  | .resume _ => inferInstanceAs (Decidable (∀ c ∈ s.pending s.pid, c.Avoids g s.kernel))
  | .semCreate _ _ _ | .semClose _ | .store _ => .isFalse id
  | .tick | .createProcess _ => .isTrue trivial

/-- The locks are in use, and `adminMutex` is none of them. -/
structure Kernel.Guards (g : Group) (k : Kernel) : Prop where
  admin : k.adminMutex ∉ g.locks
  used : ∀ m ∈ g.locks, (k.mutexes m).used = true

section

variable {g : Group} {s t u : Machine} {garbage : ℤ}

theorem Kernel.Guards.leaves {k k' : Kernel} (h : k.Guards g) (hl : Leaves g k k') :
    k'.Guards g := by
  refine ⟨by rw [hl.admin]; exact h.admin, fun m hm => ?_⟩
  rw [hl.locks m hm]
  exact h.used m hm

theorem proceed_sparesGroup {rest : Rest} (h : Settled s) (hguards : s.kernel.Guards g)
    (hidle : s.idle = true) (hpid : s.pid ∉ g.members) (hrest : rest.Avoids g s.kernel)
    (hrun : s.proceed garbage rest = some t) : Spares g s t := by
  cases rest with
  | lockMutex =>
    obtain rfl := Option.some.inj hrun
    exact Spares.refl g _
  | getMutex name =>
    exact op_sparesGroup (.getMutexEnd name) h trivial ⟨hguards.admin, hguards.used⟩ hrun
  | wait j =>
    exact op_sparesGroup (.waitEnd j) h hidle ⟨hrest.1, hrest.2, hpid⟩ hrun
  | semCreate name start => exact hrest.elim
  | createSemaphore index name start pid => exact hrest.elim

theorem Rest.Avoids.congr {rest : Rest} {k k' : Kernel} (h : rest.Avoids g k)
    (hsem : k'.semaphores = k.semaphores) : rest.Avoids g k' := by
  cases rest with
  | wait j =>
    refine ⟨h.1, ?_⟩
    rw [hsem]
    exact h.2
  | _ => exact h

theorem lockThen_sparesGroup {mutex : ℤ} {rest : Rest} (h : Settled s) (hguards : s.kernel.Guards g)
    (hidle : s.idle = true) (hpid : s.pid ∉ g.members) (hmutex : mutex ∉ g.locks)
    (hgarbage : garbage ∉ g.members) (hrest : rest.Avoids g s.kernel)
    (hrun : s.lockThen mutex garbage rest = some t) : Spares g s t := by
  have hspares : ∀ {returned u}, s.lock mutex garbage rest = some (returned, u) →
      Spares g s u := fun hlock =>
    op_sparesGroup (.lock mutex garbage rest) h hidle ⟨hmutex, hgarbage, hpid⟩
      (by rw [Op.perform, hlock, Option.map_some])
  rcases lockThen_cases hrun with hlock | ⟨u, hlock, hrun⟩
  · exact hspares hlock
  · have hu := hspares hlock
    obtain ⟨hsched, hsem, hpending⟩ := lock_returned hlock
    have hupid : u.pid = s.pid := congrArg getCurrentPid hsched
    refine hu.trans (proceed_sparesGroup (h.lock hidle hlock).1 (hguards.leaves hu.leaves)
      (idle_of_sched hsched hpending hidle) ?_ (hrest.congr hsem) hrun)
    rwa [hupid]

theorem resume_spares (h : Settled s) (hguards : s.kernel.Guards g) (hpid : s.pid ∉ g.members)
    (hspares : (Action.resume garbage).Avoids g s) (hrun : s.resume garbage = some t) :
    Spares g s t := by
  rcases resume_cases hrun with ⟨mutex, rest, hpending, hrest⟩ | ⟨j, n, hpending, rfl⟩
  · have hidle : s.idle = false := by simp [Machine.idle, hpending]
    have hwake : Spares g s s.wake := op_sparesGroup .wake h hidle
      (fun j _ n he => by simp [hpending] at he) rfl
    have hrestSpares := hspares (.locking mutex rest) hpending
    refine hwake.trans (proceed_sparesGroup h.wake (hguards.leaves hwake.leaves) wake_idle ?_
      (Rest.Avoids.congr hrestSpares (by rw [wake_kernel])) hrest)
    rwa [wake_pid]
  · have hidle : s.idle = false := by simp [Machine.idle, hpending]
    have hj := hspares (.sleeping j n) hpending
    refine op_sparesGroup .wake h hidle (fun i hi m he => ?_) rfl
    rw [hpending] at he
    obtain ⟨rfl, -⟩ := Pending.sleeping.inj (Option.some.inj he)
    exact hj hi

/-- A step of a process that is no member leaves the group alone, when it has nothing to do
with it; so does the clock. -/
theorem step_sparesGroup {a : Action} (h : Settled s) (hguards : s.kernel.Guards g)
    (hpid : a ≠ .tick → s.pid ∉ g.members) (hspares : a.Avoids g s)
    (hstep : step s a = some t) : Spares g s t := by
  cases a with
  | resume garbage => exact resume_spares h hguards (hpid (by simp)) hspares hstep
  | tick =>
    simp only [step] at hstep
    split_ifs at hstep
    exact op_sparesGroup .switch h trivial trivial hstep
  | createProcess page =>
    simp only [step] at hstep
    split_ifs at hstep with hc
    exact op_sparesGroup (.createProcess page) h hc.2 trivial hstep
  | removeProcess pid =>
    simp only [step] at hstep
    split_ifs at hstep
    exact op_sparesGroup (.removeProcess pid) h trivial hspares hstep
  | lockMutex mutex garbage =>
    obtain ⟨hidle, hrun⟩ := step_call hstep
    have hrest : Rest.lockMutex.Avoids g s.kernel := trivial
    exact lockThen_sparesGroup h hguards hidle (hpid (by simp)) hspares.1 hspares.2 hrest hrun
  | freeMutex mutex =>
    obtain ⟨-, hrun⟩ := step_call hstep
    exact op_sparesGroup (.free mutex) h trivial hspares hrun
  | getMutex name garbage =>
    obtain ⟨hidle, hrun⟩ := step_call hstep
    have hrest : (Rest.getMutex name).Avoids g s.kernel := trivial
    exact lockThen_sparesGroup h hguards hidle (hpid (by simp)) hguards.admin hspares hrest hrun
  | closeMutex mutex =>
    obtain ⟨-, hrun⟩ := step_call hstep
    exact op_sparesGroup (.close mutex) h trivial hspares hrun
  | wait j garbage =>
    obtain ⟨hidle, hrun⟩ := step_call hstep
    simp only [Machine.call, Machine.wait] at hrun
    split_ifs at hrun
    · exact lockThen_sparesGroup h hguards hidle (hpid (by simp)) hspares.1.2 hspares.2 hspares.1
        hrun
    · rw [← Option.some.inj hrun]
      exact Spares.refl g s
  | signal j =>
    obtain ⟨-, hrun⟩ := step_call hstep
    exact op_sparesGroup (.signal j) h trivial hspares hrun
  | semCreate name start garbage => exact hspares.elim
  | semClose j => exact hspares.elim
  | store strings => exact hspares.elim

end

end GatOS.Sync
