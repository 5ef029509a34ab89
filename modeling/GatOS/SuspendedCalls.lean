import GatOS.AdminSlot

/-!
# The rests of suspended calls

Calls are suspended in `lockMutex` and at the end of `wait`. The two mutexes of the kernel keep
their places in the table.
-/
namespace GatOS.Sync
open Scheduler Transition

/-- `adminMutex` and `semaphoreMutex` are the first two mutexes. The second is in use, and no
process that runs has created it. -/
structure KernelMutexes (k : Kernel) : Prop where
  admin : k.adminMutex = 0
  semaphore : k.semaphoreMutex = 1
  used : (k.mutexes 1).used = true
  creator : (k.mutexes 1).pidCreator = -1

/-- The calls that a step can suspend. -/
structure CoversSuspended (P : Pending → Prop) : Prop where
  lockMutex : ∀ m, P (.locking m .lockMutex)
  getMutex : ∀ name, P (.locking 0 (.getMutex name))
  semCreate : ∀ name start, P (.locking 1 (.semCreate name start))
  createSemaphore : ∀ index name start pid, 0 ≤ index →
    P (.locking 0 (.createSemaphore index name start pid))
  wait : ∀ m (j : ℤ), 0 ≤ j → j < maxSemaphores → P (.locking m (.wait j))
  sleeping : ∀ j g, P (.sleeping j g)

/-- Every suspended call meets `P`. -/
def AllSuspended (P : Pending → Prop) (s : Machine) : Prop := ∀ p c, s.pending p = some c → P c

section

variable {k k' : Kernel} {s t : Machine} {i j m garbage : ℤ} {name : ℕ}

/-! ### The mutexes of the kernel -/

theorem lockMutex_semaphoreMutex {returned : Bool}
    (h : lockMutex m garbage k = some (returned, k')) : k'.semaphoreMutex = k.semaphoreMutex := by
  have hadd : ∀ k : Kernel,
      (addToBlocked m k.pid k).semaphoreMutex = k.semaphoreMutex := fun k => by
    unfold addToBlocked
    dsimp only
    split <;> rfl
  unfold lockMutex at h
  dsimp only at h
  split_ifs at h with hneg hvalid hlock hfull
  · obtain ⟨-, rfl⟩ := Prod.mk.inj (Option.some.inj h)
    rfl
  · obtain ⟨k₁, hyield, hpair⟩ := Option.map_eq_some_iff.mp h
    obtain ⟨-, rfl⟩ := Prod.mk.inj hpair
    rw [(yield_tables hyield).2.2.2]
    rfl
  · obtain ⟨k₁, hyield, hpair⟩ := Option.map_eq_some_iff.mp h
    obtain ⟨-, rfl⟩ := Prod.mk.inj hpair
    rw [(yield_tables hyield).2.2.2]
    exact hadd _
  · obtain ⟨-, rfl⟩ := Prod.mk.inj (Option.some.inj h)
    rfl

theorem freeMutex_semaphoreMutex (h : freeMutex m k = some k') :
    k'.semaphoreMutex = k.semaphoreMutex := by
  have hunblock : (unblockProcess m k).semaphoreMutex = k.semaphoreMutex := by
    unfold unblockProcess
    dsimp only
    split <;> rfl
  unfold freeMutex at h
  split_ifs at h with hneg hvalid hpos
  · obtain rfl := Option.some.inj h
    exact hunblock
  · obtain rfl := Option.some.inj h
    rfl
  · exact Option.some.inj h ▸ rfl

theorem getMutexRest_semaphoreMutex (h : getMutexRest name k = some (i, k')) :
    k'.semaphoreMutex = k.semaphoreMutex := by
  rcases getMutexRest_cases h with ⟨-, hfree⟩ | ⟨-, -, -, hfree⟩ | ⟨-, -, hfree⟩
  · exact freeMutex_semaphoreMutex hfree
  · exact freeMutex_semaphoreMutex hfree
  · have hsame := freeMutex_semaphoreMutex hfree
    exact hsame

theorem waitRest_semaphoreMutex {returned : Bool} (h : waitRest j k = some (returned, k')) :
    k'.semaphoreMutex = k.semaphoreMutex := by
  have hadd : ∀ k : Kernel, (addToSemBlocked j k.pid k).semaphoreMutex = k.semaphoreMutex :=
    fun k => by
      unfold addToSemBlocked
      dsimp only
      split <;> rfl
  unfold waitRest at h
  dsimp only at h
  split_ifs at h with hpos
  · obtain ⟨k₁, hfree, hpair⟩ := Option.map_eq_some_iff.mp h
    obtain ⟨-, rfl⟩ := Prod.mk.inj hpair
    have hsame := freeMutex_semaphoreMutex hfree
    exact hsame
  · obtain ⟨k₁, hfree, hrest⟩ := Option.bind_eq_some_iff.mp h
    obtain ⟨k₂, hyield, hpair⟩ := Option.map_eq_some_iff.mp hrest
    obtain ⟨-, rfl⟩ := Prod.mk.inj hpair
    rw [(yield_tables hyield).2.2.2, freeMutex_semaphoreMutex hfree]
    exact hadd _

theorem signal_semaphoreMutex (h : signal j k = some k') :
    k'.semaphoreMutex = k.semaphoreMutex := by
  have hunblock : (unblockProcessSemaphore j k).semaphoreMutex = k.semaphoreMutex := by
    unfold unblockProcessSemaphore
    dsimp only
    split <;> rfl
  unfold signal at h
  dsimp only at h
  split_ifs at h with hneg hvalid hpos
  · obtain rfl := Option.some.inj h
    exact hunblock
  · obtain rfl := Option.some.inj h
    rfl
  · exact Option.some.inj h ▸ rfl

/-- No operation changes which mutex it is. -/
theorem op_semaphoreMutex {op : Op} (h : op.perform s = some t) :
    t.kernel.semaphoreMutex = s.kernel.semaphoreMutex := by
  cases op with
  | switch =>
    obtain ⟨k, hk, rfl⟩ := Option.map_eq_some_iff.mp h
    exact (yield_tables hk).2.2.2
  | createProcess page => exact Option.some.inj h ▸ rfl
  | removeProcess pid =>
    obtain ⟨sched, -, rfl⟩ := Option.map_eq_some_iff.mp h
    rfl
  | lock mutex garbage rest =>
    obtain ⟨⟨b, t'⟩, hlock, rfl⟩ := Option.map_eq_some_iff.mp h
    obtain ⟨⟨returned, k⟩, hk, hpair⟩ := Option.map_eq_some_iff.mp hlock
    have hsame := lockMutex_semaphoreMutex hk
    cases returned with
    | true =>
      obtain ⟨-, rfl⟩ := Prod.mk.inj hpair
      exact hsame
    | false =>
      obtain ⟨-, rfl⟩ := Prod.mk.inj hpair
      exact hsame
  | free mutex =>
    obtain ⟨k, hk, rfl⟩ := Option.map_eq_some_iff.mp h
    exact freeMutex_semaphoreMutex hk
  | getMutexEnd name =>
    obtain ⟨⟨i, k⟩, hk, rfl⟩ := Option.map_eq_some_iff.mp h
    exact getMutexRest_semaphoreMutex hk
  | close m =>
    obtain ⟨k, hk, rfl⟩ := Option.map_eq_some_iff.mp h
    rcases closeMutex_cases hk with rfl | ⟨-, -, rfl⟩
    · rfl
    · rfl
  | reserve index name => exact Option.some.inj h ▸ rfl
  | createSemaphoreEnd index name start pid =>
    obtain ⟨k, hk, rfl⟩ := Option.map_eq_some_iff.mp h
    obtain ⟨⟨i, k₁⟩, hget, hfree⟩ := Option.bind_eq_some_iff.mp hk
    have hsame := freeMutex_semaphoreMutex hfree
    exact (show k.semaphoreMutex = k₁.semaphoreMutex from hsame).trans
      (getMutexRest_semaphoreMutex hget)
  | closeSemaphore j =>
    obtain ⟨k, hk, rfl⟩ := Option.map_eq_some_iff.mp h
    rcases semClose_cases hk with rfl | ⟨-, -, rfl⟩
    · rfl
    · rfl
  | waitEnd j =>
    obtain ⟨⟨returned, k⟩, hk, rfl⟩ := Option.map_eq_some_iff.mp h
    have hsame := waitRest_semaphoreMutex hk
    cases returned with
    | true => exact hsame
    | false => exact hsame
  | signal j =>
    obtain ⟨k, hk, rfl⟩ := Option.map_eq_some_iff.mp h
    exact signal_semaphoreMutex hk
  | wake =>
    obtain rfl := Option.some.inj h
    rw [wake_kernel]
  | store strings => exact Option.some.inj h ▸ rfl

theorem KernelMutexes.op {op : Op} (h : KernelMutexes s.kernel) (hs : Settled s)
    (hrun : op.perform s = some t) : KernelMutexes t.kernel := by
  have hsem := (op_semaphoreMutex hrun).trans h.semaphore
  by_cases hclose : ∃ m, op = .close m
  · obtain ⟨m, rfl⟩ := hclose
    obtain ⟨k, hk, rfl⟩ := Option.map_eq_some_iff.mp hrun
    rcases closeMutex_cases hk with rfl | ⟨-, hcreator, rfl⟩
    · exact h
    · -- the process that closes a mutex has a number
      have hne : m ≠ 1 := by
        intro he
        have hrange := hs.parked.current_range.1
        rw [he, h.creator] at hcreator
        omega
      refine ⟨h.admin, hsem, ?_, ?_⟩
      · exact (congrArg Mutex.used (Kernel.setMutex_ne _ _ hne.symm)).trans h.used
      · exact (congrArg Mutex.pidCreator (Kernel.setMutex_ne _ _ hne.symm)).trans h.creator
  · have hkept := op_slotsKept (fun m hm => hclose ⟨m, hm⟩) hrun
    obtain ⟨hused, hcreator⟩ := hkept.slot 1 h.used
    exact ⟨hkept.admin.trans h.admin, hsem, hused, hcreator.trans h.creator⟩

theorem IsBoot.kernelMutexes (h : IsBoot s) : KernelMutexes s.kernel := by
  have hb := h.booted
  obtain ⟨slot, strings, name, initPage, shellPage, hname, -, -, -, hboot, -, -⟩ := h
  refine ⟨hb.adminMutex, hb.semaphoreMutex, (hb.used 1).mpr (Or.inr rfl), ?_⟩
  rw [boot, initializeSemaphores_eq slot hname, Option.map_some] at hboot
  rw [← Option.some.inj hboot]
  rfl

theorem reachable_kernelMutexes (h : machineSystem.Reachable s) : KernelMutexes s.kernel :=
  (reachable_of_ops (P := fun s => KernelMutexes s.kernel) (fun _ hs => hs.kernelMutexes)
    (fun _ _ _ hs hk _ hrun => hk.op hs hrun) h).2

/-! ### What is suspended -/

theorem isValidMutex_lt (h : isValidMutex m k = true) : m < maxMutexes := by
  unfold isValidMutex at h
  split_ifs at h with hge
  exact not_le.mp hge

theorem isValidSemaphore_lt (h : isValidSemaphore j k = true) : j < maxSemaphores := by
  unfold isValidSemaphore at h
  split_ifs at h with hge
  exact not_le.mp hge

variable {P : Pending → Prop}

theorem AllSuspended.suspend (h : AllSuspended P s) {c : Pending} (hc : P c) (p : ℤ)
    (ht : t.pending = assign s.pending p (some c)) : AllSuspended P t := by
  intro q d hd
  rw [ht] at hd
  by_cases hq : q = p
  · rw [hq, assign_self] at hd
    exact Option.some.inj hd ▸ hc
  · rw [assign_ne _ _ hq] at hd
    exact h q d hd

theorem AllSuspended.lock (h : AllSuspended P s) {rest : Rest} (hrest : P (.locking m rest))
    {returned : Bool} (hlock : s.lock m garbage rest = some (returned, t)) : AllSuspended P t := by
  obtain ⟨⟨b, k'⟩, -, hpair⟩ := Option.map_eq_some_iff.mp hlock
  cases b with
  | true =>
    obtain ⟨-, rfl⟩ := Prod.mk.inj hpair
    exact h
  | false =>
    obtain ⟨-, rfl⟩ := Prod.mk.inj hpair
    exact h.suspend (c := .locking m rest) hrest s.pid rfl

theorem AllSuspended.wake (h : AllSuspended P s) : AllSuspended P s.wake := by
  intro p c hc
  rw [wake_pending] at hc
  by_cases hp : p = s.pid
  · rw [hp, assign_self] at hc
    simp at hc
  · rw [assign_ne _ _ hp] at hc
    exact h p c hc

theorem lock_adminMutex {rest : Rest} {returned : Bool}
    (h : s.lock m garbage rest = some (returned, t)) :
    t.kernel.adminMutex = s.kernel.adminMutex := by
  have hop : (Op.lock m garbage rest).perform s = some t := by rw [Op.perform, h, Option.map_some]
  have hclose : ∀ i, Op.lock m garbage rest ≠ .close i := fun i hi => Op.noConfusion hi
  exact (op_slotsKept hclose hop).admin

variable (hP : CoversSuspended P)
include hP

theorem AllSuspended.waitEnd (h : AllSuspended P s) (hrun : s.waitEnd j = some t) :
    AllSuspended P t := by
  obtain ⟨⟨returned, k'⟩, -, rfl⟩ := Option.map_eq_some_iff.mp hrun
  cases returned with
  | true => exact h
  | false =>
    exact h.suspend (c := .sleeping j (s.ledger.generation j)) (hP.sleeping _ _) s.pid rfl

theorem AllSuspended.semCreateEnd (h : AllSuspended P s) (hadmin : s.kernel.adminMutex = 0)
    {start : ℤ} (hrun : s.semCreateEnd name start garbage = some t) : AllSuspended P t := by
  unfold Machine.semCreateEnd at hrun
  split at hrun
  · rw [← Option.some.inj hrun]
    exact h
  split at hrun
  · obtain ⟨k', -, rfl⟩ := Option.map_eq_some_iff.mp hrun
    exact h
  rename_i index hindex
  have hreserve : AllSuspended P (s.reserve index name) := h
  obtain ⟨⟨returned, u⟩, hlock, hrest⟩ := Option.bind_eq_some_iff.mp hrun
  have hadmin' : (s.reserve index name).kernel.adminMutex = 0 := hadmin
  rw [hadmin'] at hlock
  have hnonneg := (firstIndex_spec hindex).1
  have hu := hreserve.lock (hP.createSemaphore index name start s.pid hnonneg) hlock
  cases returned with
  | true =>
    obtain ⟨k', -, rfl⟩ := Option.map_eq_some_iff.mp hrest
    exact hu
  | false => exact Option.some.inj hrest ▸ hu

theorem AllSuspended.proceed (h : AllSuspended P s) (hadmin : s.kernel.adminMutex = 0) {rest : Rest}
    (hrun : s.proceed garbage rest = some t) : AllSuspended P t := by
  cases rest with
  | lockMutex => exact Option.some.inj hrun ▸ h
  | getMutex name =>
    obtain ⟨_, -, rfl⟩ := Option.map_eq_some_iff.mp hrun
    exact h
  | semCreate name start => exact h.semCreateEnd hP hadmin hrun
  | createSemaphore index name start pid =>
    obtain ⟨_, -, rfl⟩ := Option.map_eq_some_iff.mp hrun
    exact h
  | wait j => exact h.waitEnd hP hrun

theorem AllSuspended.lockThen (h : AllSuspended P s) (hadmin : s.kernel.adminMutex = 0)
    {rest : Rest} (hrest : P (.locking m rest)) (hrun : s.lockThen m garbage rest = some t) :
    AllSuspended P t := by
  rcases lockThen_cases hrun with hlock | ⟨u, hlock, hproceed⟩
  · exact h.lock hrest hlock
  · exact (h.lock hrest hlock).proceed hP ((lock_adminMutex hlock).trans hadmin) hproceed

theorem AllSuspended.step {a : Action} (h : AllSuspended P s) (hk : KernelMutexes s.kernel)
    (hstep : step s a = some t) : AllSuspended P t := by
  cases a with
  | tick =>
    simp only [Sync.step] at hstep
    split_ifs at hstep
    obtain ⟨k', -, rfl⟩ := Option.map_eq_some_iff.mp hstep
    exact h
  | createProcess page =>
    simp only [Sync.step] at hstep
    split_ifs at hstep
    exact Option.some.inj hstep ▸ h
  | removeProcess pid =>
    simp only [Sync.step] at hstep
    split_ifs at hstep
    obtain ⟨_, -, rfl⟩ := Option.map_eq_some_iff.mp hstep
    exact h
  | store strings =>
    simp only [Sync.step] at hstep
    split_ifs at hstep
    exact Option.some.inj hstep ▸ h
  | resume garbage =>
    rcases resume_cases hstep with ⟨mutex, rest, -, hproceed⟩ | ⟨i, g, -, rfl⟩
    · exact h.wake.proceed hP (by rw [wake_kernel]; exact hk.admin) hproceed
    · exact h.wake
  | lockMutex mutex garbage =>
    exact h.lockThen hP hk.admin (hP.lockMutex mutex) (step_call hstep).2
  | getMutex name garbage =>
    have hrun := (step_call hstep).2
    rw [Machine.call, hk.admin] at hrun
    exact h.lockThen hP hk.admin (hP.getMutex name) hrun
  | semCreate name start garbage =>
    have hrun := (step_call hstep).2
    rw [Machine.call, hk.semaphore] at hrun
    exact h.lockThen hP hk.admin (hP.semCreate name start) hrun
  | wait j garbage =>
    have hrun := (step_call hstep).2
    simp only [Machine.call, Machine.wait] at hrun
    split_ifs at hrun with hneg hvalid
    · have hlt := isValidSemaphore_lt hvalid
      exact h.lockThen hP hk.admin (hP.wait _ j (not_lt.mp hneg) hlt) hrun
    · exact Option.some.inj hrun ▸ h
  | _ =>
    obtain ⟨k', -, rfl⟩ := Option.map_eq_some_iff.mp (step_call hstep).2
    exact h

theorem reachable_suspended (h : machineSystem.Reachable s) : AllSuspended P s := by
  induction h with
  | start hs =>
    obtain ⟨-, -, -, -, -, -, -, -, -, -, hpending, -⟩ := hs
    intro p c hc
    rw [hpending p] at hc
    simp at hc
  | next hreach hstep ih => exact ih.step hP (reachable_kernelMutexes hreach) hstep

end

end GatOS.Sync
