import GatOS.MutexFrame
import GatOS.SuspendedCalls

/-!
# How `semCreate` fails

The name may be in use, and there may be no slot for the semaphore or for its mutex. The result of
the call and what becomes of `semaphoreMutex` depend on which of them it is.
-/
namespace GatOS.Sync
open Scheduler Transition

/-- What `semCreate` returns when it goes on behind `lockMutex`, unless it is suspended again. The
result of `getMutex` does not matter. -/
def Rest.semCreateResult (s : Machine) : Rest → Option ℤ
  | .semCreate name _ =>
    match getSemIndex name s.kernel with
    | some _ => some error
    | none =>
      match getFreePositionSemaphores s.kernel with
      | none => some error
      | some index =>
        if passes s.kernel.adminMutex (s.reserve index name).kernel then some index else none
  | .createSemaphore index _ _ _ => some index
  | _ => none

/-- The rest that the running process carries out in this step, and the machine behind the
`lockMutex` before it. -/
def Machine.goesOn (s : Machine) : Action → Option (Rest × Machine)
  | .semCreate name start garbage =>
    if s.idle ∧ s.pid ≠ initPid then
      (s.lock s.kernel.semaphoreMutex garbage (.semCreate name start)).bind fun r =>
        if r.1 then some (.semCreate name start, r.2) else none
    else none
  | .resume _ =>
    match s.pending s.pid with
    | some (.locking _ rest) => some (rest, s.wake)
    | _ => none
  | _ => none

/-- `getMutex` does not find the name, and there is no slot for a new mutex. -/
def MutexRefused (name : ℕ) (k : Kernel) : Prop := getIndex name k = none ∧ getFreeSpot k = none

/-- The rest of the call cannot create the semaphore. -/
def Rest.Fails (k : Kernel) : Rest → Prop
  | .semCreate name _ =>
    getSemIndex name k ≠ none ∨ getFreePositionSemaphores k = none ∨ MutexRefused name k
  | .createSemaphore _ name _ _ => MutexRefused name k
  | _ => False

/-- The running process of `u` no longer holds the mutex. The first that waited for it goes on;
when nobody waited it is free. -/
structure GivenBack (m : ℤ) (u t : Machine) : Prop where
  holders : t.ledger.holders m = (u.ledger.holders m).erase u.pid
  handed : ∀ p l, u.kernel.waiters (.mutex m) = p :: l →
    t.kernel.waiters (.mutex m) = l ∧ ¬ Blocked t.kernel.sched p
  free : u.kernel.waiters (.mutex m) = [] → passes m t.kernel = true

/-- A call that returns `r` has given `semaphoreMutex` back, and if it has failed it has returned
`ERROR` and changed no semaphore. -/
structure ReturnsCleanly (rest : Rest) (r : ℤ) (s u t : Machine) : Prop where
  released : GivenBack s.kernel.semaphoreMutex u t
  failed : rest.Fails s.kernel → r = error ∧ t.kernel.semaphores = s.kernel.semaphores

/-- The name is not in use; and there is no slot for the semaphore, or there is a mutex for it. -/
def Rest.Provided (k : Kernel) : Rest → Prop
  | .semCreate name _ =>
    getSemIndex name k = none ∧ (getFreePositionSemaphores k ≠ none → ¬ MutexRefused name k)
  | .createSemaphore _ name _ _ => ¬ MutexRefused name k
  | _ => True

/-- The names and the slots in use are the same. -/
structure SameSearches (k k' : Kernel) : Prop where
  semaphores : k'.semaphores = k.semaphores
  strings : k'.strings = k.strings
  used : ∀ i, (k'.mutexes i).used = (k.mutexes i).used
  name : ∀ i, (k'.mutexes i).name = (k.mutexes i).name

section

variable {k k' : Kernel} {s t u : Machine} {m garbage : ℤ} {rest : Rest}

/-! ### Searches -/

theorem SameSearches.refl (k : Kernel) : SameSearches k k := ⟨rfl, rfl, fun _ => rfl, fun _ => rfl⟩

theorem SameSearches.mutexRefused (h : SameSearches k k') (name : ℕ) :
    MutexRefused name k' ↔ MutexRefused name k := by
  simp only [MutexRefused, getIndex, getFreeSpot, h.strings, h.used, h.name]

theorem SameSearches.fails (h : SameSearches k k') : rest.Fails k' ↔ rest.Fails k := by
  cases rest with
  | semCreate name start =>
    simp only [Rest.Fails, h.mutexRefused, getSemIndex, getFreePositionSemaphores, h.semaphores,
      h.strings]
  | createSemaphore index name start pid => exact h.mutexRefused name
  | _ => exact Iff.rfl

theorem SameSearches.provided (h : SameSearches k k') : rest.Provided k' ↔ rest.Provided k := by
  cases rest with
  | semCreate name start =>
    simp only [Rest.Provided, h.mutexRefused, getSemIndex, getFreePositionSemaphores, h.semaphores,
      h.strings]
  | createSemaphore index name start pid => exact not_congr (h.mutexRefused name)
  | _ => exact Iff.rfl

theorem lockMutex_names (h : lockMutex m garbage k = some (true, k')) : SameSearches k k' := by
  unfold lockMutex at h
  dsimp only at h
  split_ifs at h with hneg hvalid hlock hfull
  · obtain ⟨-, rfl⟩ := Prod.mk.inj (Option.some.inj h)
    have hsame : ∀ i, ((k.setMutex m (testAndSet (k.mutexes m)).2).mutexes i).used =
        (k.mutexes i).used ∧ ((k.setMutex m (testAndSet (k.mutexes m)).2).mutexes i).name =
          (k.mutexes i).name := by
      intro i
      by_cases hi : i = m
      · rw [hi, Kernel.setMutex_self]
        unfold testAndSet
        split_ifs <;> exact ⟨rfl, rfl⟩
      · rw [Kernel.setMutex_ne _ _ hi]
        exact ⟨rfl, rfl⟩
    exact ⟨rfl, rfl, fun i => (hsame i).1, fun i => (hsame i).2⟩
  · obtain ⟨_, -, hpair⟩ := Option.map_eq_some_iff.mp h
    exact absurd (Prod.mk.inj hpair).1 (by simp)
  · obtain ⟨_, -, hpair⟩ := Option.map_eq_some_iff.mp h
    exact absurd (Prod.mk.inj hpair).1 (by simp)
  · obtain ⟨-, rfl⟩ := Prod.mk.inj (Option.some.inj h)
    exact SameSearches.refl k

/-- The machine behind `lockMutex`. -/
theorem goesOn_cases {a : Action} (hgoes : s.goesOn a = some (rest, u)) :
    (∃ name start garbage, a = .semCreate name start garbage ∧ rest = .semCreate name start ∧
      s.idle = true ∧ s.pid ≠ initPid ∧
        s.lock s.kernel.semaphoreMutex garbage (.semCreate name start) = some (true, u)) ∨
    ∃ garbage m, a = .resume garbage ∧ s.pending s.pid = some (.locking m rest) ∧ u = s.wake := by
  cases a with
  | semCreate name start garbage =>
    left
    simp only [Machine.goesOn] at hgoes
    split_ifs at hgoes with hidle
    obtain ⟨⟨returned, u'⟩, hlock, hrest⟩ := Option.bind_eq_some_iff.mp hgoes
    cases returned with
    | false => simp at hrest
    | true =>
      obtain ⟨rfl, rfl⟩ := Prod.mk.inj (Option.some.inj hrest)
      exact ⟨name, start, garbage, rfl, rfl, hidle.1, hidle.2, hlock⟩
  | resume garbage =>
    right
    simp only [Machine.goesOn] at hgoes
    split at hgoes
    · rename_i m rest' hpending
      obtain ⟨rfl, rfl⟩ := Prod.mk.inj (Option.some.inj hgoes)
      exact ⟨garbage, m, rfl, hpending, rfl⟩
    · simp at hgoes
  | _ => simp [Machine.goesOn] at hgoes

/-! ### The calls do not fail to end -/

theorem exists_freeMutex (hm : 0 ≤ m) (k : Kernel) : ∃ k', freeMutex m k = some k' := by
  unfold freeMutex
  rw [if_neg (not_lt.mpr hm)]
  split_ifs <;> exact ⟨_, rfl⟩

theorem exists_getMutexRest (hk : k.adminMutex = 0) (name : ℕ) :
    ∃ i k', getMutexRest name k = some (i, k') := by
  have hfree : ∀ r : ℤ × Kernel, r.2.adminMutex = 0 →
      ∃ i k', (freeMutex r.2.adminMutex r.2).map (fun k => (r.1, k)) = some (i, k') := by
    intro r hr
    obtain ⟨k', hk'⟩ := exists_freeMutex hr.ge r.2
    exact ⟨r.1, k', by rw [hk', Option.map_some]⟩
  unfold getMutexRest
  dsimp only
  cases getIndex name k with
  | some index => exact hfree (index, k) hk
  | none =>
    refine hfree (createMutex name k) ?_
    unfold createMutex
    split
    · exact hk
    · exact hk

theorem exists_createSemaphoreEnd (hk : KernelMutexes s.kernel) (index : ℤ) (name : ℕ)
    (start pid : ℤ) : ∃ t, s.createSemaphoreEnd index name start pid = some t := by
  obtain ⟨i, k₁, hget⟩ := exists_getMutexRest hk.admin name
  have hsem : k₁.semaphoreMutex = 1 := (getMutexRest_semaphoreMutex hget).trans hk.semaphore
  have hnonneg : 0 ≤ k₁.semaphoreMutex := by omega
  obtain ⟨k', hfree⟩ := exists_freeMutex hnonneg (Sync.createSemaphoreEnd index i start pid k₁)
  have hrest : createSemaphoreRest index name start pid s.kernel = some k' := by
    rw [createSemaphoreRest, hget, Option.bind_some, hfree]
  exact ⟨_, Option.map_eq_some_iff.mpr ⟨k', hrest, rfl⟩⟩

theorem exists_lock (hm : 0 ≤ m) (hpasses : passes m s.kernel = true) (garbage : ℤ) (rest : Rest) :
    ∃ t, s.lock m garbage rest = some (true, t) := by
  have hlock : ∃ k', lockMutex m garbage s.kernel = some (true, k') := by
    unfold lockMutex
    rw [if_neg (not_lt.mpr hm)]
    split_ifs with hvalid
    · rw [passes, hvalid, Bool.not_true, Bool.false_or] at hpasses
      dsimp only
      rw [if_pos hpasses]
      exact ⟨_, rfl⟩
    · exact ⟨_, rfl⟩
  obtain ⟨k', hk'⟩ := hlock
  exact ⟨_, Option.map_eq_some_iff.mpr ⟨(true, k'), hk', if_pos rfl⟩⟩

/-! ### Giving the mutex back -/

theorem KernelMutexes.valid (h : KernelMutexes k) : isValidMutex 1 k = true := by
  have hlt : ¬ (1 : ℤ) ≥ maxMutexes := by decide
  rw [isValidMutex, if_neg hlt]
  exact h.used

theorem GivenBack.of_free (h : Settled u) (hvalid : isValidMutex m u.kernel = true)
    (hrun : u.free m = some t) : GivenBack m u t := by
  obtain ⟨hslots, -, -, hholders, -⟩ := free_spec h hrun
  obtain ⟨k', hk, rfl⟩ := Option.map_eq_some_iff.mp hrun
  rcases freeMutex_cases (h.parked.mutex_cardinal m) hk with
    ⟨hno, -⟩ | ⟨-, q, queue, hwait, rfl⟩ | ⟨-, hwait, rfl⟩
  · rw [hvalid] at hno
    exact absurd hno (by simp)
  · refine ⟨hholders, fun p l hp => ?_, fun hnone => ?_⟩
    · have hwaiters : u.kernel.waiters (.mutex m) = q :: waitersOf queue := hwait
      rw [hwaiters] at hp
      obtain ⟨rfl, rfl⟩ := List.cons.inj hp
      refine ⟨?_, ?_⟩
      · rw [Kernel.waiters_setMutex_self]
      · exact not_blocked_changeProcessState_self h.parked.ring .ready q (by simp)
    · have hwaiters : u.kernel.waiters (.mutex m) = q :: waitersOf queue := hwait
      rw [hwaiters] at hnone
      exact absurd hnone (List.cons_ne_nil _ _)
  · have hnone : u.kernel.waiters (.mutex m) = [] := hwait
    have hcard : (u.kernel.mutexes m).cardinalBlocked = 0 := by
      rw [h.parked.mutex_cardinal m, hwait]
      rfl
    refine ⟨hholders, fun p l hp => ?_, fun _ => ?_⟩
    · rw [hnone] at hp
      exact absurd hp.symm (List.cons_ne_nil _ _)
    · rw [passes, Kernel.setMutex_self, testAndSet, if_pos ⟨rfl, hcard⟩, Bool.or_true]

theorem GivenBack.of_untouched {v : Machine} (h : GivenBack m v t) (hpid : v.pid = u.pid)
    (huntouched : MutexUntouched m u v) : GivenBack m u t := by
  refine ⟨?_, fun p l hp => h.handed p l ?_, fun hnone => h.free ?_⟩
  · rw [h.holders, huntouched.holders, hpid]
  · rw [huntouched.waiters, hp]
  · rw [huntouched.waiters, hnone]

/-- `getMutex` behind `lockMutex` does not touch `semaphoreMutex`. -/
theorem untouched_getMutexEnd (h : Settled u) (hk : KernelMutexes u.kernel) {name : ℕ}
    (hrun : u.getMutexEnd name = some t) : MutexUntouched 1 u t ∧ t.pid = u.pid := by
  obtain ⟨k, hcases, hfree⟩ := getMutexEnd_spec hrun
  have hne : (1 : ℤ) ≠ u.kernel.adminMutex := by
    rw [hk.admin]
    decide
  have hset : Settled { u with kernel := k } ∧ MutexUntouched 1 u { u with kernel := k } ∧
      k.sched = u.kernel.sched := by
    rcases hcases with rfl | ⟨i, hspot, rfl⟩
    · exact ⟨h, MutexUntouched.refl 1 u, rfl⟩
    · obtain ⟨-, -, hunused⟩ := firstIndex_spec hspot
      have hi : (1 : ℤ) ≠ i := by
        rintro rfl
        rw [hk.used] at hunused
        simp at hunused
      refine ⟨⟨h.parked.setMutex rfl rfl, h.current⟩, .of_slot ?_ rfl rfl, rfl⟩
      exact Kernel.setMutex_ne _ _ hi
  obtain ⟨hsettled, huntouched, hsched⟩ := hset
  obtain ⟨-, hfrees, -⟩ := free_spec hsettled hfree
  obtain ⟨k', hk', rfl⟩ := Option.map_eq_some_iff.mp hfree
  have hpid : k'.pid = k.pid := (hsettled.parked.freeMutex hk').2.2.current
  refine ⟨huntouched.trans (hfrees 1 hne), hpid.trans ?_⟩
  exact congrArg getCurrentPid hsched

theorem GivenBack.of_createSemaphoreEnd (h : Settled u) (hk : KernelMutexes u.kernel) {index : ℤ}
    {name : ℕ} {start pid : ℤ} (hrun : u.createSemaphoreEnd index name start pid = some t) :
    GivenBack 1 u t := by
  obtain ⟨k', hk', rfl⟩ := Option.map_eq_some_iff.mp hrun
  obtain ⟨⟨i, k₁⟩, hget, hfree⟩ := Option.bind_eq_some_iff.mp hk'
  set v : Machine := { u with
    kernel := k₁
    ledger := u.ledger.release u.kernel.adminMutex u.pid } with hv
  have hend : u.getMutexEnd name = some v := Option.map_eq_some_iff.mpr ⟨(i, k₁), hget, rfl⟩
  obtain ⟨hsettled, -⟩ := h.getMutexEnd hend
  have hmutexes := @KernelMutexes.op _ _ (.getMutexEnd name) hk h hend
  obtain ⟨huntouched, hpid⟩ := untouched_getMutexEnd h hk hend
  -- the new semaphore is stored, and `semaphoreMutex` is freed
  set w : Machine := { v with kernel := Sync.createSemaphoreEnd index i start pid k₁ } with hw
  have hwsettled : Settled w := ⟨hsettled.parked.setSemaphore rfl rfl, hsettled.current⟩
  have hwfree : w.free 1 = some { w with kernel := k', ledger := w.ledger.release 1 w.pid } := by
    have hsem : k₁.semaphoreMutex = 1 := hmutexes.semaphore
    rw [hsem] at hfree
    exact Option.map_eq_some_iff.mpr ⟨k', hfree, rfl⟩
  have hvalid : isValidMutex 1 w.kernel = true := hmutexes.valid
  have hback := GivenBack.of_free hwsettled hvalid
    hwfree
  have huw : MutexUntouched 1 u w := huntouched.trans (.of_slot rfl rfl rfl)
  have hback := hback.of_untouched (show w.pid = u.pid from hpid) huw
  refine ⟨?_, hback.handed, hback.free⟩
  rw [← hback.holders]
  show ((u.ledger.release u.kernel.adminMutex u.pid).release u.kernel.semaphoreMutex
    u.pid).holders 1 = (w.ledger.release 1 w.pid).holders 1
  rw [hk.semaphore, show w.pid = u.pid from hpid]

/-! ### The two ways into the call -/

/-- Behind `lockMutex` the tables are as before, and the process holds the mutex. -/
structure Inside (s u : Machine) : Prop where
  settled : Settled u
  mutexes : KernelMutexes u.kernel
  names : SameSearches s.kernel u.kernel
  idle : u.idle = true

/-- `semCreate` is suspended on `semaphoreMutex` first, and then with a slot of the table. -/
def Pending.InCreation : Pending → Prop
  | .locking m (.semCreate _ _) => m = 1
  | .locking _ (.createSemaphore index _ _ _) => 0 ≤ index
  | _ => True

theorem coversSuspended_inCreation : CoversSuspended Pending.InCreation :=
  ⟨fun _ => trivial, fun _ => trivial, fun _ _ => rfl, fun _ _ _ _ h => h,
    fun _ _ _ _ => trivial, fun _ _ => trivial⟩

theorem inside_goesOn (h : machineSystem.Reachable s) {a : Action}
    (hgoes : s.goesOn a = some (rest, u)) : Inside s u ∧
      (∀ name start, rest = .semCreate name start → u.pid ∈ u.ledger.holders 1) ∧
        (∀ index name start pid, rest = .createSemaphore index name start pid → 0 ≤ index) ∧
          ∃ garbage, step s a = u.proceed garbage rest := by
  have hs := reachable_settled h
  have hk := reachable_kernelMutexes h
  rcases goesOn_cases hgoes with ⟨name, start, garbage, rfl, rfl, hidle, hpid, hlock⟩ |
    ⟨garbage, m, rfl, hpending, rfl⟩
  · have hop : (Op.lock s.kernel.semaphoreMutex garbage (.semCreate name start)).perform s =
        some u := by
      rw [Op.perform, hlock, Option.map_some]
    obtain ⟨hsched, -, hpend⟩ := lock_returned hlock
    have hupid : u.pid = s.pid := congrArg getCurrentPid hsched
    refine ⟨⟨(hs.lock hidle hlock).1, hk.op hs hop, ?_, idle_of_sched hsched hpend hidle⟩, ?_,
      fun _ _ _ _ hrest => Rest.noConfusion hrest, garbage, ?_⟩
    · obtain ⟨⟨returned, k'⟩, hk', hpair⟩ := Option.map_eq_some_iff.mp hlock
      cases returned with
      | true =>
        obtain ⟨-, rfl⟩ := Prod.mk.inj hpair
        exact lockMutex_names hk'
      | false => exact absurd (Prod.mk.inj hpair).1 (by simp)
    · intro _ _ _
      obtain ⟨-, -, hcases⟩ := lock_spec hs hidle hlock
      rw [hk.semaphore, hk.valid] at hcases
      rcases hcases with ⟨hno, -⟩ | ⟨-, -, -, -, -, -, hholders, -⟩ | ⟨-, hno, -⟩
      · exact absurd hno (by simp)
      · rw [hholders, hupid]
        exact List.mem_cons_self
      · exact absurd hno (by simp)
    · simp only [step, Machine.call, Machine.lockThen, hlock, Option.bind_some, if_true]
      rw [if_pos ⟨hidle, hpid⟩]
  · have hpend := reachable_suspended coversSuspended_inCreation h _ _ hpending
    refine ⟨⟨hs.wake, ?_, ?_, wake_idle⟩, ?_, ?_, garbage, ?_⟩
    · rw [wake_kernel]
      exact hk
    · rw [wake_kernel]
      exact SameSearches.refl _
    · rintro name start rfl
      obtain rfl : m = 1 := hpend
      rw [(wake_locking hpending).2, wake_pid]
      exact List.mem_cons_self
    · rintro index name start pid rfl
      exact hpend
    · simp only [step, Machine.resume, hpending]

/-! ### How the call ends -/

/-- With a new name, the call behind `lockMutex(semaphoreMutex)`. -/
theorem Inside.semCreateEnd (h : Inside s u) {name : ℕ} {start r : ℤ}
    (hnew : getSemIndex name u.kernel = none)
    (hresult : (Rest.semCreate name start).semCreateResult u = some r) (garbage : ℤ) :
    ∃ t, u.semCreateEnd name start garbage = some t ∧ GivenBack 1 u t ∧
      (getFreePositionSemaphores u.kernel = none →
        r = error ∧ t.kernel.semaphores = u.kernel.semaphores) ∧
      (getFreePositionSemaphores u.kernel ≠ none → 0 ≤ r) := by
  simp only [Rest.semCreateResult, hnew] at hresult
  unfold Machine.semCreateEnd
  rw [hnew]
  cases hspot : getFreePositionSemaphores u.kernel with
  | none =>
    rw [hspot] at hresult
    obtain rfl := Option.some.inj hresult
    obtain ⟨k', hk'⟩ := exists_freeMutex (show (0 : ℤ) ≤ 1 by decide) u.kernel
    have hfree : u.free 1 = some { u with kernel := k', ledger := u.ledger.release 1 u.pid } :=
      Option.map_eq_some_iff.mpr ⟨k', hk', rfl⟩
    dsimp only
    rw [h.mutexes.semaphore]
    exact ⟨_, hfree, GivenBack.of_free h.settled h.mutexes.valid hfree,
      fun _ => ⟨rfl, freeMutex_semaphores hk'⟩, fun hno => absurd rfl hno⟩
  | some index =>
    rw [hspot] at hresult
    dsimp only at hresult ⊢
    split_ifs at hresult with hpasses
    obtain rfl := Option.some.inj hresult
    have hnonneg : 0 ≤ u.kernel.adminMutex := h.mutexes.admin.ge
    obtain ⟨v, hlock⟩ := exists_lock (s := u.reserve index name) hnonneg hpasses garbage
      (.createSemaphore index name start u.pid)
    have hreserve := (h.settled.reserve index name).1
    have hridle : (u.reserve index name).idle = true := h.idle
    have hv := (hreserve.lock hridle hlock).1
    have hop : (Op.lock u.kernel.adminMutex garbage
        (.createSemaphore index name start u.pid)).perform (u.reserve index name) = some v := by
      rw [Op.perform, hlock, Option.map_some]
    have hvk : KernelMutexes v.kernel :=
      KernelMutexes.op (s := u.reserve index name)
        ⟨h.mutexes.admin, h.mutexes.semaphore, h.mutexes.used, h.mutexes.creator⟩ hreserve hop
    obtain ⟨t, ht⟩ := exists_createSemaphoreEnd hvk index name start u.pid
    have hne : (1 : ℤ) ≠ u.kernel.adminMutex := by
      rw [h.mutexes.admin]
      decide
    have huv : MutexUntouched 1 u v := by
      have hur : MutexUntouched 1 u (u.reserve index name) := .of_slot rfl rfl rfl
      exact hur.trans ((lock_spec hreserve hridle hlock).2.1 1 hne)
    have hpid : v.pid = u.pid := congrArg getCurrentPid (lock_returned hlock).1
    refine ⟨t, ?_, (GivenBack.of_createSemaphoreEnd hv hvk ht).of_untouched hpid huv,
      fun hno => absurd hno (by simp), fun _ => (firstIndex_spec hspot).1⟩
    rw [show (u.reserve index name).kernel.adminMutex = u.kernel.adminMutex from rfl, hlock,
      Option.bind_some, if_pos rfl, ht]

/-- A call of `semCreate` that returns does so cleanly exactly when the name is new and there is a
mutex for a semaphore that has a slot. -/
theorem semCreate_clean_iff (h : machineSystem.Reachable s) {a : Action} {r : ℤ}
    (hgoes : s.goesOn a = some (rest, u)) (hresult : rest.semCreateResult u = some r) :
    (∃ t, step s a = some t ∧ ReturnsCleanly rest r s u t) ↔ rest.Provided s.kernel := by
  obtain ⟨hinside, hholds, hslot, garbage, hstep⟩ := inside_goesOn h hgoes
  have hsem := (reachable_kernelMutexes h).semaphore
  have hfails := @SameSearches.fails _ _ rest hinside.names
  rw [hstep, ← hinside.names.provided]
  cases rest with
  | semCreate name start =>
    constructor
    · rintro ⟨t, hrun, hback, hclean⟩
      rw [hsem] at hback
      have hrun : u.semCreateEnd name start garbage = some t := hrun
      have hnew : getSemIndex name u.kernel = none := by
        by_contra hused
        obtain ⟨i, hi⟩ := Option.ne_none_iff_exists'.mp hused
        rw [Machine.semCreateEnd, hi] at hrun
        obtain rfl := Option.some.inj hrun
        have hmem := hholds name start rfl
        have hlength := congrArg List.length hback.holders
        rw [List.length_erase_of_mem hmem] at hlength
        have hpos := List.length_pos_of_mem hmem
        omega
      refine ⟨hnew, fun hspot hrefused => ?_⟩
      obtain ⟨-, -, -, -, hindex⟩ := hinside.semCreateEnd hnew hresult garbage
      have hr := hindex hspot
      rw [(hclean (hfails.mp (Or.inr (Or.inr hrefused)))).1] at hr
      exact absurd hr (by decide)
    · rintro ⟨hnew, hmutex⟩
      obtain ⟨t, hrun, hback, hnone, -⟩ := hinside.semCreateEnd hnew hresult garbage
      rw [← hsem] at hback
      refine ⟨t, hrun, hback, fun hfail => ?_⟩
      have hspot : getFreePositionSemaphores u.kernel = none := by
        by_contra hspot
        rcases hfails.mpr hfail with hused | hno | hrefused
        · exact hused hnew
        · exact hspot hno
        · exact hmutex hspot hrefused
      obtain ⟨hr, hsame⟩ := hnone hspot
      exact ⟨hr, hsame.trans hinside.names.semaphores⟩
  | createSemaphore index name start pid =>
    obtain rfl := Option.some.inj hresult
    have hnonneg := hslot index name start pid rfl
    constructor
    · rintro ⟨t, -, -, hclean⟩ hrefused
      rw [(hclean (hfails.mp hrefused)).1] at hnonneg
      exact absurd hnonneg (by decide)
    · intro hmutex
      obtain ⟨t, ht⟩ := exists_createSemaphoreEnd hinside.mutexes index name start pid
      have hback := GivenBack.of_createSemaphoreEnd hinside.settled hinside.mutexes ht
      rw [← hsem] at hback
      exact ⟨t, ht, hback, fun hfail => absurd (hfails.mpr hfail) hmutex⟩
  | _ => simp [Rest.semCreateResult] at hresult

end

/-! ### Concrete runs -/

/-- Process 2 creates a semaphore. -/
theorem semCreate_clean_first : ∃ s rest u r, machineSystem.Reachable s ∧
    s.goesOn (.semCreate 2 1 0) = some (rest, u) ∧ rest.semCreateResult u = some r ∧
      ((∃ t, step s (.semCreate 2 1 0) = some t ∧ ReturnsCleanly rest r s u t) ↔
        rest.Provided s.kernel) := by
  have hrun : (execute step bootedMachine (createProcesses 1 ++ [.tick])).any (fun s =>
      (s.goesOn (.semCreate 2 1 0)).any fun q => (q.1.semCreateResult q.2).isSome) = true := by
    decide +kernel
  obtain ⟨s, hs, hrun⟩ := (Option.any_eq_true _ _).mp hrun
  obtain ⟨⟨rest, u⟩, hgoes, hrun⟩ := (Option.any_eq_true _ _).mp hrun
  obtain ⟨r, hr⟩ := Option.isSome_iff_exists.mp hrun
  have hreach := reachable_of_execute IsBoot isBoot_bootedMachine hs
  exact ⟨s, rest, u, r, hreach, hgoes, hr, semCreate_clean_iff hreach hgoes hr⟩

/-- Process 2 calls `semCreate` with a name that is in use. Then process 1 calls it, with another
name. -/
theorem semCreate_keeps_mutex : ∃ s rest u t t', machineSystem.Reachable s ∧
    s.goesOn (.semCreate 2 1 0) = some (rest, u) ∧ rest.semCreateResult u = some error ∧
      step s (.semCreate 2 1 0) = some t ∧ ¬ ReturnsCleanly rest error s u t ∧
        machineSystem.Path t [.tick, .semCreate 3 1 0] t' ∧ (t'.pending 1).isSome = true := by
  have hrun : (execute step bootedMachine (createProcesses 1 ++ [.tick, .semCreate 2 1 0])).any
      (fun s => (s.goesOn (.semCreate 2 1 0)).any fun q =>
        (step s (.semCreate 2 1 0)).any fun t =>
          (execute step t [.tick, .semCreate 3 1 0]).any fun t' =>
            q.1.semCreateResult q.2 = some error ∧ s.kernel.semaphoreMutex = 1 ∧
              q.2.ledger.holders 1 = [2] ∧ q.2.pid = 2 ∧ t.ledger.holders 1 = [2] ∧
                (t'.pending 1).isSome = true) = true := by
    decide +kernel
  obtain ⟨s, hs, hrun⟩ := (Option.any_eq_true _ _).mp hrun
  obtain ⟨⟨rest, u⟩, hgoes, hrun⟩ := (Option.any_eq_true _ _).mp hrun
  obtain ⟨t, hstep, hrun⟩ := (Option.any_eq_true _ _).mp hrun
  obtain ⟨t', hpath, hrun⟩ := (Option.any_eq_true _ _).mp hrun
  obtain ⟨hresult, hmutex, hholders, hpid, hkept, hpending⟩ := of_decide_eq_true hrun
  refine ⟨s, rest, u, t, t', reachable_of_execute IsBoot isBoot_bootedMachine hs, hgoes, hresult,
    hstep, fun hclean => ?_, path_of_execute IsBoot hpath, hpending⟩
  have hback := hclean.released.holders
  rw [hmutex, hkept, hholders, hpid] at hback
  exact absurd hback (by decide)

end GatOS.Sync
