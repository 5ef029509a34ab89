import GatOS.Boot
import GatOS.SemaphoreCalls
import GatOS.SuspendedCalls

/-!
# Handles of user programs

A program passes an index of a table to the kernel. `isValidMutex` and `isValidSemaphore` compare
it with the length of the table only: an index below the table is not refused.
-/
namespace GatOS.Sync
open Scheduler Transition

/-- An element of one of the two tables. -/
inductive Element
  | mutex (i : ℤ)
  | semaphore (i : ℤ)

def Element.InTable : Element → Prop
  | .mutex i => 0 ≤ i ∧ i < maxMutexes
  | .semaphore i => 0 ≤ i ∧ i < maxSemaphores

/-! ### What a function reads and writes -/

/-- The elements of the tables that a function reads or writes, in their order. -/
def isValidMutexElements (mutex : ℤ) : List Element :=
  if mutex ≥ maxMutexes then [] else [.mutex mutex]

def lockMutexElements (mutex : ℤ) (k : Kernel) : List Element :=
  isValidMutexElements mutex ++
    if ¬ isValidMutex mutex k then []
    else
      let lock := testAndSet (k.mutexes mutex)
      let k := k.setMutex mutex lock.2
      if lock.1 then [.mutex mutex]
      -- `_testAndSet`, `isQueueFull` and then `addToBlocked`
      else if isQueueFull mutex k then [.mutex mutex, .mutex mutex]
      else [.mutex mutex, .mutex mutex, .mutex mutex]

def freeMutexElements (mutex : ℤ) (k : Kernel) : List Element :=
  isValidMutexElements mutex ++
    if ¬ isValidMutex mutex k then []
    else if (k.mutexes mutex).cardinalBlocked > 0 then
      -- `cardinalBlocked`, `unblockProcess` and again `cardinalBlocked`
      [.mutex mutex, .mutex mutex, .mutex mutex]
    else [.mutex mutex, .mutex mutex]

def closeMutexElements (index : ℤ) (k : Kernel) : List Element :=
  isValidMutexElements index ++
    if ¬ isValidMutex index k then []
    else if k.pid = (k.mutexes index).pidCreator then [.mutex index, .mutex index]
    else [.mutex index]

def isValidSemaphoreElements (index : ℤ) : List Element :=
  if index ≥ maxSemaphores then [] else [.semaphore index]

def semCloseElements (index : ℤ) (k : Kernel) : List Element :=
  isValidSemaphoreElements index ++
    if ¬ isValidSemaphore index k then []
    else if k.pid = (k.semaphores index).pidCreator then [.semaphore index, .semaphore index]
    else [.semaphore index]

def signalElements (semaphore : ℤ) (k : Kernel) : List Element :=
  isValidSemaphoreElements semaphore ++
    if ¬ isValidSemaphore semaphore k then []
    else if (k.semaphores semaphore).cardinalBlocked > 0 then
      [.semaphore semaphore, .semaphore semaphore, .semaphore semaphore, .semaphore semaphore]
    else [.semaphore semaphore, .semaphore semaphore]

/-- Up to the end of `lockMutex(sem->mutex)`. -/
def waitElements (semaphore : ℤ) (k : Kernel) : List Element :=
  isValidSemaphoreElements semaphore ++
    if ¬ isValidSemaphore semaphore k then []
    else .semaphore semaphore :: lockMutexElements (k.semaphores semaphore).mutex k

/-- The kernel when `wait` calls `freeMutex(sem->mutex)`. -/
def waitFrees (semaphore : ℤ) (k : Kernel) : Kernel :=
  let k := decrement semaphore k
  if (k.semaphores semaphore).semaphore ≥ 0 then k
  else (addToSemBlocked semaphore k.pid k).setState k.pid .blocked

/-- Behind `lockMutex(sem->mutex)`. -/
def waitRestElements (semaphore : ℤ) (k : Kernel) : List Element :=
  let blocks := ((decrement semaphore k).semaphores semaphore).semaphore < 0
  -- `sem->semaphore--`, `sem->semaphore`, `addToSemBlocked` and `sem->mutex`
  [.semaphore semaphore, .semaphore semaphore] ++
    (if blocks then [.semaphore semaphore] else []) ++ [.semaphore semaphore] ++
      freeMutexElements ((waitFrees semaphore k).semaphores semaphore).mutex
        (waitFrees semaphore k)

/-! ### Calls with a handle -/

namespace Machine

/-- The semaphore and the kernel with which the rest of `wait` is carried out in a step. -/
def waitRestAt (s : Machine) : Action → Option (ℤ × Kernel)
  | .wait j garbage =>
    if isValidSemaphore j s.kernel then
      (lockMutex (s.kernel.semaphores j).mutex garbage s.kernel).bind fun r =>
        if r.1 then some (j, r.2) else none
    else none
  | .resume _ =>
    match s.pending s.pid with
    | some (.locking _ (.wait j)) => some (j, s.kernel)
    | _ => none
  | _ => none

def callElements (s : Machine) : Action → List Element
  | .lockMutex mutex _ => lockMutexElements mutex s.kernel
  | .freeMutex mutex => freeMutexElements mutex s.kernel
  | .closeMutex index => closeMutexElements index s.kernel
  | .wait j _ => waitElements j s.kernel
  | .signal j => signalElements j s.kernel
  | .semClose index => semCloseElements index s.kernel
  | _ => []

/-- Of a call with a handle and of the rest of one. -/
def elements (s : Machine) (a : Action) : List Element :=
  s.callElements a ++
    match s.waitRestAt a with
    | none => []
    | some (j, k) => waitRestElements j k

/-- The call and the calls of `lockMutex` and `freeMutex` that `wait` makes, each with the machine
as it finds it. -/
def handleCalls (s : Machine) (a : Action) : List (Action × Machine) :=
  (match a with
    | .wait j garbage =>
      if isValidSemaphore j s.kernel then
        [(a, s), (.lockMutex (s.kernel.semaphores j).mutex garbage, s)]
      else [(a, s)]
    | .lockMutex _ _ | .freeMutex _ | .closeMutex _ | .signal _ | .semClose _ => [(a, s)]
    | _ => []) ++
  match s.waitRestAt a with
  | none => []
  | some (j, k) =>
    [(.freeMutex ((waitFrees j k).semaphores j).mutex, { s with kernel := waitFrees j k })]

end Machine

/-- The handle is not the index of a slot in use. -/
def Action.Unused (k : Kernel) : Action → Prop
  | .lockMutex m _ | .freeMutex m | .closeMutex m =>
    ¬ ((Element.mutex m).InTable ∧ (k.mutexes m).used = true)
  | .wait j _ | .signal j | .semClose j =>
    ¬ ((Element.semaphore j).InTable ∧ (k.semaphores j).used = true)
  | _ => False

/-- The call returns at once, and the kernel and the suspended calls are as before. -/
def Action.ChangesNothing (s : Machine) (a : Action) : Prop :=
  ∃ t, s.call a = some t ∧ t.kernel = s.kernel ∧ t.pending = s.pending

/-- No table is indexed outside its bounds, and a call whose handle is no slot in use changes
nothing. -/
structure Checked (s : Machine) (a : Action) : Prop where
  inTable : ∀ e ∈ s.elements a, e.InTable
  unused : ∀ c ∈ s.handleCalls a, c.1.Unused c.2.kernel → c.1.ChangesNothing c.2

/-- The handle is not negative, and `getMutex` has not failed for a semaphore that `wait` uses. -/
def HandlesValid (s : Machine) : Action → Prop
  | .lockMutex m _ | .freeMutex m | .closeMutex m => 0 ≤ m
  | .signal j | .semClose j => 0 ≤ j
  | .wait j _ => 0 ≤ j ∧
      (isValidSemaphore j s.kernel = true → (s.kernel.semaphores j).mutex ≠ error)
  | .resume _ => ∀ m j, s.pending s.pid = some (.locking m (.wait j)) →
      (s.kernel.semaphores j).mutex ≠ error
  | _ => True

section

variable {s t : Machine} {k k' : Kernel} {m j garbage : ℤ}

/-! ### The checks -/

theorem isValidMutex_iff (hm : 0 ≤ m) :
    isValidMutex m k = true ↔ (Element.mutex m).InTable ∧ (k.mutexes m).used = true := by
  unfold isValidMutex Element.InTable
  by_cases hlt : m < maxMutexes
  · simp [hm, hlt]
  · simp [hlt, not_lt.mp hlt]

theorem isValidSemaphore_iff (hj : 0 ≤ j) :
    isValidSemaphore j k = true ↔
      (Element.semaphore j).InTable ∧ (k.semaphores j).used = true := by
  unfold isValidSemaphore Element.InTable
  by_cases hlt : j < maxSemaphores
  · simp [hj, hlt]
  · simp [hlt, not_lt.mp hlt]

/-- A function that checks its handle reads and writes elements of the table when the handle is
not negative, and only then. -/
theorem inTable_iff {element : Element} {i : ℤ} {size : ℕ} {valid : Bool} {l : List Element}
    (hin : element.InTable ↔ 0 ≤ i ∧ i < size) (hvalid : valid = true → i < size)
    (hl : ∀ e ∈ l, e = element) :
    (∀ e ∈ (if i ≥ size then [] else [element]) ++ (if ¬ valid then [] else l), e.InTable) ↔
      0 ≤ i := by
  constructor
  · intro h
    by_cases hge : i ≥ size
    · exact (Int.natCast_nonneg size).trans hge
    · exact (hin.mp (h element (by simp [hge]))).1
  · intro hi e he
    rcases List.mem_append.mp he with he | he
    · split_ifs at he with hge
      · simp at he
      · obtain rfl := List.mem_singleton.mp he
        exact hin.mpr ⟨hi, not_le.mp hge⟩
    · split_ifs at he with hv
      · obtain rfl := hl e he
        exact hin.mpr ⟨hi, hvalid hv⟩
      · simp at he

theorem inTable_mutex_iff {l : List Element} (hl : ∀ e ∈ l, e = .mutex m) :
    (∀ e ∈ isValidMutexElements m ++ (if ¬ isValidMutex m k then [] else l), e.InTable) ↔
      0 ≤ m :=
  inTable_iff Iff.rfl isValidMutex_lt hl

theorem inTable_semaphore_iff {l : List Element} (hl : ∀ e ∈ l, e = .semaphore j) :
    (∀ e ∈ isValidSemaphoreElements j ++ (if ¬ isValidSemaphore j k then [] else l),
      e.InTable) ↔ 0 ≤ j :=
  inTable_iff Iff.rfl isValidSemaphore_lt hl

theorem lockMutexElements_inTable : (∀ e ∈ lockMutexElements m k, e.InTable) ↔ 0 ≤ m :=
  inTable_mutex_iff fun e he => by
    dsimp only at he
    split_ifs at he <;> simpa using he

theorem freeMutexElements_inTable : (∀ e ∈ freeMutexElements m k, e.InTable) ↔ 0 ≤ m :=
  inTable_mutex_iff fun e he => by
    split_ifs at he <;> simpa using he

theorem closeMutexElements_inTable : (∀ e ∈ closeMutexElements m k, e.InTable) ↔ 0 ≤ m :=
  inTable_mutex_iff fun e he => by
    split_ifs at he <;> simpa using he

theorem semCloseElements_inTable : (∀ e ∈ semCloseElements j k, e.InTable) ↔ 0 ≤ j :=
  inTable_semaphore_iff fun e he => by
    split_ifs at he <;> simpa using he

theorem signalElements_inTable : (∀ e ∈ signalElements j k, e.InTable) ↔ 0 ≤ j :=
  inTable_semaphore_iff fun e he => by
    split_ifs at he <;> simpa using he

/-! ### The handle that a semaphore has stored -/

theorem waitFrees_mutex (j : ℤ) (k : Kernel) (i : ℤ) :
    ((waitFrees j k).semaphores i).mutex = (k.semaphores i).mutex := by
  have hdec : SameNames k (decrement j k) := .setSemaphore rfl rfl rfl
  unfold waitFrees
  dsimp only
  split_ifs
  · exact hdec.mutex i
  · exact ((hdec.trans (.addToSemBlocked j _ _)).trans (.setState _ _ _)).mutex i

/-- `wait` calls `freeMutex` with the mutex of the semaphore. -/
theorem waitRest_eq (j : ℤ) (k : Kernel) :
    waitRest j k = (freeMutex (k.semaphores j).mutex (waitFrees j k)).bind fun k' =>
      if ((decrement j k).semaphores j).semaphore ≥ 0 then some (true, k')
      else k'.yield.map (false, ·) := by
  rw [← waitFrees_mutex j k j]
  unfold waitRest waitFrees
  dsimp only
  split_ifs
  · rw [Option.map_eq_bind]
    rfl
  · rfl

theorem waitElements_inTable : (∀ e ∈ waitElements j k, e.InTable) ↔
    0 ≤ j ∧ (isValidSemaphore j k = true → 0 ≤ (k.semaphores j).mutex) := by
  have hown := inTable_semaphore_iff (j := j) (k := k) (l := [.semaphore j]) (by simp)
  rw [← hown, ← lockMutexElements_inTable (m := (k.semaphores j).mutex) (k := k)]
  unfold waitElements
  by_cases hvalid : isValidSemaphore j k = true
  · simp only [hvalid, not_true, if_false, List.forall_mem_append, List.forall_mem_cons,
      forall_const, List.not_mem_nil, false_imp_iff, implies_true, and_true, and_assoc]
  · simp [hvalid]

theorem waitRestElements_inTable : (∀ e ∈ waitRestElements j k, e.InTable) ↔
    (Element.semaphore j).InTable ∧ 0 ≤ (k.semaphores j).mutex := by
  rw [← waitFrees_mutex j k j, ← freeMutexElements_inTable (k := waitFrees j k)]
  unfold waitRestElements
  dsimp only
  split_ifs <;> simp

/-- A semaphore has stored an index of the table, or `getMutex` has failed for it. -/
def StoredMutex (s : Machine) : Prop :=
  ∀ i, (s.kernel.semaphores i).mutex = error ∨ (Element.mutex (s.kernel.semaphores i).mutex).InTable

theorem getMutexRest_index {name : ℕ} {i : ℤ} (h : getMutexRest name k = some (i, k')) :
    i = error ∨ (Element.mutex i).InTable := by
  rcases getMutexRest_cases h with ⟨hindex, -⟩ | ⟨-, -, hi, -⟩ | ⟨-, hspot, -⟩
  · obtain ⟨hnonneg, hlt, -⟩ := firstIndex_spec hindex
    exact Or.inr ⟨hnonneg, hlt⟩
  · exact Or.inl hi
  · obtain ⟨hnonneg, hlt, -⟩ := firstIndex_spec hspot
    exact Or.inr ⟨hnonneg, hlt⟩

theorem StoredMutex.of_mutex (h : StoredMutex s)
    (hmutex : ∀ i, (t.kernel.semaphores i).mutex = (s.kernel.semaphores i).mutex) :
    StoredMutex t := by
  intro i
  rw [hmutex i]
  exact h i

theorem StoredMutex.createSemaphoreEnd (h : StoredMutex s) {index start pid : ℤ} {name : ℕ}
    (hrun : s.createSemaphoreEnd index name start pid = some t) : StoredMutex t := by
  obtain ⟨k', hk, rfl⟩ := Option.map_eq_some_iff.mp hrun
  obtain ⟨⟨mutex, k₁⟩, hget, hfree⟩ := Option.bind_eq_some_iff.mp hk
  intro i
  dsimp only
  rw [freeMutex_semaphores hfree]
  by_cases hi : i = index
  · rw [hi, Sync.createSemaphoreEnd, Kernel.setSemaphore_self]
    exact getMutexRest_index hget
  · rw [Sync.createSemaphoreEnd, Kernel.setSemaphore_ne _ _ hi, getMutexRest_semaphores hget]
    exact h i

theorem op_storedMutex {op : Op} (h : StoredMutex s) (hrun : op.perform s = some t) :
    StoredMutex t := by
  cases op with
  | reserve index name =>
    obtain rfl := Option.some.inj hrun
    refine h.of_mutex fun i => ?_
    show (if i = index then _ else _ : Semaphore).mutex = _
    split_ifs with hi
    · rw [hi]
    · rfl
  | createSemaphoreEnd index name start pid => exact h.createSemaphoreEnd hrun
  | closeSemaphore index =>
    obtain ⟨k', hk, rfl⟩ := Option.map_eq_some_iff.mp hrun
    refine h.of_mutex fun i => ?_
    rcases semClose_cases hk with rfl | ⟨-, -, rfl⟩
    · rfl
    · show (if i = index then _ else _ : Semaphore).mutex = _
      split_ifs with hi
      · rw [hi]
      · rfl
  | store strings =>
    obtain rfl := Option.some.inj hrun
    exact h
  | _ =>
    refine h.of_mutex (op_names ?_ hrun).mutex
    trivial

theorem IsBoot.storedMutex (h : IsBoot s) : StoredMutex s := by
  obtain ⟨slot, strings, name, initPage, shellPage, hname, -, -, -, hboot, -, -⟩ := h
  rw [boot, initializeSemaphores_eq slot hname, Option.map_some] at hboot
  intro i
  rw [← Option.some.inj hboot]
  show (0 : ℤ) = error ∨ (Element.mutex 0).InTable
  exact Or.inr ⟨le_rfl, by decide⟩

theorem reachable_storedMutex (h : machineSystem.Reachable s) : StoredMutex s :=
  (reachable_of_ops (fun _ hs => hs.storedMutex) (fun _ _ _ _ hs _ hrun => op_storedMutex hs hrun)
    h).2

/-- The error code is the only index that is not in the table. -/
theorem StoredMutex.nonneg_iff (h : StoredMutex s) (i : ℤ) :
    0 ≤ (s.kernel.semaphores i).mutex ↔ (s.kernel.semaphores i).mutex ≠ error := by
  constructor
  · intro hnonneg he
    rw [he] at hnonneg
    exact absurd hnonneg (by decide)
  · intro hne
    exact ((h i).resolve_left hne).1

/-! ### The handle of a suspended call -/

/-- The rest of a `wait` has the handle of a semaphore of the table. -/
def Rest.InTable : Rest → Prop
  | .wait j => (Element.semaphore j).InTable
  | _ => True

def Pending.InTable : Pending → Prop
  | .locking _ rest => rest.InTable
  | .sleeping _ _ => True

def PendingInTable (s : Machine) : Prop := ∀ p c, s.pending p = some c → c.InTable

theorem coversSuspended_inTable : CoversSuspended Pending.InTable :=
  ⟨fun _ => trivial, fun _ => trivial, fun _ _ => trivial, fun _ _ _ _ _ => trivial,
    fun _ _ hnonneg hlt => ⟨hnonneg, hlt⟩, fun _ _ => trivial⟩

theorem reachable_pendingInTable (h : machineSystem.Reachable s) : PendingInTable s :=
  reachable_suspended coversSuspended_inTable h

/-! ### All calls -/

theorem waitRestAt_wait {i : ℤ} (h : s.waitRestAt (.wait j garbage) = some (i, k)) :
    i = j ∧ isValidSemaphore j s.kernel = true ∧ k.semaphores = s.kernel.semaphores := by
  simp only [Machine.waitRestAt] at h
  split_ifs at h with hvalid
  obtain ⟨⟨returned, k'⟩, hlock, hsome⟩ := Option.bind_eq_some_iff.mp h
  dsimp only at hsome
  split_ifs at hsome
  obtain ⟨rfl, rfl⟩ := Prod.mk.inj (Option.some.inj hsome)
  exact ⟨rfl, hvalid, lockMutex_semaphores hlock⟩

theorem waitRestAt_resume {i : ℤ} (h : s.waitRestAt (.resume garbage) = some (i, k)) :
    (∃ m, s.pending s.pid = some (.locking m (.wait i))) ∧ k = s.kernel := by
  simp only [Machine.waitRestAt] at h
  split at h
  · rename_i m i' hpending
    obtain ⟨rfl, rfl⟩ := Prod.mk.inj (Option.some.inj h)
    exact ⟨⟨m, hpending⟩, rfl⟩
  · exact absurd h (by simp)

theorem waitRestAt_of_pending (h : s.pending s.pid = some (.locking m (.wait j))) :
    s.waitRestAt (.resume garbage) = some (j, s.kernel) := by
  simp only [Machine.waitRestAt, h]

theorem elements_eq_of_none {a : Action} (h : s.waitRestAt a = none) :
    s.elements a = s.callElements a := by
  simp [Machine.elements, h]

theorem elements_inTable_wait (h : StoredMutex s) :
    (∀ e ∈ s.elements (.wait j garbage), e.InTable) ↔ HandlesValid s (.wait j garbage) := by
  have hcall : (∀ e ∈ s.callElements (.wait j garbage), e.InTable) ↔
      HandlesValid s (.wait j garbage) := by
    rw [Machine.callElements, waitElements_inTable, HandlesValid, h.nonneg_iff]
  cases hrest : s.waitRestAt (.wait j garbage) with
  | none => rw [elements_eq_of_none hrest, hcall]
  | some r =>
    obtain ⟨i, k⟩ := r
    obtain ⟨rfl, hvalid, hsem⟩ := waitRestAt_wait hrest
    simp only [Machine.elements, hrest, List.forall_mem_append]
    rw [hcall, waitRestElements_inTable, hsem, and_iff_left_iff_imp]
    -- the rest of `wait` uses the same handle and the same stored mutex
    intro hhandle
    exact ⟨⟨hhandle.1, isValidSemaphore_lt hvalid⟩, (h.nonneg_iff i).mpr (hhandle.2 hvalid)⟩

theorem elements_inTable_resume (h : StoredMutex s) (hpending : PendingInTable s) :
    (∀ e ∈ s.elements (.resume garbage), e.InTable) ↔ HandlesValid s (.resume garbage) := by
  rw [HandlesValid]
  constructor
  · intro hin m j hp
    simp only [Machine.elements, waitRestAt_of_pending hp, List.forall_mem_append] at hin
    exact (h.nonneg_iff j).mp (waitRestElements_inTable.mp hin.2).2
  · intro hhandle
    cases hrest : s.waitRestAt (.resume garbage) with
    | none =>
      rw [elements_eq_of_none hrest]
      simp [Machine.callElements]
    | some r =>
      obtain ⟨i, k⟩ := r
      obtain ⟨⟨m, hp⟩, rfl⟩ := waitRestAt_resume hrest
      simp only [Machine.elements, hrest, Machine.callElements, List.nil_append]
      have hstored := (h.nonneg_iff i).mpr (hhandle m i hp)
      exact waitRestElements_inTable.mpr ⟨hpending _ _ hp, hstored⟩

theorem elements_inTable_iff (h : StoredMutex s) (hpending : PendingInTable s) (a : Action) :
    (∀ e ∈ s.elements a, e.InTable) ↔ HandlesValid s a := by
  cases a with
  | lockMutex m garbage => rw [elements_eq_of_none rfl]; exact lockMutexElements_inTable
  | freeMutex m => rw [elements_eq_of_none rfl]; exact freeMutexElements_inTable
  | closeMutex m => rw [elements_eq_of_none rfl]; exact closeMutexElements_inTable
  | semClose j => rw [elements_eq_of_none rfl]; exact semCloseElements_inTable
  | signal j => rw [elements_eq_of_none rfl]; exact signalElements_inTable
  | wait j garbage => exact elements_inTable_wait h
  | resume garbage => exact elements_inTable_resume h hpending
  | _ =>
    rw [elements_eq_of_none rfl]
    simp [Machine.callElements, HandlesValid]

/-- The handle of a call. -/
def Action.Nonneg : Action → Prop
  | .lockMutex m _ | .freeMutex m | .closeMutex m => 0 ≤ m
  | .wait j _ | .signal j | .semClose j => 0 ≤ j
  | _ => True

/-- A handle that is not negative and no slot in use is refused. -/
theorem changesNothing_of_unused {a : Action} (hnonneg : a.Nonneg) (hunused : a.Unused s.kernel) :
    a.ChangesNothing s := by
  cases a with
  | lockMutex m garbage =>
    have hneg : ¬ m < 0 := not_lt.mpr hnonneg
    have hvalid : ¬ isValidMutex m s.kernel = true := mt (isValidMutex_iff hnonneg).mp hunused
    have hlock : lockMutex m garbage s.kernel = some (true, s.kernel) := by
      simp [lockMutex, hneg, hvalid]
    refine ⟨s, ?_, rfl, rfl⟩
    simp [Machine.call, Machine.lockThen, Machine.lock, Machine.proceed, hlock, hvalid]
  | freeMutex m =>
    have hneg : ¬ m < 0 := not_lt.mpr hnonneg
    have hvalid : ¬ isValidMutex m s.kernel = true := mt (isValidMutex_iff hnonneg).mp hunused
    refine ⟨{ s with ledger := s.ledger.release m s.pid }, ?_, rfl, rfl⟩
    simp [Machine.call, Machine.free, freeMutex, hneg, hvalid]
  | closeMutex m =>
    have hneg : ¬ m < 0 := not_lt.mpr hnonneg
    have hvalid : ¬ isValidMutex m s.kernel = true := mt (isValidMutex_iff hnonneg).mp hunused
    refine ⟨s, ?_, rfl, rfl⟩
    simp [Machine.call, Machine.close, closeMutex, hneg, hvalid]
  | semClose j =>
    have hneg : ¬ j < 0 := not_lt.mpr hnonneg
    have hvalid : ¬ isValidSemaphore j s.kernel = true :=
      mt (isValidSemaphore_iff hnonneg).mp hunused
    refine ⟨s, ?_, rfl, rfl⟩
    simp [Machine.call, Machine.closeSemaphore, semClose, hneg, hvalid]
  | wait j garbage =>
    have hneg : ¬ j < 0 := not_lt.mpr hnonneg
    have hvalid : ¬ isValidSemaphore j s.kernel = true :=
      mt (isValidSemaphore_iff hnonneg).mp hunused
    refine ⟨s, ?_, rfl, rfl⟩
    simp [Machine.call, Machine.wait, hneg, hvalid]
  | signal j =>
    have hneg : ¬ j < 0 := not_lt.mpr hnonneg
    have hvalid : ¬ isValidSemaphore j s.kernel = true :=
      mt (isValidSemaphore_iff hnonneg).mp hunused
    refine ⟨s, ?_, rfl, rfl⟩
    simp [Machine.call, Machine.signal, Sync.signal, hneg, hvalid]
  | _ => exact hunused.elim

theorem handleCalls_nonneg (h : StoredMutex s) {a : Action} (hvalid : HandlesValid s a)
    {c : Action × Machine} (hc : c ∈ s.handleCalls a) : c.1.Nonneg := by
  rcases List.mem_append.mp hc with hc | hc
  · cases a with
    | wait j garbage =>
      dsimp only at hc
      split_ifs at hc with hsem
      · rcases List.mem_cons.mp hc with rfl | hc
        · exact hvalid.1
        · obtain rfl := List.mem_singleton.mp hc
          exact (h.nonneg_iff j).mpr (hvalid.2 hsem)
      · obtain rfl := List.mem_singleton.mp hc
        exact hvalid.1
    | lockMutex m garbage => obtain rfl := List.mem_singleton.mp hc; exact hvalid
    | freeMutex m => obtain rfl := List.mem_singleton.mp hc; exact hvalid
    | closeMutex m => obtain rfl := List.mem_singleton.mp hc; exact hvalid
    | signal j => obtain rfl := List.mem_singleton.mp hc; exact hvalid
    | semClose j => obtain rfl := List.mem_singleton.mp hc; exact hvalid
    | _ => simp at hc
  · split at hc
    · simp at hc
    · rename_i j k hrest
      obtain rfl := List.mem_singleton.mp hc
      show 0 ≤ ((waitFrees j k).semaphores j).mutex
      rw [waitFrees_mutex]
      cases a with
      | wait i garbage =>
        obtain ⟨rfl, hsem, hsame⟩ := waitRestAt_wait hrest
        rw [hsame]
        exact (h.nonneg_iff j).mpr (hvalid.2 hsem)
      | resume garbage =>
        obtain ⟨⟨m, hp⟩, rfl⟩ := waitRestAt_resume hrest
        exact (h.nonneg_iff j).mpr (hvalid m j hp)
      | _ => simp [Machine.waitRestAt] at hrest

end

/-- In every reachable state a call with a handle is checked exactly when the handle is not
negative and the semaphore has not stored an error code. -/
theorem handles_checked {s : Machine} (h : machineSystem.Reachable s) (a : Action) :
    Checked s a ↔ HandlesValid s a := by
  have hstored := reachable_storedMutex h
  have hiff := elements_inTable_iff hstored (reachable_pendingInTable h) a
  constructor
  · intro hchecked
    exact hiff.mp hchecked.inTable
  · intro hvalid
    refine ⟨hiff.mpr hvalid, fun c hc hunused => ?_⟩
    exact changesNothing_of_unused (handleCalls_nonneg hstored hvalid hc) hunused

/-- The shell waits on the semaphore in slot 0, which is in use and has stored a mutex. -/
theorem handles_checked_wait : ∃ s, machineSystem.Reachable s ∧
    isValidSemaphore 0 s.kernel = true ∧ (Checked s (.wait 0 0) ↔ HandlesValid s (.wait 0 0)) := by
  obtain ⟨s, hs, hvalid⟩ := reachable_replay
    (show (execute step bootedMachine [.tick, .semCreate 2 0 0]).map
      (fun s => isValidSemaphore 0 s.kernel) = some true by decide +kernel)
  exact ⟨s, hs, hvalid, handles_checked hs _⟩

/-- The shell locks the mutex with the error code as its index. -/
theorem error_locked : ∃ s, machineSystem.Reachable s ∧ s.idle = true ∧ s.pid ≠ initPid ∧
    ¬ Checked s (.lockMutex error 0) := by
  obtain ⟨s, hs, hf⟩ := reachable_replay
    (show (execute step bootedMachine [.tick]).map (fun s => (s.idle, s.pid)) = some (true, 1) by
      decide +kernel)
  obtain ⟨hidle, hpid⟩ := Prod.mk.inj hf
  refine ⟨s, hs, hidle, by rw [hpid]; decide, fun h => ?_⟩
  have hin : (Element.mutex error).InTable := h.inTable _ (by
    simp [Machine.elements, Machine.callElements, Machine.waitRestAt, lockMutexElements,
      isValidMutexElements, error, maxMutexes])
  exact absurd hin.1 (by decide)

end GatOS.Sync
